import Mathlib.Tactic.Ring
import Unpack.Checksum.Adler32

namespace Unpack.Adler32

-- Both sums are reduced.
def Reduced (adler : Adler32) : Prop :=
  adler.low < modulus ∧ adler.high < modulus

-- One byte at a time, reduced each time.
def addByte (adler : Adler32) (byte : UInt8) : Adler32 :=
  (⟨adler.low + byte.toUInt32, adler.high + (adler.low + byte.toUInt32)⟩ : Adler32).reduce

theorem reduced_empty : Reduced empty :=
  ⟨by decide, by decide⟩

theorem reduced_reduce (adler : Adler32) : Reduced adler.reduce :=
  ⟨UInt32.mod_lt _ (by decide), UInt32.mod_lt _ (by decide)⟩

theorem reduce_of_reduced {adler : Adler32} (h : Reduced adler) : adler.reduce = adler := by
  simp only [reduce, UInt32.mod_eq_of_lt h.1, UInt32.mod_eq_of_lt h.2]

theorem reduced_foldl {adler : Adler32} (h : Reduced adler) (bytes : List UInt8) :
    Reduced (bytes.foldl addByte adler) := by
  induction bytes generalizing adler with
  | nil => exact h
  | cons byte bytes ih => exact ih (reduced_reduce _)

-- So many bytes can be added to these sums without overflow.
def Holds (low high : UInt32) (count : Nat) : Prop :=
  2 * high.toNat + 2 * (count * low.toNat) + 255 * (count * (count + 1)) < 2 ^ 33

theorem holds_stretch {adler : Adler32} (h : Reduced adler) : Holds adler.low adler.high stretch := by
  obtain ⟨hlow, hhigh⟩ := h
  simp only [UInt32.lt_iff_toNat_lt, modulus] at hlow hhigh
  simp only [Holds, stretch]
  have : (65521 : UInt32).toNat = 65521 := rfl
  omega

theorem Holds.next {low high : UInt32} {count : Nat} (h : Holds low high (count + 1)) (byte : UInt8) :
    (low + byte.toUInt32).toNat = low.toNat + byte.toNat ∧
    (high + (low + byte.toUInt32)).toNat = high.toNat + (low.toNat + byte.toNat) ∧
    Holds (low + byte.toUInt32) (high + (low + byte.toUInt32)) count := by
  have hbyte := byte.toNat_lt
  have hlow : (count + 1) * low.toNat = count * low.toNat + low.toNat := by ring
  have hsquare : (count + 1) * (count + 1 + 1) = count * (count + 1) + 2 * count + 2 := by ring
  have hmore := Nat.mul_le_mul_left count (show byte.toNat ≤ 255 by omega)
  simp only [Holds, hlow, hsquare] at h
  have hsum : (low + byte.toUInt32).toNat = low.toNat + byte.toNat := by
    rw [UInt32.toNat_add, UInt8.toNat_toUInt32, Nat.mod_eq_of_lt (by omega)]
  have htotal : (high + (low + byte.toUInt32)).toNat = high.toNat + (low.toNat + byte.toNat) := by
    rw [UInt32.toNat_add, hsum, Nat.mod_eq_of_lt (by omega)]
  refine ⟨hsum, htotal, ?_⟩
  simp only [Holds, hsum, htotal, Nat.mul_add] at *
  omega

-- The sums that are left of two numbers.
def residues (low high : Nat) : Adler32 :=
  ⟨UInt32.ofNat (low % 65521), UInt32.ofNat (high % 65521)⟩

theorem reduce_eq_residues (adler : Adler32) :
    adler.reduce = residues adler.low.toNat adler.high.toNat := by
  have hmod : ∀ sum : UInt32, sum % modulus = UInt32.ofNat (sum.toNat % 65521) := by
    intro sum
    have hmodulus : modulus.toNat = 65521 := rfl
    rw [← hmodulus, ← UInt32.toNat_mod, UInt32.ofNat_toNat]
  rw [reduce, hmod, hmod, residues]

-- A byte may be added to the whole numbers instead.
theorem addByte_residues (low high : Nat) (byte : UInt8) :
    addByte (residues low high) byte =
      residues (low + byte.toNat) (high + (low + byte.toNat)) := by
  have hbyte := byte.toNat_lt
  have hsmall : ∀ n, n % 65521 < 2 ^ 32 := fun n => by omega
  have hlow : (UInt32.ofNat (low % 65521) + byte.toUInt32).toNat = low % 65521 + byte.toNat := by
    rw [UInt32.toNat_add, UInt32.toNat_ofNat_of_lt' (hsmall _), UInt8.toNat_toUInt32,
      Nat.mod_eq_of_lt (by omega)]
  have hhigh : (UInt32.ofNat (high % 65521) +
      (UInt32.ofNat (low % 65521) + byte.toUInt32)).toNat =
        high % 65521 + (low % 65521 + byte.toNat) := by
    rw [UInt32.toNat_add, hlow, UInt32.toNat_ofNat_of_lt' (hsmall _), Nat.mod_eq_of_lt (by omega)]
  rw [addByte, reduce_eq_residues]
  simp only [residues, hlow, hhigh, Adler32.mk.injEq]
  constructor <;> congr 1 <;> omega

-- Reducing before a byte or only after it comes to the same.
theorem addByte_reduce {low high : UInt32} {count : Nat} (h : Holds low high (count + 1))
    (byte : UInt8) :
    addByte (reduce ⟨low, high⟩) byte =
      reduce ⟨low + byte.toUInt32, high + (low + byte.toUInt32)⟩ := by
  obtain ⟨hlow, hhigh, -⟩ := h.next byte
  rw [reduce_eq_residues, addByte_residues, reduce_eq_residues]
  simp only [hlow, hhigh]

-- A stretch summed without reduction.
theorem reduce_sum (bytes : ByteArray) (stop i : Nat) (low high : UInt32)
    (h : Holds low high (stop - i)) :
    (sum bytes stop i low high).reduce =
      ((bytes.data.toList.take stop).drop i).foldl addByte (reduce ⟨low, high⟩) := by
  induction hcount : stop - i generalizing i low high with
  | zero =>
      rw [sum, dif_neg (by omega), List.drop_of_length_le (by rw [List.length_take]; omega)]
      rfl
  | succ count ih =>
      by_cases hinside : i < bytes.size
      · have hget : i < (bytes.data.toList.take stop).length := by
          rw [List.length_take, Array.length_toList]
          show i < min stop bytes.size
          omega
        rw [hcount] at h
        obtain ⟨-, -, hnext⟩ := h.next bytes[i]
        rw [sum, dif_pos ⟨by omega, hinside⟩, List.drop_eq_getElem_cons hget, List.foldl_cons,
          List.getElem_take, Array.getElem_toList, ← ByteArray.getElem_eq_getElem_data,
          addByte_reduce h]
        have hstop : stop - (i + 1) = count := by omega
        exact ih (i + 1) _ _ (hstop ▸ hnext) hstop
      · have hlength : bytes.data.toList.length = bytes.size := rfl
        rw [sum, dif_neg (by omega),
          List.drop_of_length_le (by rw [List.length_take, hlength]; omega)]
        rfl

theorem run_eq_foldl (bytes : ByteArray) (i : Nat) {adler : Adler32} (h : Reduced adler) :
    run bytes i adler = (bytes.data.toList.drop i).foldl addByte adler := by
  induction hleft : bytes.size - i using Nat.strongRecOn generalizing i adler with
  | ind left ih =>
      have hlength : bytes.data.toList.length = bytes.size := rfl
      rw [run]
      split
      · have hstretch : (bytes.data.toList.take (i + stretch)).drop i =
            (bytes.data.toList.drop i).take stretch := by
          rw [List.drop_take, Nat.add_sub_cancel_left]
        have hsum := reduce_sum bytes (i + stretch) i adler.low adler.high (by
          rw [Nat.add_sub_cancel_left]
          exact holds_stretch h)
        rw [hstretch] at hsum
        rw [ih (bytes.size - (i + stretch)) (by simp only [stretch]; omega) (i + stretch)
          (reduced_reduce _) rfl, hsum, ← List.foldl_append, ← List.drop_drop,
          List.take_append_drop]
        exact congrArg (fun start => List.foldl addByte start _) (reduce_of_reduced h)
      · rw [List.drop_of_length_le (by omega)]
        rfl

-- The checksum takes the bytes one by one, whatever pieces they come in.
theorem update_eq_foldl {adler : Adler32} (h : Reduced adler) (bytes : ByteArray) :
    adler.update bytes = bytes.data.toList.foldl addByte adler :=
  run_eq_foldl bytes 0 h

theorem update_of_empty (adler : Adler32) {bytes : ByteArray} (h : bytes.size = 0) :
    adler.update bytes = adler := by
  rw [update, run, if_neg (by omega)]

end Unpack.Adler32
