import Unpack.Checksum.Crc32
import Unpack.Proofs.Bits.BitList

namespace Unpack.Crc32

-- Numbers without common bits add up.
theorem two_pow_mul_xor {i b : Nat} (a : Nat) (hb : b < 2 ^ i) :
    (2 ^ i * a) ^^^ b = 2 ^ i * a + b := by
  apply Nat.eq_of_testBit_eq
  intro j
  rw [Nat.testBit_xor, Nat.testBit_two_pow_mul, Nat.testBit_two_pow_mul_add _ hb]
  by_cases hj : j < i
  · simp [hj, Nat.not_le.mpr hj]
  · have hhigh : b.testBit j = false :=
      Nat.testBit_lt_two_pow (Nat.lt_of_lt_of_le hb (Nat.pow_le_pow_right (by decide) (by omega)))
    simp [hj, Nat.le_of_not_lt hj, hhigh]

theorem ofNat_two_pow_mul_add {i a b : Nat} (hb : b < 2 ^ i) (hfits : 2 ^ i * a + b < 2 ^ 32) :
    UInt32.ofNat (2 ^ i * a + b) = UInt32.ofNat b ^^^ UInt32.ofNat (2 ^ i * a) := by
  apply UInt32.toNat_inj.mp
  rw [UInt32.toNat_xor, UInt32.toNat_ofNat_of_lt' hfits,
    UInt32.toNat_ofNat_of_lt' (show b < 2 ^ 32 by omega),
    UInt32.toNat_ofNat_of_lt' (show 2 ^ i * a < 2 ^ 32 by omega), Nat.xor_comm]
  exact (two_pow_mul_xor a hb).symm

theorem ofNat_split {n : Nat} (hn : n < 2 ^ 32) :
    UInt32.ofNat n = UInt32.ofNat (n % 256) ^^^ UInt32.ofNat (256 * (n / 256)) := by
  have hlow : n % 256 < 2 ^ 8 := Nat.mod_lt _ (by decide)
  have hsum : 2 ^ 8 * (n / 256) + n % 256 = n := Nat.div_add_mod n 256
  have hsplit := ofNat_two_pow_mul_add hlow (hsum ▸ hn)
  rwa [hsum] at hsplit

theorem and_one_iff (register : UInt32) :
    register &&& 1 = 1 ↔ register.toNat.testBit 0 = true := by
  rw [← UInt32.toNat_inj, UInt32.toNat_and, Nat.testBit_zero]
  have hone : (1 : UInt32).toNat = 1 := rfl
  rw [hone, Nat.and_one_is_mod]
  simp

theorem shift_of_odd {register : UInt32} (h : register.toNat.testBit 0 = true) :
    shift register = (register >>> 1) ^^^ 0xEDB88320 :=
  if_pos ((and_one_iff register).mpr h)

theorem shift_of_even {register : UInt32} (h : register.toNat.testBit 0 = false) :
    shift register = register >>> 1 :=
  if_neg fun hodd => Bool.false_ne_true (h.symm.trans ((and_one_iff register).mp hodd))

theorem shift_xor (x y : UInt32) : shift (x ^^^ y) = shift x ^^^ shift y := by
  have hbit : (x ^^^ y).toNat.testBit 0 = (x.toNat.testBit 0 ^^ y.toNat.testBit 0) := by
    rw [UInt32.toNat_xor, Nat.testBit_xor]
  cases hx : x.toNat.testBit 0 <;> cases hy : y.toNat.testBit 0 <;> rw [hx, hy] at hbit
  · rw [shift_of_even hbit, shift_of_even hx, shift_of_even hy, UInt32.shiftRight_xor]
  · rw [shift_of_odd hbit, shift_of_even hx, shift_of_odd hy, UInt32.shiftRight_xor,
      UInt32.xor_assoc]
  · rw [shift_of_odd hbit, shift_of_odd hx, shift_of_even hy, UInt32.shiftRight_xor,
      UInt32.xor_assoc, UInt32.xor_assoc, UInt32.xor_comm (y >>> 1)]
  · rw [shift_of_even hbit, shift_of_odd hx, shift_of_odd hy, UInt32.shiftRight_xor,
      UInt32.xor_assoc, UInt32.xor_comm (y >>> 1), ← UInt32.xor_assoc 0xEDB88320,
      UInt32.xor_self, UInt32.zero_xor]

theorem shifts_xor (n : Nat) (x y : UInt32) : shifts n (x ^^^ y) = shifts n x ^^^ shifts n y := by
  induction n generalizing x y with
  | zero => rfl
  | succ n ih => rw [shifts, shift_xor, ih, shifts, shifts]

-- Zeros at the low end are just shifted out.
theorem shift_double {n : Nat} (hn : 2 * n < 2 ^ 32) :
    shift (UInt32.ofNat (2 * n)) = UInt32.ofNat n := by
  have hvalue : (UInt32.ofNat (2 * n)).toNat = 2 * n := UInt32.toNat_ofNat_of_lt' hn
  have heven : (UInt32.ofNat (2 * n)).toNat.testBit 0 = false := by
    rw [hvalue, Nat.testBit_zero]
    simp
  rw [shift_of_even heven]
  apply UInt32.toNat_inj.mp
  have hone : (1 : UInt32).toNat % 32 = 1 := rfl
  rw [UInt32.toNat_shiftRight, hvalue, UInt32.toNat_ofNat_of_lt' (show n < 2 ^ 32 by omega), hone,
    Nat.shiftRight_eq_div_pow]
  omega

theorem shifts_two_pow (k n : Nat) (hn : 2 ^ k * n < 2 ^ 32) :
    shifts k (UInt32.ofNat (2 ^ k * n)) = UInt32.ofNat n := by
  induction k generalizing n with
  | zero => rw [Nat.pow_zero, Nat.one_mul, shifts]
  | succ k ih =>
      have hsplit : 2 ^ (k + 1) * n = 2 * (2 ^ k * n) := by
        rw [Nat.pow_succ, Nat.mul_comm (2 ^ k) 2, Nat.mul_assoc]
      rw [hsplit] at hn ⊢
      rw [shifts, shift_double hn]
      exact ih n (by omega)

theorem shifts_add (m n : Nat) (register : UInt32) :
    shifts (m + n) register = shifts n (shifts m register) := by
  induction m generalizing register with
  | zero => rw [Nat.zero_add, shifts]
  | succ m ih => rw [Nat.succ_add, shifts, ih, shifts]

-- A byte goes through the register bit by bit.
def addByte (register : UInt32) (byte : UInt8) : UInt32 :=
  shifts 8 (register ^^^ byte.toUInt32)

theorem shiftRight_eight (register : UInt32) :
    register >>> 8 = UInt32.ofNat (register.toNat / 256) := by
  have hlt := register.toNat_lt
  have height : (8 : UInt32).toNat % 32 = 8 := rfl
  apply UInt32.toNat_inj.mp
  rw [UInt32.toNat_shiftRight, height, Nat.shiftRight_eq_div_pow,
    UInt32.toNat_ofNat_of_lt' (show register.toNat / 256 < 2 ^ 32 by omega)]

-- The low byte is shifted out, and the other bytes just move down.
theorem shifts_split (zeros : Nat) (register : UInt32) :
    shifts (8 * (zeros + 1)) register =
      shifts (8 * (zeros + 1)) (UInt32.ofNat (register.toNat % 256)) ^^^
        shifts (8 * zeros) (register >>> 8) := by
  have hlt := register.toNat_lt
  have hhigh : shifts (8 * (zeros + 1)) (UInt32.ofNat (256 * (register.toNat / 256))) =
      shifts (8 * zeros) (register >>> 8) := by
    have hmoved := shifts_two_pow 8 (register.toNat / 256)
      (show 2 ^ 8 * (register.toNat / 256) < 2 ^ 32 by omega)
    have hcount : 8 * (zeros + 1) = 8 + 8 * zeros := by omega
    rw [hcount, shifts_add, shiftRight_eight]
    exact congrArg _ hmoved
  have hsplit := ofNat_split hlt
  rw [UInt32.ofNat_toNat] at hsplit
  rw [← hhigh, ← shifts_xor, ← hsplit]

theorem lookup_byteTable (register : UInt32) :
    lookup byteTable register = shifts 8 (UInt32.ofNat (register.toNat % 256)) :=
  Vector.getElem_ofFn register.toUInt8.toFin.isLt

theorem shifts_eight (register : UInt32) :
    shifts 8 register = lookup byteTable register ^^^ (register >>> 8) := by
  rw [lookup_byteTable]
  exact shifts_split 0 register

-- An entry made from the one before is that entry after another zero byte.
theorem lookup_table (zeros : Nat) (register : UInt32) :
    lookup (table zeros) register =
      shifts (8 * (zeros + 1)) (UInt32.ofNat (register.toNat % 256)) := by
  induction zeros with
  | zero => exact lookup_byteTable register
  | succ zeros ih =>
      have hentry : lookup (table (zeros + 1)) register =
          lookup byteTable (lookup (table zeros) register) ^^^
            (lookup (table zeros) register >>> 8) :=
        Vector.getElem_map _ register.toUInt8.toFin.isLt
      have hcount : 8 * (zeros + 1 + 1) = 8 * (zeros + 1) + 8 := by omega
      rw [hentry, ← shifts_eight, ih, hcount, ← shifts_add]

theorem shifts_eq_lookup (zeros : Nat) (register : UInt32) :
    shifts (8 * (zeros + 1)) register =
      lookup (table zeros) register ^^^ shifts (8 * zeros) (register >>> 8) := by
  rw [lookup_table]
  exact shifts_split zeros register

theorem shiftRight_byte (register : UInt32) (byte : UInt8) :
    (register ^^^ byte.toUInt32) >>> 8 = register >>> 8 := by
  have hnone : byte.toUInt32 >>> 8 = 0 := by
    have hbyte := byte.toNat_lt
    rw [shiftRight_eight, UInt8.toNat_toUInt32, Nat.div_eq_of_lt (by omega)]
    rfl
  rw [UInt32.shiftRight_xor, hnone, UInt32.xor_zero]

theorem byteStep_eq_addByte (register : UInt32) (byte : UInt8) :
    byteStep register byte = addByte register byte := by
  rw [byteStep, addByte, shifts_eight, shiftRight_byte]
  rfl

-- The next byte leaves the others where they are.
theorem shifts_byte (register : UInt32) (byte : UInt8) {number : Nat} (hnumber : number < 2 ^ 24) :
    shifts 8 (register ^^^ UInt32.ofNat (byte.toNat + 256 * number)) =
      addByte register byte ^^^ UInt32.ofNat number := by
  have hbyte := byte.toNat_lt
  have hsplit := ofNat_split (show byte.toNat + 256 * number < 2 ^ 32 by omega)
  have hlow : (byte.toNat + 256 * number) % 256 = byte.toNat := by omega
  have hhigh : (byte.toNat + 256 * number) / 256 = number := by omega
  have hmoved := shifts_two_pow 8 number (show 2 ^ 8 * number < 2 ^ 32 by omega)
  rw [hlow, hhigh] at hsplit
  rw [hsplit, ← UInt32.xor_assoc, shifts_xor, UInt32.ofNat_uInt8ToNat]
  exact congrArg (addByte register byte ^^^ ·) hmoved

theorem shifts_bytes (bytes : List UInt8) (hlength : bytes.length ≤ 4) (register : UInt32) :
    shifts (8 * bytes.length) (register ^^^ UInt32.ofNat (Bytes.littleEndian bytes)) =
      bytes.foldl addByte register := by
  induction bytes generalizing register with
  | nil =>
      have hnone : UInt32.ofNat (Bytes.littleEndian []) = 0 := rfl
      rw [List.length_nil, Nat.mul_zero, shifts, hnone, UInt32.xor_zero, List.foldl_nil]
  | cons byte bytes ih =>
      have hlt := Bytes.littleEndian_lt bytes
      have hpow : 256 ^ bytes.length ≤ 256 ^ 3 :=
        Nat.pow_le_pow_right (by decide) (by rw [List.length_cons] at hlength; omega)
      have hcount : 8 * (byte :: bytes).length = 8 + 8 * bytes.length := by
        rw [List.length_cons]
        omega
      rw [hcount, shifts_add, Bytes.littleEndian_cons,
        shifts_byte register byte (by omega), List.foldl_cons]
      exact ih (by rw [List.length_cons] at hlength; omega) _

theorem word_eq (b0 b1 b2 b3 : UInt8) :
    b0.toUInt32 ||| (b1.toUInt32 <<< 8) ||| (b2.toUInt32 <<< 16) ||| (b3.toUInt32 <<< 24) =
      UInt32.ofNat (Bytes.littleEndian [b0, b1, b2, b3]) := by
  have h0 := b0.toNat_lt
  have h1 := b1.toNat_lt
  have h2 := b2.toNat_lt
  have h3 := b3.toNat_lt
  have hor : ∀ {i low : Nat} (high : Nat), low < 2 ^ i → low ||| 2 ^ i * high = 2 ^ i * high + low :=
    fun high hlow => (Nat.or_comm _ _).trans (Nat.two_pow_add_eq_or_of_lt hlow high).symm
  have hfirst := hor b1.toNat (show b0.toNat < 2 ^ 8 from h0)
  have hsecond := hor b2.toNat (show 2 ^ 8 * b1.toNat + b0.toNat < 2 ^ 16 by omega)
  have hthird := hor b3.toNat
    (show 2 ^ 16 * b2.toNat + (2 ^ 8 * b1.toNat + b0.toNat) < 2 ^ 24 by omega)
  have hshift : ∀ (byte : UInt8) (i : Nat), i ≤ 24 →
      (byte.toUInt32 <<< UInt32.ofNat i).toNat = 2 ^ i * byte.toNat := by
    intro byte i hi
    have hcount : (UInt32.ofNat i).toNat % 32 = i := by
      rw [UInt32.toNat_ofNat_of_lt' (show i < 2 ^ 32 by omega)]
      omega
    have hfits : byte.toNat * 2 ^ i < 2 ^ 8 * 2 ^ 24 :=
      Nat.mul_lt_mul_of_lt_of_le byte.toNat_lt (Nat.pow_le_pow_right (by decide) hi) (by decide)
    rw [← Nat.pow_add] at hfits
    rw [UInt32.toNat_shiftLeft, hcount, UInt8.toNat_toUInt32, Nat.shiftLeft_eq,
      Nat.mod_eq_of_lt hfits, Nat.mul_comm]
  have h8 : (b1.toUInt32 <<< 8).toNat = 2 ^ 8 * b1.toNat := hshift b1 8 (by decide)
  have h16 : (b2.toUInt32 <<< 16).toNat = 2 ^ 16 * b2.toNat := hshift b2 16 (by decide)
  have h24 : (b3.toUInt32 <<< 24).toNat = 2 ^ 24 * b3.toNat := hshift b3 24 (by decide)
  have hvalue : Bytes.littleEndian [b0, b1, b2, b3] =
      2 ^ 24 * b3.toNat + (2 ^ 16 * b2.toNat + (2 ^ 8 * b1.toNat + b0.toNat)) := by
    simp only [Bytes.littleEndian, List.foldr_cons, List.foldr_nil]
    omega
  have hfits : Bytes.littleEndian [b0, b1, b2, b3] < 2 ^ 32 := by
    rw [hvalue]
    omega
  apply UInt32.toNat_inj.mp
  rw [UInt32.toNat_or, UInt32.toNat_or, UInt32.toNat_or, UInt8.toNat_toUInt32, h8, h16, h24,
    hfirst, hsecond, hthird, UInt32.toNat_ofNat_of_lt' hfits, hvalue]

theorem wordStep_eq_foldl (register : UInt32) (b0 b1 b2 b3 : UInt8) :
    wordStep register b0 b1 b2 b3 = [b0, b1, b2, b3].foldl addByte register := by
  have hbytes := shifts_bytes [b0, b1, b2, b3] (Nat.le_refl 4) register
  rw [← hbytes, ← word_eq, wordStep]
  generalize register ^^^ (b0.toUInt32 ||| (b1.toUInt32 <<< 8) ||| (b2.toUInt32 <<< 16) |||
    (b3.toUInt32 <<< 24)) = word
  have hlt := word.toNat_lt
  have hmiddle : word >>> 8 >>> 8 = word >>> 16 := by
    rw [← UInt32.toNat_inj]
    simp only [UInt32.toNat_shiftRight, Nat.shiftRight_eq_div_pow, UInt32.reduceToNat, Nat.reduceMod]
    omega
  have hhigh : word >>> 16 >>> 8 = word >>> 24 := by
    rw [← UInt32.toNat_inj]
    simp only [UInt32.toNat_shiftRight, Nat.shiftRight_eq_div_pow, UInt32.reduceToNat, Nat.reduceMod]
    omega
  have hnone : word >>> 24 >>> 8 = 0 := by
    rw [← UInt32.toNat_inj]
    simp only [UInt32.toNat_shiftRight, Nat.shiftRight_eq_div_pow, UInt32.reduceToNat, Nat.reduceMod]
    omega
  have h3 := shifts_eq_lookup 3 word
  have h2 := shifts_eq_lookup 2 (word >>> 8)
  have h1 := shifts_eq_lookup 1 (word >>> 16)
  have h0 := shifts_eq_lookup 0 (word >>> 24)
  rw [hmiddle] at h2
  rw [hhigh] at h1
  rw [hnone, Nat.mul_zero, shifts, UInt32.xor_zero] at h0
  have hlength : 8 * [b0, b1, b2, b3].length = 8 * (3 + 1) := rfl
  rw [hlength, h3, h2, h1, h0, UInt32.xor_assoc, UInt32.xor_assoc]
  rfl

theorem drop_eq_cons {bytes : ByteArray} {i : Nat} (h : i < bytes.size) :
    bytes.data.toList.drop i = bytes[i] :: bytes.data.toList.drop (i + 1) :=
  List.drop_eq_getElem_cons h

theorem runBytes_eq_foldl (bytes : ByteArray) (i : Nat) (register : UInt32) :
    runBytes bytes i register = (bytes.data.toList.drop i).foldl addByte register := by
  fun_induction runBytes bytes i register with
  | case1 i register h ih => rw [ih, byteStep_eq_addByte, drop_eq_cons h, List.foldl_cons]
  | case2 i register h => rw [List.drop_of_length_le (Nat.le_of_not_lt h), List.foldl_nil]

theorem runWords_eq_foldl (bytes : ByteArray) (i : Nat) (register : UInt32) :
    runWords bytes i register = (bytes.data.toList.drop i).foldl addByte register := by
  fun_induction runWords bytes i register with
  | case1 i register h ih =>
      rw [ih, wordStep_eq_foldl, ← List.foldl_append, drop_eq_cons (show i < bytes.size by omega),
        drop_eq_cons (show i + 1 < bytes.size by omega),
        drop_eq_cons (show i + 2 < bytes.size by omega), drop_eq_cons h]
      rfl
  | case2 i register h => exact runBytes_eq_foldl bytes i register

theorem run_eq_foldl (bytes : ByteArray) (register : UInt32) :
    run bytes register = bytes.data.toList.foldl addByte register := by
  unfold run
  split
  case isTrue => exact runWords_eq_foldl bytes 0 register
  case isFalse => exact runBytes_eq_foldl bytes 0 register

-- The checksum does not depend on how the bytes are cut up.
theorem update_eq_foldl (crc : Crc32) (bytes : ByteArray) :
    crc.update bytes = ⟨bytes.data.toList.foldl addByte crc.register⟩ :=
  congrArg Crc32.mk (run_eq_foldl bytes crc.register)

theorem update_empty (crc : Crc32) : crc.update ByteArray.empty = crc :=
  update_eq_foldl crc ByteArray.empty

theorem update_append (crc : Crc32) (front back : ByteArray) :
    crc.update (front ++ back) = (crc.update front).update back := by
  simp only [update_eq_foldl, ByteArray.data_append, Array.toList_append, List.foldl_append]

end Unpack.Crc32
