import Mathlib.Data.List.Induction
import Mathlib.Tactic.ByContra
import Unpack.Proofs.Checksum.Adler32

namespace Unpack.Adler32

-- The update with every addition checked: none when a sum does not fit.
def checkedAdd (x y : UInt32) : Option UInt32 :=
  if x.toNat + y.toNat < 2 ^ 32 then some (x + y) else none

def checkedSum (bytes : ByteArray) (stop i : Nat) (low high : UInt32) : Option Adler32 :=
  if h : i < bytes.size then
    if i < stop then do
      let low ← checkedAdd low bytes[i].toUInt32
      let high ← checkedAdd high low
      checkedSum bytes stop (i + 1) low high
    else
      some ⟨low, high⟩
  else
    some ⟨low, high⟩
termination_by stop - i

def checkedRun (bytes : ByteArray) (i : Nat) (adler : Adler32) : Option Adler32 :=
  if i < bytes.size then do
    let sums ← checkedSum bytes (i + stretch) i adler.low adler.high
    checkedRun bytes (i + stretch) sums.reduce
  else
    some adler
termination_by bytes.size - i
decreasing_by simp only [stretch]; omega

def checkedUpdate (adler : Adler32) (bytes : ByteArray) : Option Adler32 :=
  checkedRun bytes 0 adler

theorem checkedAdd_eq {x y : UInt32} {sum : Nat} (hsum : (x + y).toNat = sum)
    (hexact : sum = x.toNat + y.toNat) : checkedAdd x y = some (x + y) := by
  have hlt := (x + y).toNat_lt
  exact if_pos (by omega)

-- A stretch has room for its bytes, and after each byte for one byte less.
theorem checkedSum_eq (bytes : ByteArray) (stop i : Nat) (low high : UInt32)
    (h : Holds low high (stop - i)) :
    checkedSum bytes stop i low high = some (sum bytes stop i low high) := by
  fun_induction sum bytes stop i low high with
  | case1 i low high hinside low' ih =>
      have hleft : stop - i = stop - (i + 1) + 1 := by omega
      rw [hleft] at h
      obtain ⟨hlow, hhigh, hnext⟩ := h.next bytes[i]
      have hfirst := checkedAdd_eq hlow (by rw [UInt8.toNat_toUInt32])
      have hsecond := checkedAdd_eq hhigh (by rw [hlow])
      rw [checkedSum, dif_pos hinside.2, if_pos hinside.1, hfirst, Option.bind_eq_bind, Option.bind_some, hsecond,
        Option.bind_some]
      exact ih hnext
  | case2 i low high hdone =>
      rw [checkedSum]
      split
      case isTrue hinside => exact if_neg fun hless => hdone ⟨hless, hinside⟩
      case isFalse => rfl

theorem checkedRun_eq (bytes : ByteArray) (i : Nat) {adler : Adler32} (h : Reduced adler) :
    checkedRun bytes i adler = some (run bytes i adler) := by
  fun_induction run bytes i adler with
  | case1 i adler hmore ih =>
      have hsum := checkedSum_eq bytes (i + stretch) i adler.low adler.high (by
        rw [Nat.add_sub_cancel_left]
        exact holds_stretch h)
      rw [checkedRun, if_pos hmore, hsum, Option.bind_eq_bind, Option.bind_some]
      exact ih (reduced_reduce _)
  | case2 i adler hdone => rw [checkedRun, if_neg hdone]

theorem checkedUpdate_eq {adler : Adler32} (h : Reduced adler) (bytes : ByteArray) :
    checkedUpdate adler bytes = some (adler.update bytes) :=
  checkedRun_eq bytes 0 h

-- One more than the sum of the bytes.
def lowSum (bytes : List UInt8) : Nat :=
  1 + (bytes.map UInt8.toNat).sum

-- The sum of what `lowSum` is after each of the bytes.
def highSum (bytes : List UInt8) : Nat :=
  ((List.range bytes.length).map fun i => lowSum (bytes.take (i + 1))).sum

theorem lowSum_concat (bytes : List UInt8) (byte : UInt8) :
    lowSum (bytes ++ [byte]) = lowSum bytes + byte.toNat := by
  simp only [lowSum, List.map_append, List.sum_append, List.map_singleton, List.sum_singleton]
  omega

theorem highSum_concat (bytes : List UInt8) (byte : UInt8) :
    highSum (bytes ++ [byte]) = highSum bytes + lowSum (bytes ++ [byte]) := by
  have hbefore : ∀ i ∈ List.range bytes.length,
      lowSum ((bytes ++ [byte]).take (i + 1)) = lowSum (bytes.take (i + 1)) := by
    intro i hi
    rw [List.mem_range] at hi
    rw [List.take_append_of_le_length (by omega)]
  have hall : (bytes ++ [byte]).take (bytes.length + 1) = bytes ++ [byte] :=
    List.take_of_length_le (by simp)
  rw [highSum, List.length_append, List.length_singleton, List.range_succ, List.map_append,
    List.sum_append, List.map_congr_left hbefore, List.map_singleton, List.sum_singleton, hall]
  rfl

-- Taking the remainder at every byte leaves the remainders of the whole sums.
theorem foldl_addByte_eq_residues (bytes : List UInt8) :
    bytes.foldl addByte empty = residues (lowSum bytes) (highSum bytes) := by
  induction bytes using List.reverseRecOn with
  | nil => rfl
  | append_singleton bytes byte ih =>
      rw [List.foldl_append, ih, List.foldl_cons, List.foldl_nil, addByte_residues, highSum_concat,
        lowSum_concat]

-- The pieces leave the sums where all their bytes in one piece leave them,
-- and no addition on the way there overflows.
theorem foldl_update {adler : Adler32} (h : Reduced adler) (pieces : List ByteArray) :
    pieces.foldlM checkedUpdate adler = some (pieces.foldl update adler) ∧
      pieces.foldl update adler =
        (pieces.flatMap fun piece => piece.data.toList).foldl addByte adler := by
  induction pieces generalizing adler with
  | nil => exact ⟨rfl, rfl⟩
  | cons piece pieces ih =>
      have hnext : Reduced (adler.update piece) := by
        rw [update_eq_foldl h]
        exact reduced_foldl h _
      obtain ⟨hchecked, hbytes⟩ := ih hnext
      constructor
      · rw [List.foldlM_cons, checkedUpdate_eq h, Option.bind_eq_bind, Option.bind_some,
          List.foldl_cons]
        exact hchecked
      · rw [List.foldl_cons, hbytes, update_eq_foldl h, List.flatMap_cons, List.foldl_append]

-- However the bytes are cut into pieces, every addition is exact, both sums
-- are left reduced, and the checksum is made of the two whole sums.
theorem foldl_update_exact (pieces : List ByteArray) :
    let bytes := pieces.flatMap fun piece => piece.data.toList
    let adler := pieces.foldl update empty
    pieces.foldlM checkedUpdate empty = some adler ∧
      adler.low < modulus ∧ adler.high < modulus ∧
      adler.value =
        (UInt32.ofNat (highSum bytes % 65521) <<< 16) ||| UInt32.ofNat (lowSum bytes % 65521) := by
  intro bytes adler
  obtain ⟨hchecked, hbytes⟩ := foldl_update reduced_empty pieces
  have hreduced : Reduced adler := by
    have hfolded := reduced_foldl reduced_empty bytes
    rwa [← hbytes] at hfolded
  have hsums : adler = residues (lowSum bytes) (highSum bytes) :=
    hbytes.trans (foldl_addByte_eq_residues bytes)
  refine ⟨hchecked, hreduced.1, hreduced.2, ?_⟩
  rw [value, hsums]
  rfl

end Unpack.Adler32
