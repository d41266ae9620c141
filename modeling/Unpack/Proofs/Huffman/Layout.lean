import Mathlib.Data.Nat.Bitwise
import Mathlib.Order.Monotone.Basic
import Unpack.Proofs.Bits.Words
import Unpack.Proofs.Huffman.Canonical

namespace Unpack.Checked

theorem add_ofNat {x y : Nat} (h : x + y < 2 ^ 32) :
    add (.ofNat x) (.ofNat y) = .ok (.ofNat (x + y)) := by
  rw [add, if_pos, UInt32.ofNat_add]
  rwa [UInt32.toNat_ofNat_of_lt' (show x < 2 ^ 32 by omega),
    UInt32.toNat_ofNat_of_lt' (show y < 2 ^ 32 by omega)]

theorem sub_of_le {x y : UInt32} (h : y ≤ x) : sub x y = .ok (x - y) :=
  if_pos h

theorem sub_of_lt {x y : UInt32} (h : x < y) : sub x y = .error .overflow :=
  if_neg (UInt32.not_le.mpr h)

theorem sub_ofNat {x y : Nat} (h : x + y < 2 ^ 32) :
    sub (.ofNat (x + y)) (.ofNat y) = .ok (.ofNat x) := by
  rw [sub_of_le, UInt32.ofNat_add, UInt32.add_sub_cancel]
  rw [UInt32.le_iff_toNat_le, UInt32.toNat_ofNat_of_lt' h,
    UInt32.toNat_ofNat_of_lt' (show y < 2 ^ 32 by omega)]
  exact Nat.le_add_left y x

end Unpack.Checked

namespace Unpack.Huffman.Table

open Unpack.Huffman.Tree (population)

theorem points_le (length : Nat) : points length ≤ 32768 := by
  unfold points
  split
  · omega
  · rw [Nat.one_shiftLeft]
    exact Nat.pow_le_pow_right (n := 2) (by omega) (show 16 - length ≤ 15 by omega)

theorem sum_points_le (lengths : List Nat) :
    (lengths.map points).sum ≤ 32768 * lengths.length := by
  induction lengths with
  | nil => simp
  | cons length lengths ih =>
      have := points_le length
      simp only [List.map_cons, List.sum_cons, List.length_cons]
      omega

-- The points that codes up to a length take up.
def pointsUpTo (lengths : List Nat) (length : Nat) : Nat :=
  ((lengths.filter (· ≤ length)).map points).sum

theorem pointsUpTo_maxLength {lengths : List Nat} (hshort : ∀ length ∈ lengths, length ≤ maxLength) :
    pointsUpTo lengths maxLength = (lengths.map points).sum := by
  rw [pointsUpTo, List.filter_eq_self.mpr fun length hlength => decide_eq_true (hshort length hlength)]

theorem pointsUpTo_zero (lengths : List Nat) : pointsUpTo lengths 0 = 0 := by
  refine List.sum_eq_zero_iff_forall_eq_nat.mpr fun used hused => ?_
  obtain ⟨length, hlength, rfl⟩ := List.mem_map.mp hused
  have hzero : length = 0 := by simpa using (List.mem_filter.mp hlength).2
  rw [hzero, points, if_pos rfl]

theorem pointsUpTo_succ (lengths : List Nat) (length : Nat) :
    pointsUpTo lengths (length + 1) =
      pointsUpTo lengths length + population lengths (length + 1) * 2 ^ (15 - length) := by
  unfold pointsUpTo
  induction lengths with
  | nil => simp [population]
  | cons other lengths ih =>
      rw [population_cons, Nat.add_mul]
      rcases Nat.lt_trichotomy other (length + 1) with hless | rfl | hmore
      · rw [List.filter_cons_of_pos (by simpa using Nat.le_of_lt hless),
          List.filter_cons_of_pos (by simpa using Nat.le_of_lt_succ hless), if_neg (by omega),
          List.map_cons, List.map_cons, List.sum_cons, List.sum_cons, ih]
        omega
      · have hpoints : points (length + 1) = 2 ^ (15 - length) := by
          rw [points, if_neg (Nat.succ_ne_zero length), Nat.one_shiftLeft]
          congr 1
          omega
        rw [List.filter_cons_of_pos (by simp), List.filter_cons_of_neg (by simp), if_pos (by omega),
          List.map_cons, List.sum_cons, ih, hpoints]
        omega
      · rw [List.filter_cons_of_neg (by simpa using hmore),
          List.filter_cons_of_neg (by simpa using Nat.lt_of_succ_lt hmore), if_neg (by omega), ih]
        omega

theorem pointsUpTo_mono (lengths : List Nat) : Monotone (pointsUpTo lengths) :=
  monotone_nat_of_le_succ fun length => pointsUpTo_succ lengths length ▸ Nat.le_add_right _ _

theorem pointsUpTo_le (lengths : List Nat) (length : Nat) :
    pointsUpTo lengths length ≤ 32768 * lengths.length := by
  have := sum_points_le (lengths.filter (· ≤ length))
  have := List.length_filter_le (· ≤ length) lengths
  unfold pointsUpTo
  omega

theorem ofNat_shiftLeft {count shift : Nat} (hshift : shift < 32)
    (hfits : count * 2 ^ shift < 2 ^ 32) :
    UInt32.ofNat count <<< UInt32.ofNat shift = UInt32.ofNat (count * 2 ^ shift) := by
  have hcount : count < 2 ^ 32 :=
    Nat.lt_of_le_of_lt (Nat.le_mul_of_pos_right count (Nat.two_pow_pos shift)) hfits
  rw [← UInt32.toNat_inj, UInt32.toNat_shiftLeft, UInt32.toNat_ofNat_of_lt' hcount,
    Bits.toNat_ofNat_mod hshift, Nat.shiftLeft_eq, Nat.mod_eq_of_lt hfits,
    UInt32.toNat_ofNat_of_lt' hfits]

-- The stem that the points end in, as the mask shows it: ten bits, the lowest
-- of which counts 128 points.
def maskedStem (points : Nat) : Nat :=
  points % 131072 / 128

-- The codes of one more length take the points past the last stem that the mask
-- shows, to one that looks earlier than the stem before.
def CrossesAt (lengths : List Nat) (length : Nat) : Prop :=
  rootBits ≤ length ∧ maskedStem (pointsUpTo lengths (length + 1)) < maskedStem (pointsUpTo lengths length)

instance (lengths : List Nat) (length : Nat) : Decidable (CrossesAt lengths length) :=
  inferInstanceAs (Decidable (_ ∧ _))

def CrossesBelow (lengths : List Nat) (bound : Nat) : Prop :=
  ∃ length < bound, CrossesAt lengths length

instance (lengths : List Nat) (bound : Nat) : Decidable (CrossesBelow lengths bound) :=
  inferInstanceAs (Decidable (∃ length < bound, _))

theorem not_crossesBelow_zero (lengths : List Nat) : ¬CrossesBelow lengths 0 :=
  fun ⟨length, hlength, _⟩ => Nat.not_lt_zero length hlength

theorem crossesBelow_succ {lengths : List Nat} {bound : Nat} :
    CrossesBelow lengths (bound + 1) ↔ CrossesBelow lengths bound ∨ CrossesAt lengths bound :=
  Nat.exists_lt_succ_right

def Crosses (lengths : List Nat) : Prop :=
  CrossesBelow lengths maxLength

instance (lengths : List Nat) : Decidable (Crosses lengths) :=
  inferInstanceAs (Decidable (CrossesBelow lengths maxLength))

-- Less than twice the code space is less than the mask shows.
theorem not_crosses_of_sum_lt {lengths : List Nat} (hshort : ∀ length ∈ lengths, length ≤ maxLength)
    (hfew : (lengths.map points).sum < 131072) : ¬Crosses lengths := by
  rintro ⟨length, hlength, -, hless⟩
  have hmore := pointsUpTo_mono lengths (Nat.le_add_right length 1)
  have hall := pointsUpTo_mono lengths (show length + 1 ≤ maxLength from hlength)
  rw [pointsUpTo_maxLength hshort] at hall
  unfold maskedStem at hless
  omega

theorem not_crosses_of_fits {lengths : List Nat} (h : Fits lengths) : ¬Crosses lengths :=
  not_crosses_of_sum_lt h.1 (Nat.lt_of_le_of_lt h.2 (by decide))

-- Codes that the root resolves end no stem.
theorem not_crosses_of_le_rootBits {lengths : List Nat}
    (hshort : ∀ length ∈ lengths, length ≤ rootBits) : ¬Crosses lengths := by
  rintro ⟨length, -, hlong, hless⟩
  have hsame : pointsUpTo lengths (length + 1) = pointsUpTo lengths length := by
    have hall : ∀ bound, rootBits ≤ bound → lengths.filter (· ≤ bound) = lengths :=
      fun bound hbound => List.filter_eq_self.mpr fun other hother =>
        decide_eq_true (Nat.le_trans (hshort other hother) hbound)
    rw [pointsUpTo, pointsUpTo, hall length hlong, hall (length + 1) (Nat.le_succ_of_le hlong)]
  exact absurd (hsame ▸ hless) (Nat.lt_irrefl _)

-- Why lengths that are short enough make no code.
def imbalance (lengths : List Nat) : TableFlaw :=
  let used := (lengths.map points).sum
  if codeSpace < used then .overSubscribed used else .incomplete used

-- The slots that the codes up to a length need.
def slotsUpTo (lengths : List Nat) : (length : Nat) → Nat
  | 0 => 512
  | length + 1 =>
      slotsUpTo lengths length +
        if rootBits ≤ length then
          (maskedStem (pointsUpTo lengths (length + 1)) - maskedStem (pointsUpTo lengths length)) *
            2 ^ (length + 1 - rootBits)
        else 0

namespace Layout

theorem toNat_stem (points : UInt32) : (stem points).toNat = maskedStem points.toNat * 128 := by
  have hmask : (0x1FF80 : Nat) = (2 ^ 10 - 1) <<< 7 := rfl
  rw [stem, UInt32.toNat_and]
  show points.toNat &&& 0x1FF80 = points.toNat % 2 ^ 17 / 2 ^ 7 * 2 ^ 7
  rw [hmask, ← Nat.shiftLeft_eq]
  apply Nat.eq_of_testBit_eq
  intro i
  simp only [Nat.testBit_and, Nat.testBit_shiftLeft, Nat.testBit_two_pow_sub_one,
    Nat.testBit_div_two_pow, Nat.testBit_mod_two_pow]
  by_cases hlow : 7 ≤ i
  · rw [Nat.sub_add_cancel hlow]
    by_cases hhigh : i < 17
    · simp [hlow, hhigh, show i - 7 < 10 by omega]
    · simp [hlow, hhigh, show ¬i - 7 < 10 by omega]
  · simp [hlow]

variable {lengths : List Nat} (hcount : lengths.length ≤ 65536)

include hcount

theorem pointsUpTo_lt (length : Nat) : pointsUpTo lengths length < 2 ^ 32 := by
  have := pointsUpTo_le lengths length
  omega

theorem toNat_stem_pointsUpTo (length : Nat) :
    (stem (.ofNat (pointsUpTo lengths length))).toNat = maskedStem (pointsUpTo lengths length) * 128 := by
  rw [toNat_stem, UInt32.toNat_ofNat_of_lt' (pointsUpTo_lt hcount length)]

-- With no more than 65536 symbols the sums stay within 32 bits.
theorem checkedAdd_points (length : Nat) :
    Checked.add (.ofNat (pointsUpTo lengths length))
        (UInt32.ofNat (population lengths (length + 1)) <<< UInt32.ofNat (15 - length)) =
      .ok (.ofNat (pointsUpTo lengths (length + 1))) := by
  have hbound := pointsUpTo_lt hcount (length + 1)
  rw [pointsUpTo_succ] at hbound ⊢
  rw [ofNat_shiftLeft (by omega) (by omega)]
  exact Checked.add_ofNat hbound

theorem checkedSub_points (length : Nat) :
    Checked.sub (.ofNat (pointsUpTo lengths (length + 1)))
        (UInt32.ofNat (population lengths (length + 1)) <<< UInt32.ofNat (15 - length)) =
      .ok (.ofNat (pointsUpTo lengths length)) := by
  have hbound := pointsUpTo_lt hcount (length + 1)
  rw [pointsUpTo_succ] at hbound ⊢
  rw [ofNat_shiftLeft (by omega) (by omega)]
  exact Checked.sub_ofNat hbound

-- The differences do not: that of two stems is below zero where the points cross.
theorem add_eq {length : Nat} (hshort : length < maxLength) :
    add ⟨.ofNat (pointsUpTo lengths length), slotsUpTo lengths length⟩ (length + 1)
        (.ofNat (population lengths (length + 1))) =
      if CrossesAt lengths length then .error .overflow
      else .ok ⟨.ofNat (pointsUpTo lengths (length + 1)), slotsUpTo lengths (length + 1)⟩ := by
  have hpoints := checkedAdd_points hcount length
  have hthis := toNat_stem_pointsUpTo hcount length
  have hnext := toNat_stem_pointsUpTo hcount (length + 1)
  simp only [add, Nat.succ_sub_succ, hpoints, bind, Except.bind]
  by_cases hlong : rootBits ≤ length
  · rw [if_pos (Nat.lt_succ_of_le hlong)]
    by_cases hcrosses : CrossesAt lengths length
    · rw [if_pos hcrosses, Checked.sub_of_lt]
      rw [UInt32.lt_iff_toNat_lt, hthis, hnext]
      exact Nat.mul_lt_mul_of_pos_right hcrosses.2 (by decide)
    · have hle : maskedStem (pointsUpTo lengths length) ≤ maskedStem (pointsUpTo lengths (length + 1)) :=
        Nat.le_of_not_lt fun hless => hcrosses ⟨hlong, hless⟩
      have hstems : stem (.ofNat (pointsUpTo lengths length)) ≤
          stem (.ofNat (pointsUpTo lengths (length + 1))) := by
        rw [UInt32.le_iff_toNat_le, hthis, hnext]
        exact Nat.mul_le_mul_right _ hle
      have hpow : 128 = 2 ^ (length + 1 - rootBits) * 2 ^ (15 - length) := by
        simp only [rootBits, maxLength] at *
        rw [← Nat.pow_add, show length + 1 - 9 + (15 - length) = 7 by omega]
      rw [if_neg hcrosses, Checked.sub_of_le hstems, slotsUpTo, if_pos hlong]
      simp only [pure, Except.pure]
      rw [Bits.toNat_shiftRight _ (show 15 - length < 32 by omega), UInt32.toNat_sub_of_le _ _ hstems,
        hthis, hnext, ← Nat.sub_mul, hpow, ← Nat.mul_assoc, Nat.mul_div_cancel _ (Nat.two_pow_pos _)]
  · have hstays : ¬CrossesAt lengths length := fun h => hlong h.1
    rw [if_neg (fun h => hlong (Nat.le_of_lt_succ h)), if_neg hstays, slotsUpTo, if_neg hlong]
    rfl

theorem upTo_eq {length : Nat} (hshort : length ≤ maxLength) :
    upTo lengths length =
      if CrossesBelow lengths length then .error .overflow
      else .ok ⟨.ofNat (pointsUpTo lengths length), slotsUpTo lengths length⟩ := by
  induction length with
  | zero =>
      rw [if_neg (not_crossesBelow_zero lengths), pointsUpTo_zero]
      rfl
  | succ length ih =>
      rw [upTo, ih (Nat.le_of_succ_le hshort)]
      by_cases hbefore : CrossesBelow lengths length
      · rw [if_pos hbefore, if_pos (crossesBelow_succ.mpr (.inl hbefore))]
        rfl
      · rw [if_neg hbefore]
        refine (add_eq hcount hshort).trans ?_
        simp only [crossesBelow_succ, hbefore, false_or]

end Layout

-- The points are counted up, unless one of the differences is below zero.
theorem usedPoints_eq {lengths : List Nat} (hcount : lengths.length ≤ 65536) :
    usedPoints lengths =
      if Crosses lengths then .error .overflow else .ok (pointsUpTo lengths maxLength) := by
  rw [usedPoints, Layout.upTo_eq hcount (Nat.le_refl _)]
  by_cases hcrosses : Crosses lengths
  · rw [if_pos hcrosses, if_pos (show CrossesBelow lengths maxLength from hcrosses)]
    rfl
  · rw [if_neg hcrosses, if_neg (show ¬CrossesBelow lengths maxLength from hcrosses)]
    exact congrArg Except.ok (UInt32.toNat_ofNat_of_lt' (Layout.pointsUpTo_lt hcount maxLength))

end Unpack.Huffman.Table
