import Unpack.Proofs.Machine.FlatTable.Layout

namespace Unpack.Machine.FlatTable

open Bits (reverse)
open Huffman (maxLength Fits)
open Huffman.Table (Layout rootBits Deep deepStart stemsUpTo pointsUpTo slotsUpTo)
open Huffman.Tree (population)

variable {lengths : List Nat}

-- Stems in a row get room one after the other, and nothing else changes.
theorem pointStems_eq {entries : Array Int} (hsize : 512 ≤ entries.size) (free width : Nat)
    {stem count : Nat} (hstems : stem + count ≤ 512) :
    ∃ entries', pointStems entries free width (stem * 128) count =
        .ok (entries', free + count * 2 ^ (width - rootBits)) ∧
      entries'.size = entries.size ∧
      (∀ i < count, entries'[reverse rootBits (stem + i)]? =
        some (startEntry (free + i * 2 ^ (width - rootBits)) width)) ∧
      ∀ place, (∀ i < count, place ≠ reverse rootBits (stem + i)) →
        entries'[place]? = entries[place]? := by
  induction count generalizing entries free stem with
  | zero =>
      refine ⟨entries, ?_, rfl, fun i hi => absurd hi (Nat.not_lt_zero i), fun place _ => rfl⟩
      rw [pointStems, Nat.zero_mul, Nat.add_zero]
  | succ count ih =>
      obtain ⟨room, hroom⟩ : ∃ room, 2 ^ (width - rootBits) = room := ⟨_, rfl⟩
      rw [hroom]
      have hplace : reverse 16 (stem * 128) = reverse rootBits stem :=
        Bits.reverse_mul_two_pow 7 9 stem
      have hlt : reverse rootBits stem < 512 := Bits.reverse_lt rootBits stem
      have hinside : reverse rootBits stem < entries.size := by omega
      have hapart : ∀ i < count, reverse rootBits stem ≠ reverse rootBits (stem + 1 + i) := by
        intro i hi hsame
        have := Bits.reverse_injective (show stem < 512 by omega)
          (show stem + 1 + i < 512 by omega) hsame
        omega
      have hset : ∀ place, (entries.set (reverse rootBits stem) (startEntry free width) hinside)[place]? =
          if reverse rootBits stem = place then some (startEntry free width) else entries[place]? :=
        fun place => Array.getElem?_set hinside
      obtain ⟨entries', hpoint, hsize', hpointed, hkept⟩ :=
        ih (show 512 ≤ (entries.set _ (startEntry free width) hinside).size by
          rw [Array.size_set]; exact hsize) (free + room) (show stem + 1 + count ≤ 512 by omega)
      rw [hroom] at hpoint hpointed
      refine ⟨entries', ?_, by rw [hsize', Array.size_set], fun i hi => ?_, fun place hplaces => ?_⟩
      · have hfree : free + room + count * room = free + (count + 1) * room := by
          rw [Nat.succ_mul]
          omega
        rw [pointStems, Nat.one_shiftLeft, hplace, put_eq hinside, hroom, ← Nat.succ_mul, ← hfree]
        exact hpoint
      · cases i with
        | zero =>
            rw [Nat.add_zero, Nat.zero_mul, Nat.add_zero, hkept _ hapart, hset, if_pos rfl]
        | succ i =>
            have hlater := hpointed i (by omega)
            rw [Nat.add_right_comm, Nat.add_assoc stem i 1] at hlater
            rw [hlater, Nat.succ_mul, Nat.add_assoc, Nat.add_comm room]
      · have hfirst : place ≠ reverse rootBits stem := hplaces 0 (Nat.succ_pos count)
        have hothers : ∀ i < count, place ≠ reverse rootBits (stem + 1 + i) := fun i hi => by
          rw [Nat.add_right_comm]
          exact hplaces (i + 1) (Nat.succ_lt_succ hi)
        rw [hkept place hothers, hset, if_neg hfirst.symm]

-- The stems of codes with more than `level` bits have their pointers.
structure Pointed (lengths : List Nat) (level : Nat) (state : Array Int × Nat × UInt32) : Prop where
  size : state.1.size = slotsUpTo lengths maxLength
  free : state.2.1 + slotsUpTo lengths level = 512 + slotsUpTo lengths maxLength
  points : state.2.2 = .ofNat (pointsUpTo lengths level)
  pointer : ∀ width stem, level < width → Deep lengths width stem →
    state.1[reverse rootBits stem]? = some (startEntry (deepStart lengths width stem) width)
  others : ∀ place < state.1.size,
    (∀ width stem, level < width → Deep lengths width stem → place ≠ reverse rootBits stem) →
      state.1[place]? = some 0

theorem pointed_maxLength (lengths : List Nat) :
    Pointed lengths maxLength
      (Array.replicate (slotsUpTo lengths maxLength) 0, 512, .ofNat (pointsUpTo lengths maxLength))
    where
  size := Array.size_replicate
  free := rfl
  points := rfl
  pointer := fun _ _ hlong hdeep => absurd hdeep.short (Nat.not_le_of_lt hlong)
  others := fun place hplace _ => by
    rw [Array.size_replicate] at hplace
    rw [Array.getElem?_replicate, if_pos hplace]

section Fitting

variable (hcount : lengths.length ≤ Huffman.Tree.symbolModulus) (hfits : Fits lengths)
  {counts : Array UInt32} (hcounts : Counts lengths counts)

include hcount hfits hcounts

theorem Pointed.pointLevel {level : Nat} (hlong : rootBits ≤ level) (hshort : level < maxLength)
    {state : Array Int × Nat × UInt32} (h : Pointed lengths (level + 1) state) :
    ∃ state', pointLevel counts state (level + 1) = .ok state' ∧ Pointed lengths level state' := by
  obtain ⟨entries, free, points⟩ := state
  obtain ⟨hsize, hfree, hpoints, hpointer, hothers⟩ := h
  dsimp only at hsize hfree hpoints hpointer hothers
  subst hpoints
  have hmono : stemsUpTo lengths level ≤ stemsUpTo lengths (level + 1) :=
    Huffman.Table.stemsUpTo_mono lengths (Nat.le_succ level)
  have hle := Huffman.Table.stemsUpTo_le hfits (level + 1)
  have hcell := building_of_trapped (cell_eq (hcounts.each (level + 1) hshort))
  have hbefore := building_of_checked (Layout.checkedSub_points hcount level)
  have hstop := Layout.toNat_stem_pointsUpTo hcount (level + 1)
  have hstart := Layout.toNat_stem_pointsUpTo hcount level
  rw [Huffman.Table.maskedStem_pointsUpTo hfits] at hstop hstart
  obtain ⟨start, hstems⟩ : ∃ start, stemsUpTo lengths level = start := ⟨_, rfl⟩
  obtain ⟨count, hmore⟩ : ∃ count, stemsUpTo lengths (level + 1) = start + count :=
    ⟨stemsUpTo lengths (level + 1) - start, by omega⟩
  have hstems' : (stemsUpTo lengths (level + 1) * 128 - start * 128 + 127) / 128 = count := by
    omega
  have hroom : 512 ≤ entries.size := by
    rw [hsize]
    exact Huffman.Table.root_le_slotsUpTo lengths maxLength
  have hslots := Huffman.Table.slotsUpTo_succ hfits hlong
  rw [hmore, hstems, Nat.add_sub_cancel_left] at hslots
  obtain ⟨entries', hpoint, hsize', hpointed, hkept⟩ :=
    pointStems_eq hroom free (level + 1) (show start + count ≤ 512 by omega)
  -- The stems of this level are those that codes of one more bit end.
  have hdeep : ∀ i < count, Deep lengths (level + 1) (start + i) := fun i hi =>
    ⟨Nat.lt_succ_of_le hlong, hshort, by rw [Nat.add_sub_cancel, hstems]; omega, by omega⟩
  refine ⟨(entries', free + count * 2 ^ (level + 1 - rootBits),
    .ofNat (pointsUpTo lengths level)), ?_, ?_⟩
  · unfold FlatTable.pointLevel
    simp only [hcell, Nat.succ_sub_succ, hbefore, hstop, hstart, hstems, hstems',
      building_of_trapped hpoint, bind, Except.bind, pure, Except.pure]
  · refine ⟨hsize'.trans hsize, ?_, rfl, fun width stem hwidth hstem => ?_, fun place hplace hnone => ?_⟩
    · dsimp only
      omega
    · dsimp only
      rcases Nat.lt_or_ge (level + 1) width with hwide | hnarrow
      · rw [hkept _ fun i hi hsame => ?_, hpointer width stem hwide hstem]
        have hstem' := Bits.reverse_injective (hstem.stem_lt hfits) ((hdeep i hi).stem_lt hfits) hsame
        have := hstem.width_unique (hstem' ▸ hdeep i hi)
        omega
      · have hsame : width = level + 1 := by omega
        subst hsame
        have hafter := hstem.after
        have hlast := hstem.before
        rw [Nat.add_sub_cancel, hstems] at hafter
        have hplace := hpointed (stem - start) (by omega)
        rw [Nat.add_sub_cancel' hafter] at hplace
        rw [hplace, deepStart, Nat.add_sub_cancel, hstems]
        congr 3
        omega
    · dsimp only at hplace ⊢
      rw [hkept place fun i hi => hnone (level + 1) _ (Nat.lt_succ_self level) (hdeep i hi)]
      exact hothers place (hsize' ▸ hplace) fun width stem hwidth =>
        hnone width stem (Nat.lt_of_succ_lt hwidth)

theorem pointLevel_foldlM :
    ∃ state, (List.range' (rootBits + 1) (maxLength - rootBits)).reverse.foldlM (pointLevel counts)
        (Array.replicate (slotsUpTo lengths maxLength) 0, 512,
          .ofNat (pointsUpTo lengths maxLength)) = .ok state ∧
      Pointed lengths rootBits state := by
  have hfold := exists_foldlM (pointLevel counts)
    (List.range' (rootBits + 1) (maxLength - rootBits)).reverse
    (Array.replicate (slotsUpTo lengths maxLength) 0, 512, .ofNat (pointsUpTo lengths maxLength))
    (fun i => Pointed lengths (maxLength - i)) (pointed_maxLength lengths)
    fun i hi state h => by
      have hitem : (List.range' (rootBits + 1) (maxLength - rootBits)).reverse[i] =
          maxLength - (i + 1) + 1 := by
        rw [List.length_reverse, List.length_range'] at hi
        rw [List.getElem_reverse, List.getElem_range', List.length_range']
        simp only [rootBits, maxLength] at *
        omega
      rw [List.length_reverse, List.length_range'] at hi
      have hlevel : maxLength - i = maxLength - (i + 1) + 1 := by omega
      rw [hlevel] at h
      rw [hitem]
      simp only [rootBits, maxLength] at hi h ⊢
      exact h.pointLevel hcount hfits hcounts (show 9 ≤ _ by omega) (show _ < 15 by omega)
  rwa [List.length_reverse, List.length_range'] at hfold

end Fitting

end Unpack.Machine.FlatTable
