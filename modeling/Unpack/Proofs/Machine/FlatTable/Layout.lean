import Mathlib.Algebra.BigOperators.Group.List.Basic
import Unpack.Machine.FlatTable
import Unpack.Proofs.Huffman.Stems
import Unpack.Proofs.Machine.Trap

namespace Unpack.Bits

open Huffman (codeBits codeBits_add)

-- The bits of a number, the most significant first, read in the other order.
theorem value_codeBits (number count : Nat) : value (codeBits number count) = reverse count number := by
  induction count generalizing number with
  | zero => rfl
  | succ count ih =>
      have hlast : value (codeBits number 1) = number % 2 := by
        rcases Nat.mod_two_eq_zero_or_one number with heven | hodd
        · simp [codeBits, value, Nat.testBit_zero, heven]
        · simp [codeBits, value, Nat.testBit_zero, hodd]
      rw [codeBits_add number count 1, value_append, ih, hlast, Huffman.length_codeBits, reverse,
        Nat.shiftLeft_eq, Nat.mul_comm, Nat.pow_one, Nat.add_comm]

theorem reverse_lt (count number : Nat) : reverse count number < 2 ^ count := by
  have hlt := value_lt (codeBits number count)
  rwa [value_codeBits, Huffman.length_codeBits] at hlt

theorem reverse_mul_two_pow (low high number : Nat) :
    reverse (low + high) (number * 2 ^ low) = reverse high number := by
  induction low with
  | zero => rw [Nat.zero_add, Nat.pow_zero, Nat.mul_one]
  | succ low ih =>
      have heven : number * 2 ^ (low + 1) = 2 * (number * 2 ^ low) := by
        rw [Nat.pow_succ']
        exact Nat.mul_left_comm number 2 _
      rw [Nat.add_right_comm, reverse, heven, Nat.mul_mod_right, Nat.zero_shiftLeft, Nat.zero_add,
        Nat.mul_div_cancel_left _ (by decide), ih]

theorem reverse_injective {count number other : Nat} (hnumber : number < 2 ^ count)
    (hother : other < 2 ^ count) (h : reverse count number = reverse count other) :
    number = other := by
  rw [← value_codeBits, ← value_codeBits] at h
  exact Huffman.codeBits_injective hnumber hother
    (value_injective (by rw [Huffman.length_codeBits, Huffman.length_codeBits]) h)

end Unpack.Bits

namespace Unpack.Machine.FlatTable

open Huffman (maxLength Fits)
open Huffman.Table (Layout rootBits Deep deepStart stemsUpTo isDegenerate pointsUpTo slotsUpTo
  CrossesAt CrossesBelow)
open Huffman.Tree (population)

variable {lengths : List Nat}

-- What goes well on its own goes well as a part.
theorem building_of_checked {α : Type} {x : Except Fault α} {a : α} (h : x = .ok a) :
    (liftM x : Building α) = .ok a := by
  rw [h]
  rfl

theorem building_of_overflow {α : Type} {x : Except Fault α} (h : x = .error .overflow) :
    (liftM x : Building α) = .error (.fault .overflow) := by
  rw [h]
  rfl

theorem building_of_trapped {α : Type} {x : Except Trap α} {a : α} (h : x = .ok a) :
    (liftM x : Building α) = .ok a := by
  rw [h]
  rfl

-- How many symbols have a code of each length.
structure Counts (lengths : List Nat) (counts : Array UInt32) : Prop where
  size : counts.size = maxLength + 1
  each : ∀ length ≤ maxLength, counts[length]? = some (UInt32.ofNat (population lengths length))

theorem counts_nil : Counts [] (Array.replicate (maxLength + 1) 0) := by
  refine ⟨Array.size_replicate, fun length hlength => ?_⟩
  have hnone : population [] length = 0 := by simp [population]
  rw [Array.getElem?_replicate, if_pos (by omega), hnone]
  rfl

theorem population_concat (seen : List Nat) (length bound : Nat) :
    population (seen ++ [length]) bound =
      population seen bound + if 0 < length ∧ length = bound then 1 else 0 := by
  induction seen with
  | nil =>
      have hnone : population [] bound = 0 := by simp [population]
      rw [List.nil_append, Huffman.population_cons, hnone, Nat.add_comm]
  | cons other seen ih =>
      rw [List.cons_append, Huffman.population_cons, ih, Huffman.population_cons, Nat.add_assoc]

theorem Counts.skip {seen : List Nat} {counts : Array UInt32} (h : Counts seen counts) :
    Counts (seen ++ [0]) counts := by
  refine ⟨h.size, fun length hlength => ?_⟩
  rw [h.each length hlength, population_concat, if_neg (by omega), Nat.add_zero]

theorem population_le_length (lengths : List Nat) (bound : Nat) :
    population lengths bound ≤ lengths.length := by
  unfold population
  split
  · exact Nat.zero_le _
  · exact List.count_le_length

theorem Counts.add {seen : List Nat} {counts : Array UInt32} (h : Counts seen counts)
    (hcount : seen.length < 65536) {length : Nat} (hpositive : 0 < length)
    (hshort : length ≤ maxLength) :
    ∃ count more counts', cell counts length = .ok count ∧ Checked.add count 1 = .ok more ∧
      put counts length more = .ok counts' ∧ Counts (seen ++ [length]) counts' := by
  have hinside : length < counts.size := by
    rw [h.size]
    omega
  have hfits : population seen length + 1 < 2 ^ 32 := by
    have := population_le_length seen length
    omega
  refine ⟨_, _, _, cell_eq (h.each length hshort), Checked.add_ofNat hfits, put_eq hinside _, ?_,
    fun other hother => ?_⟩
  · rw [Array.size_set, h.size]
  · rw [population_concat, Array.getElem?_set]
    split
    · rename_i hsame
      rw [if_pos ⟨hpositive, hsame⟩, ← hsame]
    · rename_i hdifferent
      rw [if_neg (fun h => hdifferent h.2), Nat.add_zero, h.each other hother]

-- Either a code is too long, or all are counted.
theorem tally_eq (rest : List Nat) {seen : List Nat} (hcount : seen.length + rest.length ≤ 65536)
    (symbol : Nat) {counts : Array UInt32} (longest : Nat) (h : Counts seen counts) :
    match (rest.zipIdx symbol).find? (fun entry => maxLength < entry.1) with
    | some (length, symbol') =>
        tally counts longest (rest.zipIdx symbol) =
          .error (.fault (.invalidTable (.lengthTooLong length symbol')))
    | none =>
        ∃ counts', tally counts longest (rest.zipIdx symbol) =
          .ok (counts', rest.foldl max longest) ∧ Counts (seen ++ rest) counts' := by
  induction rest generalizing seen symbol counts longest with
  | nil => exact ⟨counts, rfl, (List.append_nil seen).symm ▸ h⟩
  | cons length rest ih =>
      rw [List.length_cons] at hcount
      have hmore : (seen ++ [length]).length + rest.length ≤ 65536 := by
        rw [List.length_append, List.length_singleton]
        omega
      rw [List.zipIdx_cons]
      unfold tally
      by_cases hlong : maxLength < length
      · rw [List.find?_cons_of_pos (by simpa using hlong), if_pos hlong]
        rfl
      · rw [List.find?_cons_of_neg (by simpa using hlong), if_neg hlong, List.foldl_cons,
          List.append_cons]
        by_cases hpositive : 0 < length
        · obtain ⟨count, more, counts', hcell, hadd, hput, hcounts⟩ :=
            h.add (by omega) hpositive (Nat.le_of_not_lt hlong)
          simp only [if_pos hpositive, building_of_trapped hcell, building_of_checked hadd,
            building_of_trapped hput, bind, Except.bind]
          exact ih hmore (symbol + 1) (max longest length) hcounts
        · have hzero : length = 0 := by omega
          subst hzero
          rw [if_neg hpositive, Nat.max_eq_left (Nat.zero_le longest)]
          exact ih hmore (symbol + 1) longest h.skip

-- Where the codes of the lengths up to `count` begin, and the room they take.
structure LaidOut (lengths : List Nat) (count : Nat) (state : Array UInt32 × Layout) : Prop where
  size : state.1.size = maxLength + 1
  layout : state.2 = ⟨.ofNat (pointsUpTo lengths count), slotsUpTo lengths count⟩
  next : ∀ length < count, state.1[length + 1]? = some (.ofNat (pointsUpTo lengths length))

-- One more length, or the difference of two stems that is below zero.
theorem LaidOut.layOut (hsymbols : lengths.length ≤ 65536) {counts : Array UInt32}
    (hcounts : Counts lengths counts) {count : Nat} (hcount : count < maxLength)
    {state : Array UInt32 × Layout} (h : LaidOut lengths count state) :
    if CrossesAt lengths count then layOut counts state (count + 1) = .error (.fault .overflow)
    else ∃ state', layOut counts state (count + 1) = .ok state' ∧ LaidOut lengths (count + 1) state' := by
  obtain ⟨next, layout⟩ := state
  obtain ⟨hsize, hlayout, hnext⟩ := h
  dsimp only at hsize hlayout hnext
  have hinside : count + 1 < next.size := by omega
  have hput := building_of_trapped (put_eq hinside layout.points)
  have hcell := building_of_trapped (cell_eq (hcounts.each (count + 1) hcount))
  have hadd := Layout.add_eq hsymbols hcount
  rw [← hlayout] at hadd
  unfold FlatTable.layOut
  simp only [hput, hcell, bind, Except.bind]
  split
  · rename_i hcrosses
    rw [if_pos hcrosses] at hadd
    rw [building_of_overflow hadd]
  · rename_i hstays
    rw [if_neg hstays] at hadd
    rw [building_of_checked hadd]
    refine ⟨_, rfl, (Array.size_set hinside).trans hsize, rfl, fun length hlength => ?_⟩
    rw [Array.getElem?_set]
    split
    · rename_i hsame
      rw [← Nat.succ.inj hsame, hlayout]
    · exact hnext length (by omega)

theorem laidOut_zero (lengths : List Nat) :
    LaidOut lengths 0 (Array.replicate (maxLength + 1) 0, Layout.start) where
  size := Array.size_replicate
  layout := by
    rw [Huffman.Table.pointsUpTo_zero]
    rfl
  next := fun length hlength => absurd hlength (Nat.not_lt_zero length)

theorem layOut_foldlM (hsymbols : lengths.length ≤ 65536) {counts : Array UInt32}
    (hcounts : Counts lengths counts) {count : Nat} (hcount : count ≤ maxLength) :
    let laid := (List.range' 1 count).foldlM (layOut counts)
      (Array.replicate (maxLength + 1) 0, Layout.start)
    if CrossesBelow lengths count then laid = .error (.fault .overflow)
    else ∃ state, laid = .ok state ∧ LaidOut lengths count state := by
  induction count with
  | zero =>
      rw [if_neg (Huffman.Table.not_crossesBelow_zero lengths)]
      exact ⟨_, rfl, laidOut_zero lengths⟩
  | succ count ih =>
      have hbefore := ih (Nat.le_of_succ_le hcount)
      dsimp only at hbefore ⊢
      rw [List.range'_1_concat, List.foldlM_append]
      by_cases hcrosses : CrossesBelow lengths count
      · rw [if_pos hcrosses] at hbefore
        rw [if_pos (Huffman.Table.crossesBelow_succ.mpr (.inl hcrosses)), hbefore]
        rfl
      · rw [if_neg hcrosses] at hbefore
        obtain ⟨state, hfold, hlaidOut⟩ := hbefore
        have hnext := hlaidOut.layOut hsymbols hcounts hcount
        rw [hfold, Nat.add_comm 1 count]
        simp only [Huffman.Table.crossesBelow_succ, hcrosses, false_or, List.foldlM_cons,
          List.foldlM_nil, bind_pure]
        exact hnext

theorem sum_population {lengths : List Nat} (hshort : ∀ length ∈ lengths, length ≤ maxLength) :
    ((List.range (maxLength + 1)).map (population lengths)).sum =
      (lengths.filter (· ≠ 0)).length := by
  have hone : ∀ length count, ((List.range count).map fun bound =>
      if 0 < length ∧ length = bound then 1 else 0).sum = if 0 < length ∧ length < count then 1 else 0 := by
    intro length count
    induction count with
    | zero => simp
    | succ count ih =>
        rw [List.range_succ, List.map_append, List.sum_append, ih, List.map_singleton,
          List.sum_singleton]
        split <;> split <;> split <;> omega
  induction lengths with
  | nil => decide
  | cons length lengths ih =>
      have hle := hshort length List.mem_cons_self
      have hsplit : population (length :: lengths) = fun bound =>
          (if 0 < length ∧ length = bound then 1 else 0) + population lengths bound :=
        funext fun bound => Huffman.population_cons length lengths bound
      rw [hsplit, List.sum_map_add, hone, ih fun other hother =>
        hshort other (List.mem_cons_of_mem _ hother)]
      by_cases hzero : length = 0
      · rw [if_neg (by omega), List.filter_cons_of_neg (by simpa using hzero), Nat.zero_add]
      · rw [if_pos (by omega), List.filter_cons_of_pos (by simpa using hzero), List.length_cons,
          Nat.add_comm]

-- A sum of numbers that fits is met by no overflow on the way.
theorem checkedSum_eq (numbers : List Nat) (start : Nat) (h : start + numbers.sum < 2 ^ 32) :
    (numbers.map UInt32.ofNat).foldlM Checked.add (.ofNat start) =
      .ok (.ofNat (start + numbers.sum)) := by
  induction numbers generalizing start with
  | nil => rfl
  | cons number numbers ih =>
      rw [List.sum_cons, ← Nat.add_assoc] at h ⊢
      rw [List.map_cons, List.foldlM_cons, Checked.add_ofNat (by omega)]
      exact ih (start + number) h

theorem Counts.sum_eq {counts : Array UInt32} (h : Counts lengths counts)
    (hcount : lengths.length ≤ 65536) (hshort : ∀ length ∈ lengths, length ≤ maxLength) :
    counts.toList.foldlM Checked.add 0 = .ok (.ofNat (lengths.filter (· ≠ 0)).length) := by
  have hlist : counts.toList =
      ((List.range (maxLength + 1)).map (population lengths)).map UInt32.ofNat := by
    apply List.ext_getElem?
    intro i
    rw [Array.getElem?_toList, List.getElem?_map, List.getElem?_map]
    rcases Nat.lt_or_ge i (maxLength + 1) with hi | hi
    · rw [h.each i (Nat.le_of_lt_succ hi), List.getElem?_range hi]
      rfl
    · rw [Array.getElem?_eq_none (by rw [h.size]; exact hi),
        List.getElem?_eq_none (by rw [List.length_range]; exact hi)]
      rfl
  have hsum := sum_population hshort
  have hless := List.length_filter_le (· ≠ 0) lengths
  have hall := checkedSum_eq ((List.range (maxLength + 1)).map (population lengths)) 0 (by omega)
  rw [hsum, Nat.zero_add] at hall
  rw [hlist]
  exact hall

theorem ofNat_eq_ofNat_iff {number : Nat} (hnumber : number < 2 ^ 32) {other : Nat}
    (hother : other < 2 ^ 32) :
    UInt32.ofNat number = UInt32.ofNat other ↔ number = other := by
  rw [← UInt32.toNat_inj, UInt32.toNat_ofNat_of_lt' hnumber, UInt32.toNat_ofNat_of_lt' hother]

theorem isSingle_eq {counts : Array UInt32} (h : Counts lengths counts)
    (hcount : lengths.length ≤ Huffman.Tree.symbolModulus)
    (hshort : ∀ length ∈ lengths, length ≤ maxLength) :
    isSingle counts = .ok (isDegenerate lengths) := by
  have hused : (lengths.filter (· ≠ 0)).length < 2 ^ 32 := by
    have := List.length_filter_le (· ≠ 0) lengths
    simp only [Huffman.Tree.symbolModulus] at hcount
    omega
  have hones : population lengths 1 = (lengths.filter (· ≠ 0)).count 1 := by
    rw [Huffman.population_of_ne_zero lengths Nat.one_ne_zero, List.count_filter (by decide)]
  have hfew := List.count_le_length (l := lengths.filter (· ≠ 0)) (a := 1)
  have hnone := ofNat_eq_ofNat_iff hused (show 0 < 2 ^ 32 by decide)
  have hone := ofNat_eq_ofNat_iff hused (show 1 < 2 ^ 32 by decide)
  have hfirst := ofNat_eq_ofNat_iff (Nat.lt_of_le_of_lt hfew hused) (show 1 < 2 ^ 32 by decide)
  have hsum := building_of_checked (h.sum_eq hcount hshort)
  have hcell := building_of_trapped (cell_eq (h.each 1 (by decide)))
  unfold isSingle isDegenerate
  simp only [hsum, hcell, hones, bind, Except.bind, pure, Except.pure]
  congr 1
  rw [Bool.eq_iff_iff, decide_eq_true_iff]
  change (UInt32.ofNat _ = UInt32.ofNat 0 ∨ UInt32.ofNat _ = UInt32.ofNat 1 ∧ UInt32.ofNat _ = UInt32.ofNat 1) ↔ _
  rw [hnone, hone, hfirst]
  generalize lengths.filter (· ≠ 0) = used
  rcases used with _ | ⟨length, _ | ⟨other, rest⟩⟩ <;>
    simp [List.count_singleton]

end Unpack.Machine.FlatTable
