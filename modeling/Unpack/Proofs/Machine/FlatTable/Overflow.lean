import Unpack.Proofs.Machine.FlatTable.Build

namespace Unpack.Machine.FlatTable

open Huffman (maxLength Degenerate)
open Huffman.Table (Crosses codeSpace points excess?)

variable {lengths : List Nat}

-- The two tables are refused with the same fault.
theorem build_eq_error_iff (hcount : lengths.length ≤ 65536) (mayDegenerate : Bool) (fault : Fault) :
    build lengths mayDegenerate = .ok (.error fault) ↔
      Huffman.Table.build lengths mayDegenerate = .error fault := by
  have hbuilt := build_eq hcount mayDegenerate
  cases ht : Huffman.Table.build lengths mayDegenerate with
  | error cause =>
      rw [ht] at hbuilt
      rw [hbuilt, Except.ok.injEq, Except.error.injEq, Except.error.injEq]
  | ok t =>
      rw [ht] at hbuilt
      obtain ⟨flat, hflat, -⟩ := hbuilt
      rw [hflat]
      exact ⟨fun h => (nomatch h), fun h => (nomatch h)⟩

theorem exists_build (hcount : lengths.length ≤ 65536) (mayDegenerate : Bool) :
    ∃ answer, build lengths mayDegenerate = .ok answer := by
  have hbuilt := build_eq hcount mayDegenerate
  split at hbuilt
  · exact ⟨_, hbuilt⟩
  · obtain ⟨flat, hflat, -⟩ := hbuilt
    exact ⟨_, hflat⟩

-- With no more than 65536 symbols, only the stems take building out of the range
-- of its numbers, and they do where the codes of one more length lead the points,
-- counted in a circle of 131072, to an earlier stem. Points that fill the code
-- space less than twice stay in range, and a list that overfills it and stays in
-- range is reported as such. No entry is looked up or set outside of the table.
theorem build_overflow_iff (hcount : lengths.length ≤ 65536) (mayDegenerate : Bool) :
    (build lengths mayDegenerate = .ok (.error .overflow) ↔
      (∀ length ∈ lengths, length ≤ maxLength) ∧ Crosses lengths) ∧
    ((lengths.map points).sum < 131072 → build lengths mayDegenerate ≠ .ok (.error .overflow)) ∧
    ((∀ length ∈ lengths, length ≤ maxLength) → codeSpace < (lengths.map points).sum →
      ¬Crosses lengths → build lengths mayDegenerate =
        .ok (.error (.invalidTable (.overSubscribed (lengths.map points).sum)))) ∧
    ∀ cause, build lengths mayDegenerate ≠ .error cause := by
  have hiff : build lengths mayDegenerate = .ok (.error .overflow) ↔
      (∀ length ∈ lengths, length ≤ maxLength) ∧ Crosses lengths := by
    rw [build_eq_error_iff hcount, Huffman.Table.build_eq_overflow_iff hcount]
  refine ⟨hiff, fun hfew hoverflow => ?_, fun hshort hover hstays => ?_, fun cause htrap => ?_⟩
  · obtain ⟨hshort, hcrosses⟩ := hiff.mp hoverflow
    exact Huffman.Table.not_crosses_of_sum_lt hshort hfew hcrosses
  · have hnone : ¬(Huffman.Complete lengths ∨ mayDegenerate = true ∧ Degenerate lengths) := by
      rintro (hcomplete | ⟨-, hdegenerate⟩)
      · exact Nat.ne_of_gt hover hcomplete.2
      · exact Nat.not_lt_of_le hdegenerate.fits.2 hover
    rw [build_eq_error_iff hcount, Huffman.Table.build_of_short hcount hshort, if_neg hstays,
      if_neg hnone, Huffman.Table.imbalance, if_pos hover]
  · obtain ⟨answer, hanswer⟩ := exists_build hcount mayDegenerate
    rw [htrap] at hanswer
    cases hanswer

theorem build_overflow_three : [1, 1, 1].length ≤ 65536 ∧ ∀ mayDegenerate,
    build [1, 1, 1] mayDegenerate = .ok (.error (.invalidTable (.overSubscribed 98304))) :=
  have hcount : [1, 1, 1].length ≤ 65536 := by decide
  ⟨hcount, fun mayDegenerate =>
    (build_overflow_iff hcount mayDegenerate).2.2.1 (by decide) (by decide) (by decide)⟩

-- The codes of nine bits end with the last stem of 17 bits, and the two codes of
-- ten bits behind them are counted from the first stem on.
theorem build_overflows_across :
    let lengths := [1, 1, 1, 2, 3, 4, 5, 6, 7, 8, 9, 10, 10]
    lengths.length ≤ 320 ∧ codeSpace < (lengths.map points).sum ∧
      ∀ mayDegenerate, build lengths mayDegenerate = .ok (.error .overflow) := by
  have hcount : [1, 1, 1, 2, 3, 4, 5, 6, 7, 8, 9, 10, 10].length ≤ 65536 := by decide
  refine ⟨by decide, by decide, fun mayDegenerate => ?_⟩
  rw [build_eq_error_iff hcount, Huffman.Table.build_eq_overflow_iff hcount]
  exact ⟨by decide, by decide⟩

end Unpack.Machine.FlatTable
