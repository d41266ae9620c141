import Unpack.Proofs.Deflate.Announcement

namespace Unpack.Deflate.CodeLengths

open Bits (Reader)
open Huffman (Table maxLength)
open Reference

-- A table whose faults are passed on as they are.
theorem build_eq_checked (lengths : List Nat) (hcount : lengths.length ≤ Huffman.Tree.symbolModulus)
    (hshort : ∀ length ∈ lengths, length ≤ maxLength) (lenient : Bool) :
    (∃ t code, Table.build lengths lenient = .ok t ∧ t.Decodes code.lengths ∧
      checked lengths lenient id = pure code) ∨
    (∃ fault, Table.build lengths lenient = .error fault ∧ checked lengths lenient id = fail fault) := by
  rcases build_cases lengths hcount hshort lenient id with
    ⟨t, code, hbuild, -, hdecodes, hchecked⟩ | ⟨hbuild, -, hchecked⟩ | ⟨flaw, hbuild, hchecked⟩
  · exact Or.inl ⟨t, code, hbuild, hdecodes, hchecked⟩
  · exact Or.inr ⟨_, hbuild, hchecked⟩
  · exact Or.inr ⟨_, hbuild, hchecked⟩

-- Both tables of a block follow from the lengths that it announced.
theorem codes_cases {c : CodeLengths} (hc : c.Bounded) (hstage : c.stage = .complete)
    (hsize : c.lengths.size = c.total) :
    (∃ codes literal distance, c.codes = .ok codes ∧ codes.literal.Decodes literal.lengths ∧
      codes.distance.Decodes distance.lengths ∧
      checkedPair c.literals c.lengths.toList = pure (literal, distance)) ∨
    (∃ fault, c.codes = .error fault ∧ checkedPair c.literals c.lengths.toList = fail fault) := by
  have hannounced : c.announced = c.lengths.toList := by
    simp [announced, hstage, hsize]
  have hlength : c.lengths.toList.length ≤ 320 := by
    have := hc.literals
    have := hc.distances
    simp only [Array.length_toList, hsize, total]
    omega
  have hliterals : c.literalLengths = c.lengths.toList.take c.literals := by
    rw [literalLengths, hannounced]
  have hdistances : c.distanceLengths = c.lengths.toList.drop c.literals := by
    rw [distanceLengths, hannounced]
  have htake := build_eq_checked c.literalLengths
    (by rw [hliterals, List.length_take, Huffman.Tree.symbolModulus]; omega)
    (fun length hmem => hc.lengths length (List.mem_of_mem_take (hliterals ▸ hmem))) false
  have hdrop := build_eq_checked c.distanceLengths
    (by rw [hdistances, List.length_drop, Huffman.Tree.symbolModulus]; omega)
    (fun length hmem => hc.lengths length (List.mem_of_mem_drop (hdistances ▸ hmem))) true
  rw [checkedPair, codes, literalTable, distanceTable, ← hliterals, ← hdistances]
  split
  · exact Or.inr ⟨_, rfl, rfl⟩
  · simp only [Table.ofLengths, Table.ofDistanceLengths]
    rcases htake with ⟨t, literal, hbuild, hdecodes, hchecked⟩ | ⟨fault, hbuild, hchecked⟩
    · rw [hbuild, hchecked]
      rcases hdrop with ⟨u, distance, hbuild', hdecodes', hchecked'⟩ |
        ⟨fault, hbuild', hchecked'⟩
      · refine Or.inl ⟨⟨t, u⟩, literal, distance, ?_, hdecodes, hdecodes', ?_⟩
        · rw [hbuild']
          rfl
        · rw [hchecked', pure_bind, pure_bind]
      · refine Or.inr ⟨fault, ?_, ?_⟩
        · rw [hbuild']
          rfl
        · rw [hchecked', pure_bind]
          rfl
    · refine Or.inr ⟨fault, ?_, ?_⟩
      · rw [hbuild]
        rfl
      · rw [hchecked]
        rfl

-- What is left to do where the header stopped.
inductive Awaits : CodeLengths → Decoding (Code × Code) → Prop where
  | literalCount (c : CodeLengths) (hstage : c.stage = .literalCount) : Awaits c dynamicCodes
  | distanceCount (c : CodeLengths) (hstage : c.stage = .distanceCount)
      (hliterals : c.literals ≤ 288) : Awaits c (codesFromDistanceCount c.literals)
  | orderCount (c : CodeLengths) (hstage : c.stage = .orderCount) (hliterals : c.literals ≤ 288)
      (hdistances : c.distances ≤ 32) : Awaits c (codesFromOrderCount c.literals c.distances)
  | order (c : CodeLengths) (count : Nat) (seen : Array Nat) (hstage : c.stage = .order count seen)
      (hliterals : c.literals ≤ 288) (hdistances : c.distances ≤ 32)
      (hseen : ∀ length ∈ seen.toList, length < 8) :
      Awaits c (codesFromOrder c.literals c.distances (count - seen.size) seen.toList)
  | lengths (c : CodeLengths) (t : Table) (code : Code) (hstage : c.stage = .lengths t)
      (hc : c.Bounded) (hdecodes : t.Decodes code.lengths) :
      Awaits c (codesFromLengths code c.literals c.total c.lengths.toList)
  | repeating (c : CodeLengths) (t : Table) (code : Code) (symbol : Nat)
      (hstage : c.stage = .repeating t symbol) (hc : c.Bounded) (hdecodes : t.Decodes code.lengths)
      (hsymbol : 16 ≤ symbol) :
      Awaits c (run c.total symbol c.lengths.toList >>= codesFromLengths code c.literals c.total)

-- What the reading of a header comes to.
inductive Parses (q : Decoding (Code × Code)) (r : Reader) :
    Except Fault Bool × CodeLengths × Reader → Prop where
  | failed (fault : Fault) (c : CodeLengths) (next : Reader)
      (hleads : LeadsAt q r (fail fault) next) : Parses q r (.error fault, c, next)
  | suspended (c : CodeLengths) (next : Reader) (q' : Decoding (Code × Code)) (hawaits : Awaits c q')
      (hbits : next.bits.length ≤ r.bits.length) (hleads : LeadsAt q r q' next)
      (hstarves : StarvesAt q' next) : Parses q r (.ok false, c, next)
  | complete (c : CodeLengths) (next : Reader) (hc : c.Bounded) (hstage : c.stage = .complete)
      (hsize : c.lengths.size = c.total) (hbits : next.bits.length ≤ r.bits.length)
      (hleads : LeadsAt q r (checkedPair c.literals c.lengths.toList) next) :
      Parses q r (.ok true, c, next)

theorem Pending.awaits {c : CodeLengths} {p : Decoding Announcement} (h : Pending c p) :
    Awaits c (p >>= Announcement.codes) := by
  cases h with
  | literalCount hstage =>
      rw [← dynamicCodes_eq]
      exact .literalCount c hstage
  | distanceCount hstage hliterals =>
      rw [← codesFromDistanceCount_eq]
      exact .distanceCount c hstage hliterals
  | orderCount hstage hliterals hdistances =>
      rw [← codesFromOrderCount_eq]
      exact .orderCount c hstage hliterals hdistances
  | order count seen hstage hliterals hdistances hseen =>
      rw [← codesFromOrder_eq]
      exact .order c count seen hstage hliterals hdistances hseen
  | lengths t code hstage hc hdecodes =>
      rw [← codesFromLengths_eq]
      exact .lengths c t code hstage hc hdecodes
  | repeating t code symbol hstage hc hdecodes hsymbol =>
      simp only [bind_assoc, ← codesFromLengths_eq]
      exact .repeating c t code symbol hstage hc hdecodes hsymbol

theorem Awaits.pending {c : CodeLengths} {q : Decoding (Code × Code)} (h : Awaits c q) :
    ∃ p, Pending c p ∧ p >>= Announcement.codes = q := by
  cases h with
  | literalCount hstage => exact ⟨_, .literalCount c hstage, dynamicCodes_eq.symm⟩
  | distanceCount hstage hliterals =>
      exact ⟨_, .distanceCount c hstage hliterals, (codesFromDistanceCount_eq _).symm⟩
  | orderCount hstage hliterals hdistances =>
      exact ⟨_, .orderCount c hstage hliterals hdistances, (codesFromOrderCount_eq _ _).symm⟩
  | order count seen hstage hliterals hdistances hseen =>
      exact ⟨_, .order c count seen hstage hliterals hdistances hseen,
        (codesFromOrder_eq _ _ _ _).symm⟩
  | lengths t code hstage hc hdecodes =>
      exact ⟨_, .lengths c t code hstage hc hdecodes, (codesFromLengths_eq _ _ _ _).symm⟩
  | repeating t code symbol hstage hc hdecodes hsymbol =>
      refine ⟨_, .repeating c t code symbol hstage hc hdecodes hsymbol, ?_⟩
      simp only [bind_assoc, ← codesFromLengths_eq]
      rfl

-- What is announced is then checked.
theorem Outcome.parses {p : Decoding Announcement} {r : Reader}
    {result : Except Fault Bool × CodeLengths × Reader} (h : Outcome p r result) :
    Parses (p >>= Announcement.codes) r result := by
  cases h with
  | failed fault c next hleads => exact .failed fault c next (hleads.bind_fail _)
  | suspended c next p' hpending hbits hleads hstarves =>
      exact .suspended c next _ hpending.awaits hbits (hleads.bind _) (hstarves.bind _)
  | complete c next hc hstage hsize hbits hleads =>
      exact .complete c next hc hstage hsize hbits (hleads.bind_pure _)

-- Wherever the header stopped, reading on does what is left to do.
theorem decode_parses {c : CodeLengths} {q : Decoding (Code × Code)} (h : Awaits c q) (r : Reader) :
    Parses q r (c.decode r) := by
  obtain ⟨p, hpending, rfl⟩ := h.pending
  exact (decode_outcome hpending r).parses

end Unpack.Deflate.CodeLengths
