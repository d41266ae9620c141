import Unpack.Proofs.Machine.FlatTable.Symbol

namespace Unpack.Machine.FlatTable

open Bits (Register Reader)
open Huffman (Complete Consumes Degenerate HasCode Table Tree)
open Huffman.Table (ofLengths ofDistanceLengths rootBits)

variable {lengths : List Nat}

-- Both tables answer alike and consume as many bits, whichever register stands
-- where the reader does.
def Answers (flat : FlatTable) (t : Table) (r : Reader) (answer : Except Fault (Option Nat))
    (count : Nat) : Prop :=
  ∃ next, t.symbol r = (answer, next) ∧ Consumes r next count ∧
    ∀ g : Register, g.Shows r → ∃ g', flat.symbol g = .ok (answer, g') ∧ g'.Shows next

theorem Shows.answers {flat : FlatTable} {t : Table} (h : flat.Shows t) {r next : Reader}
    {answer : Except Fault (Option Nat)} {count : Nat} (hsymbol : t.symbol r = (answer, next))
    (hnext : Consumes r next count) : flat.Answers t r answer count := by
  refine ⟨next, hsymbol, hnext, fun g hg => ?_⟩
  obtain ⟨g', hflat, hshows⟩ := h.symbol_eq hg
  rw [hsymbol] at hflat hshows
  exact ⟨g', hflat, hshows⟩

-- A table is built exactly for a code that fills the code space, or that has at most
-- one symbol where that is allowed. It decodes the symbol whose canonical code begins
-- the bits, and nothing else. The flat table is built for the same lengths and decodes
-- the same, and every entry that is looked up for that lies inside of it.
theorem symbol_follows_code (hcount : lengths.length ≤ Tree.symbolModulus) :
    ((∃ t, ofLengths lengths = .ok t) ↔ Complete lengths) ∧
    ((∃ t, ofDistanceLengths lengths = .ok t) ↔ Complete lengths ∨ Degenerate lengths) ∧
    ∀ mayDegenerate, match Table.build lengths mayDegenerate with
      | .error fault => build lengths mayDegenerate = .ok (.error fault)
      | .ok t => ∃ flat, build lengths mayDegenerate = .ok (.ok flat) ∧ ∀ r : Reader,
          (∀ symbol, HasCode lengths symbol → Huffman.code lengths symbol <+: r.bits →
            flat.Answers t r (.ok (some symbol)) (Huffman.code lengths symbol).length) ∧
          ((∀ symbol, HasCode lengths symbol → ¬Huffman.code lengths symbol <+: r.bits) →
            (r.bits.length < rootBits ∨ Complete lengths → flat.Answers t r (.ok none) 0) ∧
            (rootBits ≤ r.bits.length → ¬Complete lengths →
              flat.Answers t r (.error (.invalidCode r.consumed)) 0)) := by
  obtain ⟨hcode, hdistance, hsymbols⟩ := Table.symbol_iff_canonical_code lengths hcount
  refine ⟨hcode, hdistance, fun mayDegenerate => ?_⟩
  have hbuilt := build_eq hcount mayDegenerate
  cases ht : Table.build lengths mayDegenerate with
  | error fault =>
      rw [ht] at hbuilt
      exact hbuilt
  | ok t =>
      rw [ht] at hbuilt
      obtain ⟨flat, hflat, hshows⟩ := hbuilt
      refine ⟨flat, hflat, fun r => ?_⟩
      have hmade : ofLengths lengths = .ok t ∨ ofDistanceLengths lengths = .ok t := by
        cases mayDegenerate with
        | false => exact .inl ht
        | true => exact .inr ht
      obtain ⟨hsome, hnone, -⟩ := hsymbols t hmade r
      constructor
      · intro symbol hused hbegins
        obtain ⟨next, hsymbol, hnext⟩ := hsome symbol hused hbegins
        exact hshows.answers hsymbol hnext
      · intro hno
        obtain ⟨hopen, hrefused⟩ := hnone hno
        constructor
        · intro hmore
          obtain ⟨next, hsymbol, hnext⟩ := hopen hmore
          exact hshows.answers hsymbol hnext
        · intro hlong hpartial
          obtain ⟨next, hsymbol, hnext⟩ := hrefused hlong hpartial
          exact hshows.answers hsymbol hnext

-- The code of three bits for the last symbol, with bits to spare.
theorem symbol_follows_code_last :
    [2, 1, 3, 3].length ≤ Tree.symbolModulus ∧
      ∃ flat g', build [2, 1, 3, 3] false = .ok (.ok flat) ∧
        flat.symbol (Register.empty.feed ⟨#[0x07]⟩) = .ok (.ok (some 3), g') ∧ g'.consumed = 3 := by
  have hcount : [2, 1, 3, 3].length ≤ Tree.symbolModulus := by decide
  obtain ⟨hcode, -, hbuilt⟩ := symbol_follows_code hcount
  obtain ⟨t, ht⟩ := hcode.mpr ⟨by decide, by decide⟩
  have hbuilt := hbuilt false
  rw [show Table.build [2, 1, 3, 3] false = .ok t from ht] at hbuilt
  obtain ⟨flat, hflat, hanswers⟩ := hbuilt
  obtain ⟨next, -, hnext, hregister⟩ :=
    (hanswers (Reader.empty.feed ⟨#[0x07]⟩)).1 3 (by decide) (by decide)
  obtain ⟨g', hsymbol, hshows⟩ := hregister _ (Register.shows_empty.feed ⟨#[0x07]⟩)
  exact ⟨hcount, flat, g', hflat, hsymbol, hshows.consumed.trans hnext.consumed⟩

end Unpack.Machine.FlatTable
