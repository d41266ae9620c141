import Unpack.Proofs.Deflate.Sound.Step
import Unpack.Proofs.Machine.Symbols

namespace Unpack.Machine

open Bits (Register Reader)
open Deflate (Codes CodeLengths Phase Engine)
open Deflate.Engine (AfterMatch longestMatch)
open Lengths (Turn)

-- The step comes to the same answer, and to the same place.
def Follows (before : Machine) (result : Stepped) (answer : Except Fault Bool × Engine) : Prop :=
  ∃ m, result = .ok (answer.1, m) ∧ m.Stands answer.2 ∧ m.account = before.account

variable {m : Machine} {r : Reader} {w : Window} {last : Bool}

section Words

-- A word has its last byte first in the loop that reads it.
theorem readWord_eq {missing rounds : Nat} (hneeded : m.needed = 8 * missing)
    (hinput : m.input.Shows r) (hrounds : missing < rounds) :
    ∃ g', m.readWord rounds = .ok (decide ((Engine.readWord missing m.word r).1 = 0),
        { m with
          input := g'
          word := (Engine.readWord missing m.word r).2.1
          needed := 8 * (Engine.readWord missing m.word r).1 }) ∧
      g'.Shows (Engine.readWord missing m.word r).2.2 := by
  induction missing generalizing m r rounds with
  | zero =>
      obtain ⟨rest, rfl⟩ : ∃ rest, rounds = rest + 1 := ⟨rounds - 1, by omega⟩
      refine ⟨m.input, ?_, hinput⟩
      rw [readWord, if_pos hneeded, Engine.readWord, ← hneeded]
      rfl
  | succ missing ih =>
      obtain ⟨rest, rfl⟩ : ∃ rest, rounds = rest + 1 := ⟨rounds - 1, by omega⟩
      obtain ⟨g', hread, hg'⟩ := read_eq hinput (show 8 ≤ 16 by decide)
      rw [readWord, if_neg (by omega), Engine.readWord, hread]
      rcases r.read_cases 8 with ⟨byte, next, hresult, -, -⟩ | ⟨next, hresult, -, -⟩
      · rw [hresult] at hg' ⊢
        have hless : minus m.needed 8 = .ok (8 * missing) := by
          rw [minus_eq (by omega)]
          congr 1
          omega
        simp only [bind, Except.bind, hless]
        exact ih rfl hg' (by omega)
      · rw [hresult] at hg' ⊢
        refine ⟨g', ?_, hg'⟩
        rw [← hneeded]
        rfl

end Words

variable {format : Deflate.Format} {adler : UInt32}

theorem headerStep_follows (h : m.Stands ⟨.header, r, w, last⟩) :
    Follows m m.headerStep (Engine.step format adler ⟨.header, r, w, last⟩) := by
  obtain ⟨hmode, hinput, hwindow, hlast⟩ := h
  obtain ⟨g', hread, hg'⟩ := read_eq hinput (show 16 ≤ 16 by decide)
  dsimp only at hread hg'
  rw [headerStep, hread]
  simp only [Engine.step, Engine.headerStep]
  rcases r.read_cases 16 with ⟨bits, next, hresult, -, -⟩ | ⟨next, hresult, -, -⟩
  · rw [hresult] at hg' ⊢
    simp only [bind, Except.bind]
    split
    · exact ⟨_, rfl, ⟨hmode, hg', hwindow, hlast⟩, rfl⟩
    split
    · exact ⟨_, rfl, ⟨hmode, hg', hwindow, hlast⟩, rfl⟩
    split
    · exact ⟨_, rfl, ⟨hmode, hg', hwindow, hlast⟩, rfl⟩
    split
    · exact ⟨_, rfl, ⟨⟨rfl, rfl, rfl⟩, hg', hwindow, hlast⟩, rfl⟩
    · exact ⟨_, rfl, ⟨rfl, hg', hwindow, hlast⟩, rfl⟩
  · rw [hresult] at hg' ⊢
    exact ⟨_, rfl, ⟨hmode, hg', hwindow, hlast⟩, rfl⟩

theorem dictionaryStep_follows {missing : Nat} (hmissing : missing ≤ 4) {id : UInt32}
    (h : m.Stands ⟨.dictionary missing id, r, w, last⟩) :
    Follows m m.dictionaryStep
      (Engine.step format adler ⟨.dictionary missing id, r, w, last⟩) := by
  obtain ⟨⟨hmode, hneeded, rfl⟩, hinput, hwindow, hlast⟩ := h
  obtain ⟨g', hword, hg'⟩ := readWord_eq hneeded hinput (show missing < 5 by omega)
  rw [dictionaryStep, hword]
  exact ⟨_, rfl, ⟨⟨hmode, rfl, rfl⟩, hg', hwindow, hlast⟩, rfl⟩

theorem trailerStep_follows {missing : Nat} (hmissing : missing ≤ 4) {value : UInt32}
    (h : m.Stands ⟨.trailer missing value, r, w, last⟩) :
    Follows m m.trailerStep
      (Engine.step format m.adler.value ⟨.trailer missing value, r, w, last⟩) := by
  obtain ⟨⟨hmode, hneeded, rfl⟩, hinput, hwindow, hlast⟩ := h
  obtain ⟨g', hword, hg'⟩ := readWord_eq hneeded hinput (show missing < 5 by omega)
  rw [trailerStep, hword]
  simp only [Engine.step, Engine.trailerStep]
  generalize Engine.readWord missing m.word r = answer at hg'
  obtain ⟨missing', value, next⟩ := answer
  cases missing' with
  | zero =>
      simp only [bind, Except.bind]
      by_cases hsame : m.adler.value = value
      · simp only [if_pos hsame]
        exact ⟨_, rfl, ⟨rfl, hg', hwindow, hlast⟩, rfl⟩
      · simp only [if_neg hsame]
        exact ⟨_, rfl, ⟨⟨hmode, rfl, rfl⟩, hg', hwindow, hlast⟩, rfl⟩
  | succ missing' => exact ⟨_, rfl, ⟨⟨hmode, rfl, rfl⟩, hg', hwindow, hlast⟩, rfl⟩

theorem blockStep_follows (h : m.Stands ⟨.block, r, w, last⟩) :
    Follows m m.blockStep (Engine.step m.settings.format adler ⟨.block, r, w, last⟩) := by
  obtain ⟨hmode, hinput, hwindow, rfl⟩ := h
  dsimp only at hmode hinput hwindow
  rw [blockStep]
  simp only [Engine.step]
  cases hlast : m.last with
  | true =>
      obtain ⟨g', halign, hg'⟩ := align_eq hinput
      have hfilled := hwindow.filled
      simp only [halign, if_true, bind, Except.bind]
      cases hformat : m.settings.format with
      | raw => exact ⟨_, rfl, ⟨rfl, hg', hwindow, rfl⟩, rfl⟩
      | zlib =>
          dsimp only
          rw [Engine.endStep, hfilled]
          split
          · exact ⟨_, rfl, ⟨hmode, hg', hwindow, rfl⟩, rfl⟩
          · exact ⟨_, rfl, ⟨⟨rfl, rfl, rfl⟩, hg', hwindow, rfl⟩, rfl⟩
  | false =>
      obtain ⟨g', hread, hg'⟩ := read_eq hinput (show 3 ≤ 16 by decide)
      simp only [hread, Bool.false_eq_true, if_false, bind, Except.bind]
      rw [Engine.blockStep]
      rcases r.read_cases 3 with ⟨head, next, hresult, hhead, -⟩ | ⟨next, hresult, -, -⟩
      · rw [hresult] at hg' ⊢
        obtain ⟨g'', halign, hg''⟩ := align_eq hg'
        have hkinds : head / 2 = 0 ∨ head / 2 = 1 ∨ head / 2 = 2 ∨ head / 2 = 3 := by omega
        rcases hkinds with hkind | hkind | hkind | hkind
        · simp only [hkind, halign]
          exact ⟨_, rfl, ⟨rfl, hg'', hwindow, rfl⟩, rfl⟩
        · simp only [hkind]
          exact ⟨_, rfl, ⟨⟨rfl, _, rfl, rfl⟩, hg', hwindow, rfl⟩, rfl⟩
        · simp only [hkind]
          exact ⟨_, rfl, ⟨⟨rfl, _, rfl, Lengths.shows_start⟩, hg', hwindow, rfl⟩, rfl⟩
        · simp only [hkind, hg'.consumed]
          exact ⟨_, rfl, ⟨hmode, hg', hwindow, rfl⟩, rfl⟩
      · rw [hresult] at hg' ⊢
        exact ⟨_, rfl, ⟨hmode, hg', hwindow, rfl⟩, rfl⟩

theorem storedLengthStep_follows (h : m.Stands ⟨.storedLength, r, w, last⟩) :
    Follows m m.storedLengthStep (Engine.step format adler ⟨.storedLength, r, w, last⟩) := by
  obtain ⟨hmode, hinput, hwindow, hlast⟩ := h
  obtain ⟨g', hread, hg'⟩ := read_eq hinput (show 16 ≤ 16 by decide)
  dsimp only at hread hg'
  rw [storedLengthStep, hread]
  simp only [Engine.step]
  rcases r.read_cases 16 with ⟨length, next, hresult, -, -⟩ | ⟨next, hresult, -, -⟩
  · rw [hresult] at hg' ⊢
    exact ⟨_, rfl, ⟨⟨rfl, rfl⟩, hg', hwindow, hlast⟩, rfl⟩
  · rw [hresult] at hg' ⊢
    exact ⟨_, rfl, ⟨hmode, hg', hwindow, hlast⟩, rfl⟩

-- The complement of 16 bits flips each of them.
theorem xor_eq_iff {length complement : Nat} (hlength : length < 65536) :
    complement = length ^^^ 0xFFFF ↔ length + complement = 0xFFFF := by
  have hflip : length ^^^ 0xFFFF = 0xFFFF - length := by
    have hword := congrArg BitVec.toNat (BitVec.xor_allOnes (x := BitVec.ofNat 16 length))
    rw [BitVec.toNat_xor, BitVec.toNat_not, BitVec.toNat_ofNat, BitVec.toNat_allOnes,
      Nat.mod_eq_of_lt hlength] at hword
    exact hword
  omega

theorem storedComplementStep_follows {length : Nat} (hlength : length < 65536)
    (h : m.Stands ⟨.storedComplement length, r, w, last⟩) :
    Follows m m.storedComplementStep
      (Engine.step format adler ⟨.storedComplement length, r, w, last⟩) := by
  obtain ⟨⟨hmode, rfl⟩, hinput, hwindow, hlast⟩ := h
  obtain ⟨g', hread, hg'⟩ := read_eq hinput (show 16 ≤ 16 by decide)
  dsimp only at hread hg'
  rw [storedComplementStep, hread]
  simp only [Engine.step]
  rcases r.read_cases 16 with ⟨complement, next, hresult, -, -⟩ | ⟨next, hresult, -, -⟩
  · rw [hresult] at hg' ⊢
    simp only [bind, Except.bind, ← hg'.consumed]
    by_cases hflipped : m.length + complement = 0xFFFF
    · rw [if_pos hflipped, if_neg (not_not.mpr ((xor_eq_iff hlength).mpr hflipped))]
      exact ⟨_, rfl, ⟨⟨rfl, rfl⟩, hg', hwindow, hlast⟩, rfl⟩
    · rw [if_neg hflipped, if_pos (mt (xor_eq_iff hlength).mp hflipped)]
      exact ⟨_, rfl, ⟨⟨hmode, rfl⟩, hg', hwindow, hlast⟩, rfl⟩
  · rw [hresult] at hg' ⊢
    exact ⟨_, rfl, ⟨⟨hmode, rfl⟩, hg', hwindow, hlast⟩, rfl⟩

theorem storedStep_follows {left : Nat} (haligned : r.bits.length % 8 = 0)
    (h : m.Stands ⟨.stored left, r, w, last⟩) :
    Follows m m.storedStep (Engine.step format adler ⟨.stored left, r, w, last⟩) := by
  obtain ⟨⟨hmode, rfl⟩, hinput, hwindow, hlast⟩ := h
  dsimp only at hinput hwindow hlast
  have hheld : m.input.held % 8 = 0 := by
    have := hinput.available_eq
    simp only [Register.available] at this
    omega
  obtain ⟨ring', g', hcopy, hwindow', hg'⟩ := hwindow.copyFrom hinput hheld m.length
  obtain ⟨count, w', next, hcopied, hcounted, hcount, -, -, -, -⟩ :=
    Engine.copyFrom_cases w haligned m.length
  rw [hcopied] at hcopy hwindow' hg'
  dsimp only at hcopy hwindow' hg'
  rw [hcounted] at hcopy
  simp only [storedStep, hcopy, minus_eq (show count ≤ m.length by omega), Engine.step, hcopied,
    hcounted, hg'.isStarved_eq, bind, Except.bind]
  split
  · exact ⟨_, rfl, ⟨rfl, hg', hwindow', hlast⟩, rfl⟩
  · exact ⟨_, rfl, ⟨⟨hmode, rfl⟩, hg', hwindow', hlast⟩, rfl⟩

theorem codeLengthsStep_follows {lengths : CodeLengths} (hsound : lengths.Sound)
    (h : m.Stands ⟨.codeLengths lengths, r, w, last⟩) :
    Follows m m.codeLengthsStep (Engine.step format adler ⟨.codeLengths lengths, r, w, last⟩) := by
  obtain ⟨⟨hmode, header, hheader, hshows⟩, hinput, hwindow, hlast⟩ := h
  dsimp only at hinput hwindow hlast
  obtain ⟨header', g', hdecode, hshows', hg'⟩ := hshows.decode hsound hinput
  have hturn := lengths.decode_turn hsound r
  simp only [codeLengthsStep, hheader, hdecode, Engine.step, Engine.codeLengthsStep, bind, Except.bind]
  generalize lengths.decode r = answer at hshows' hg' hturn
  cases hturn with
  | failed fault d next _ _ =>
      exact ⟨_, rfl, ⟨⟨hmode, header', rfl, hshows'⟩, hg', hwindow, hlast⟩, rfl⟩
  | halted d next _ _ => exact ⟨_, rfl, ⟨⟨hmode, header', rfl, hshows'⟩, hg', hwindow, hlast⟩, rfl⟩
  | complete d next hstage hsound' =>
      dsimp only at hshows' hg' ⊢
      rcases hshows'.codes hsound' hstage with
        ⟨fault, hcodes, hliteral | ⟨⟨literal, hliteral⟩, hdistance⟩⟩ |
        ⟨codes, literal, distance, hcodes, hliteral, hshows₁, hdistance, hshows₂⟩
      · simp only [hcodes, hliteral]
        exact ⟨_, rfl, ⟨⟨hmode, header', rfl, hshows'⟩, hg', hwindow, hlast⟩, rfl⟩
      · simp only [hcodes, hliteral, hdistance]
        exact ⟨_, rfl, ⟨⟨hmode, header', rfl, hshows'⟩, hg', hwindow, hlast⟩, rfl⟩
      · simp only [hcodes, hliteral, hdistance]
        exact ⟨_, rfl, ⟨⟨rfl, _, rfl, hshows₁, hshows₂⟩, hg', hwindow, hlast⟩, rfl⟩

section Symbols

variable {codes : Codes}

-- The two tables at hand, and the loop that they are used in.
theorem symbolsStep_eq (hdecodes : m.Decodes codes) (hwindow : m.window.Shows w) :
    ∃ literal distance, literal.Shows codes.literal ∧ distance.Shows codes.distance ∧
      m.symbolsStep = (do
        let (outcome, _, m) ←
          Turn.run (symbolsTurn literal distance) (4 * m.input.available + 8) (w.free, m)
        return (outcome, m)) := by
  obtain ⟨tables, htables, hshows⟩ := hdecodes
  obtain ⟨literal, distance, hflat, hliteral, hdistance⟩ := hshows.flat_eq
  refine ⟨literal, distance, hliteral, hdistance, ?_⟩
  simp only [symbolsStep, htables, hflat, hwindow.free, bind, Except.bind]

theorem Agrees.follows {literal distance : FlatTable} {answer : Except Fault Bool × Engine}
    (hstep : m.symbolsStep = (do
      let (outcome, _, m) ←
        Turn.run (symbolsTurn literal distance) (4 * m.input.available + 8) (w.free, m)
      return (outcome, m)))
    (h : Agrees m (Turn.run (symbolsTurn literal distance) (4 * m.input.available + 8) (w.free, m))
      answer) : Follows m m.symbolsStep answer := by
  obtain ⟨free, m', hrun, hstands, haccount⟩ := h
  refine ⟨m', ?_, hstands, haccount⟩
  rw [hstep, hrun]
  rfl

theorem symbolsStep_follows (hready : codes.Ready) (h : m.Stands ⟨.symbol codes, r, w, last⟩) :
    Follows m m.symbolsStep (Engine.step format adler ⟨.symbol codes, r, w, last⟩) := by
  obtain ⟨literal, distance, hliteral, hdistance, hstep⟩ := symbolsStep_eq h.phase.2 h.window
  obtain ⟨k, hk, hends⟩ := Engine.symbols_ends hready r w
  have havailable := h.input.available_eq
  rw [Reader.length_bits] at havailable
  dsimp only at havailable
  exact Agrees.follows hstep (symbols_agrees hliteral hdistance hends h rfl (by omega))

-- The rest of a match, and the symbols behind it. The turns left cover the
-- longest way through a match; a shorter one starts further in.
theorem Meets.follows {phase : Phase} {result : AfterMatch} (hready : codes.Ready)
    (hmatch : Engine.MatchTurn codes last r.bits.length w result)
    (h : m.Stands ⟨phase, r, w, last⟩) (hdecodes : m.Decodes codes)
    (hmeets : ∀ literal distance : FlatTable, distance.Shows codes.distance → ∀ fuel, ∃ rest, fuel ≤ rest ∧
      Meets literal distance codes last m rest
        (Turn.run (symbolsTurn literal distance) (fuel + 3) (w.free, m)) result) :
    Follows m m.symbolsStep (Engine.withLast last (Engine.afterMatch codes result)) := by
  obtain ⟨literal, distance, hliteral, hdistance, hstep⟩ := symbolsStep_eq hdecodes h.window
  have havailable := h.input.available_eq
  dsimp only at havailable
  apply Agrees.follows hstep
  obtain ⟨rest, hle, hrest⟩ := hmeets literal distance hdistance (4 * m.input.available + 5)
  cases hmatch with
  | next next w' hbits _ =>
      obtain ⟨m', hrun, hstands, haccount⟩ := hrest
      obtain ⟨k, hk, hends⟩ := Engine.symbols_ends hready next w'
      rw [← Reader.length_bits] at hk
      rw [hrun]
      exact symbols_agrees hliteral hdistance hends hstands haccount (by omega)
  | failed fault phase next _ _ => exact hrest
  | halted phase next _ _ _ _ => exact hrest

end Symbols

-- Each step comes to the same answer and the same place, and nothing goes wrong
-- on the way.
theorem Stands.step {e : Engine} (h : m.Stands e) (hsound : e.Sound)
    (hempty : e.window.pending = 0) :
    Follows m m.step (Engine.step m.settings.format m.adler.value e) := by
  obtain ⟨phase, r, w, last⟩ := e
  dsimp only at hempty
  have hroom : longestMatch ≤ w.free := by
    rw [Window.free, hempty]
    decide
  have hphase := h.phase
  cases phase with
  | header =>
      rw [Machine.step, show m.mode = .header from hphase]
      exact headerStep_follows h
  | dictionary missing id =>
      rw [Machine.step, hphase.1]
      exact dictionaryStep_follows hsound h
  | block =>
      rw [Machine.step, show m.mode = .blocks from hphase]
      exact blockStep_follows h
  | storedLength =>
      rw [Machine.step, show m.mode = .storedLength from hphase]
      exact storedLengthStep_follows h
  | storedComplement length =>
      rw [Machine.step, hphase.1]
      exact storedComplementStep_follows hsound.2 h
  | stored left =>
      rw [Machine.step, hphase.1]
      exact storedStep_follows hsound.1 h
  | codeLengths lengths =>
      rw [Machine.step, hphase.1]
      exact codeLengthsStep_follows hsound h
  | symbol codes =>
      rw [Machine.step, hphase.1]
      exact symbolsStep_follows hsound h
  | lengthBits codes length extra =>
      obtain ⟨hready, hlength⟩ := hsound
      rw [Machine.step, hphase.1]
      exact Meets.follows hready
        (Engine.fromLengthBits_turn hready hroom hlength (Nat.le_refl _)) h hphase.2.1
        fun literal distance hdistance fuel =>
          ⟨fuel, Nat.le_refl _, fromLengthBits_meets hdistance hroom hlength h rfl fuel⟩
  | distance codes length =>
      obtain ⟨hready, hlength⟩ := hsound
      rw [Machine.step, hphase.1]
      exact Meets.follows hready
        (Engine.fromDistance_turn hready hroom hlength (Nat.le_refl _)) h hphase.2.1
        fun literal distance hdistance fuel =>
          ⟨fuel + 1, Nat.le_add_right _ _, fromDistance_meets hdistance hroom hlength h rfl (fuel + 1)⟩
  | distanceBits codes length distance extra =>
      obtain ⟨hready, hlength, hpositive, hextra, hfar⟩ := hsound
      rw [Machine.step, hphase.1]
      exact Meets.follows hready
        (Engine.fromDistanceBits_turn hready hroom hlength hpositive hextra (Nat.le_refl _) (.inr hfar))
        h hphase.2.1
        fun literal distance hdistance fuel =>
          ⟨fuel + 2, Nat.le_add_right _ _,
            fromDistanceBits_meets hroom hlength hpositive hextra h rfl (fuel + 2)⟩
  | trailer missing value =>
      rw [Machine.step, hphase.1]
      exact trailerStep_follows hsound h
  | finished =>
      rw [Machine.step, show m.mode = .finished from hphase]
      exact ⟨m, rfl, h, rfl⟩

end Unpack.Machine
