import Unpack.Proofs.Deflate.Sound.Symbols

namespace Unpack.Deflate.Engine

open Bits (Reader)

variable {format : Format} {adler : UInt32} {r next : Reader} {w : Window} {last : Bool}

-- A step that halts for a number that is not there.
theorem idle_of_few {phase : Phase} {n : Nat} (hfew : r.bits.length < n) (hsame : r.Same next)
    (hhalt : ∀ format adler again next w, again.read n = (none, next) → w.pending = 0 →
      step format adler ⟨phase, again, w, last⟩ = (.ok false, ⟨phase, next, w, last⟩)) :
    Idle ⟨phase, next, w, last⟩ := by
  refine idle_of_halt fun format adler again w' hagain hempty => ?_
  obtain ⟨final, hread, hbits, hconsumed⟩ := again.read_of_lt n
    (by rw [hagain.bits, hsame.bits]; exact hfew)
  exact ⟨final, hhalt format adler again final w' hread hempty, hbits, hconsumed⟩

variable {bound capacity : Nat}

-- A step that takes bits, or goes down the order of phases, and writes nothing.
theorem Turn.ahead {e : Engine} (hsound : e.Sound) (hempty : e.window.pending = 0)
    (hbits : e.input.bits.length ≤ r.bits.length) (heffort : e.effort < bound) :
    Turn bound (longestMatch * r.bits.length) (.ok true, e) := by
  refine .moved e hsound ?_ heffort
  simp only [Engine.capacity, longestMatch, hempty]
  omega

-- A step that writes nothing and cannot go on.
theorem Turn.idle {e : Engine} (hsound : e.Sound) (hempty : e.window.pending = 0)
    (hbits : e.input.bits.length ≤ r.bits.length) (hidle : e.Idle) :
    Turn bound (longestMatch * r.bits.length) (.ok false, e) := by
  refine .halted e hsound ?_ (fun hpending => by omega) fun _ => hidle
  simp only [Engine.capacity, longestMatch, hempty]
  omega

theorem Turn.starved {phase : Phase} {n : Nat} (hsound : Sound ⟨phase, next, w, last⟩)
    (hempty : w.pending = 0) (hfew : r.bits.length < n) (hsame : r.Same next)
    (hhalt : ∀ format adler again next w, again.read n = (none, next) → w.pending = 0 →
      step format adler ⟨phase, again, w, last⟩ = (.ok false, ⟨phase, next, w, last⟩)) :
    Turn bound (longestMatch * r.bits.length) (.ok false, ⟨phase, next, w, last⟩) :=
  .idle hsound hempty (Nat.le_of_eq (congrArg List.length hsame.bits)) (idle_of_few hfew hsame hhalt)

-- The bytes of a checksum that are there are read.
theorem readWord_cases (missing : Nat) (value : UInt32) (r : Reader) :
    ∃ missing' value' next, readWord missing value r = (missing', value', next) ∧ missing' ≤ missing ∧
      next.bits.length ≤ r.bits.length ∧ (missing' ≠ 0 → next.bits.length < 8) := by
  induction missing generalizing value r with
  | zero => exact ⟨0, value, r, rfl, Nat.le_refl _, Nat.le_refl _, fun h => absurd rfl h⟩
  | succ missing ih =>
      rw [readWord]
      rcases r.read_cases 8 with ⟨byte, next, hread, -, hbits⟩ | ⟨next, hread, hfew, hsame⟩
      · obtain ⟨missing', value', final, hword, hle, hrest, hstops⟩ :=
          ih ((value <<< 8) ||| UInt32.ofNat byte) next
        exact ⟨missing', value', final, by simp only [hread, hword], by omega, by omega, hstops⟩
      · have hbits := congrArg List.length hsame.bits
        exact ⟨missing + 1, value, next, by simp only [hread], Nat.le_refl _, Nat.le_of_eq hbits,
          fun _ => by omega⟩

-- Bytes that are not there are asked for again.
theorem readWord_of_few (missing : Nat) (value : UInt32) {r : Reader}
    (hstops : missing ≠ 0 → r.bits.length < 8) :
    ∃ next, readWord missing value r = (missing, value, next) ∧ r.Same next := by
  cases missing with
  | zero => exact ⟨r, rfl, .refl r⟩
  | succ missing =>
      obtain ⟨next, hread, hbits, hconsumed⟩ := r.read_of_lt 8 (hstops (Nat.succ_ne_zero _))
      exact ⟨next, by simp only [readWord, hread], hbits, hconsumed⟩

theorem header_turn (hempty : w.pending = 0) :
    Turn (4 * r.bits.length) (longestMatch * r.bits.length) (step format adler ⟨.header, r, w, last⟩) := by
  simp only [step, headerStep]
  rcases r.read_cases 16 with ⟨bits, next, hread, -, hbits⟩ | ⟨next, hread, hfew, hsame⟩
  · simp only [hread]
    repeat' split
    · exact .failed _ _ rfl trivial
    · exact .failed _ _ rfl trivial
    · exact .failed _ _ rfl trivial
    · refine .ahead (show 4 ≤ 4 from Nat.le_refl _) hempty (by dsimp only; omega) ?_
      simp only [effort, rank]
      omega
    · refine .ahead trivial hempty (by dsimp only; omega) ?_
      simp only [effort, rank]
      omega
  · simp only [hread]
    refine .starved trivial hempty hfew hsame fun _ _ _ _ _ hread _ => ?_
    simp only [step, headerStep, hread]

theorem dictionary_turn (hempty : w.pending = 0) {missing : Nat} (hmissing : missing ≤ 4)
    (id : UInt32) :
    Turn bound (longestMatch * r.bits.length)
      (step format adler ⟨.dictionary missing id, r, w, last⟩) := by
  obtain ⟨missing', id', next, hword, hle, hbits, hstops⟩ := readWord_cases missing id r
  simp only [step, hword]
  refine .idle (show missing' ≤ 4 by omega) hempty hbits
    (idle_of_halt fun format adler again w' hagain _ => ?_)
  obtain ⟨final, hword, hfinal⟩ := readWord_of_few missing' id'
    (fun h => by rw [hagain.bits]; exact hstops h)
  exact ⟨final, by simp only [step, hword], hfinal⟩

theorem trailer_turn (hempty : w.pending = 0) {missing : Nat} (hmissing : missing ≤ 4)
    (value : UInt32) :
    Turn bound (longestMatch * r.bits.length)
      (step format adler ⟨.trailer missing value, r, w, last⟩) := by
  obtain ⟨missing', value', next, hword, hle, hbits, hstops⟩ := readWord_cases missing value r
  simp only [step, trailerStep, hword]
  cases missing' with
  | zero =>
      simp only
      split
      · exact .idle trivial hempty hbits (idle_of_halt fun _ _ again _ _ _ => ⟨again, rfl, .refl again⟩)
      · exact .failed _ _ rfl (show 0 ≤ 4 from Nat.zero_le _)
  | succ missing' =>
      refine .idle (show missing' + 1 ≤ 4 by omega) hempty hbits
        (idle_of_halt fun format adler again w' hagain _ => ?_)
      obtain ⟨final, hword, hfinal⟩ := readWord_of_few (missing' + 1) value'
        (fun h => by rw [hagain.bits]; exact hstops h)
      exact ⟨final, by simp only [step, trailerStep, hword], hfinal⟩

theorem block_turn (hempty : w.pending = 0) :
    Turn (4 * r.bits.length + 1) (longestMatch * r.bits.length)
      (step format adler ⟨.block, r, w, last⟩) := by
  simp only [step]
  cases last with
  | true =>
      have halign := r.advances_align.length_le
      rw [if_pos rfl]
      cases format with
      | raw =>
          exact .idle trivial hempty halign
            (idle_of_halt fun _ _ again _ _ _ => ⟨again, rfl, .refl again⟩)
      | zlib =>
          have hnone : ¬0 < w.pending := by omega
          simp only [endStep, if_neg hnone]
          refine .ahead (show 4 ≤ 4 from Nat.le_refl _) hempty halign ?_
          simp only [effort, rank]
          omega
  | false =>
      rw [if_neg Bool.false_ne_true]
      rw [blockStep]
      rcases r.read_cases 3 with ⟨head, next, hread, hhead, hbits⟩ | ⟨next, hread, hfew, hsame⟩
      · have halign := next.advances_align.length_le
        simp only [hread]
        split
        · refine .ahead next.length_bits_align hempty (by dsimp only; omega) ?_
          simp only [effort, rank]
          omega
        · refine .ahead Codes.fixed_ready hempty (by dsimp only; omega) ?_
          simp only [effort, rank]
          omega
        · refine .ahead trivial hempty (by dsimp only; omega) ?_
          simp only [effort, rank]
          omega
        · exact .failed _ _ rfl trivial
      · simp only [hread]
        refine .starved trivial hempty hfew hsame fun _ _ _ _ _ hread _ => ?_
        simp only [step, blockStep, hread, Bool.false_eq_true, if_false]

theorem storedLength_turn (hempty : w.pending = 0) (haligned : r.bits.length % 8 = 0) :
    Turn (4 * r.bits.length) (longestMatch * r.bits.length)
      (step format adler ⟨.storedLength, r, w, last⟩) := by
  simp only [step]
  rcases r.read_cases 16 with ⟨length, next, hread, hlength, hbits⟩ | ⟨next, hread, hfew, hsame⟩
  · simp only [hread]
    refine .ahead ⟨by dsimp only; omega, hlength⟩ hempty (by dsimp only; omega) ?_
    simp only [effort, rank]
    omega
  · simp only [hread]
    have haligned : next.bits.length % 8 = 0 := by rw [hsame.bits]; exact haligned
    refine .starved haligned hempty hfew hsame fun _ _ _ _ _ hread _ => ?_
    simp only [step, hread]

theorem storedComplement_turn (hempty : w.pending = 0) (haligned : r.bits.length % 8 = 0)
    {length : Nat} (hlength : length < 65536) :
    Turn (4 * r.bits.length) (longestMatch * r.bits.length)
      (step format adler ⟨.storedComplement length, r, w, last⟩) := by
  simp only [step]
  rcases r.read_cases 16 with ⟨complement, next, hread, -, hbits⟩ | ⟨next, hread, hfew, hsame⟩
  · have haligned : next.bits.length % 8 = 0 := by omega
    simp only [hread]
    split
    · refine .ahead ⟨haligned, hlength⟩ hempty (by dsimp only; omega) ?_
      simp only [effort, rank]
      omega
    · exact .failed _ _ rfl ⟨haligned, hlength⟩
  · have haligned : next.bits.length % 8 = 0 := by rw [hsame.bits]; exact haligned
    simp only [hread]
    refine .starved ⟨haligned, hlength⟩ hempty hfew hsame fun _ _ _ _ _ hread _ => ?_
    simp only [step, hread]

-- What a window takes from a reader at a byte boundary.
theorem copyFrom_cases (w : Window) (haligned : r.bits.length % 8 = 0) (length : Nat) :
    ∃ count w' next, w.copyFrom r length = (w', next) ∧
      r.availableBytes - next.availableBytes = count ∧
      count = min (min length w.free) (r.bits.length / 8) ∧ w'.pending = w.pending + count ∧
      next.bits.length + 8 * count = r.bits.length ∧ r.Advances next ∧
      (count = r.bits.length / 8 → next.isStarved = true) := by
  obtain ⟨hsize, -, hbits, -⟩ := r.take_of_aligned (min length w.free) haligned
  have hlength := congrArg List.length hbits
  rw [List.length_drop] at hlength
  refine ⟨(r.take (min length w.free)).1.size, _, _, rfl, ?_, hsize, rfl, ?_, r.advances_take _,
    r.isStarved_take _ haligned⟩
  · simp only [Reader.availableBytes, ← Reader.length_bits]
    omega
  · omega

-- Nothing is taken where no byte is left.
theorem idle_stored {left : Nat} (hleft : left ≠ 0) (hbits : r.bits.length = 0) :
    Idle ⟨.stored left, r, w, last⟩ := by
  rintro format adler ⟨phase, again, w', last'⟩ ⟨hphase, hlast, hinput, hempty⟩
  dsimp only at hphase hlast hinput hempty
  subst hphase hlast
  have hnone : again.bits.length = 0 := by rw [hinput.bits]; exact hbits
  obtain ⟨count, w'', next, hcopy, hcounted, hcount, hpending, hrest, hadvances, hstarved⟩ :=
    copyFrom_cases w' (show again.bits.length % 8 = 0 by omega) left
  have hzero : count = 0 := by omega
  subst hzero
  have hstarves : next.isStarved = true := hstarved (by omega)
  have hstep : step format adler ⟨.stored left, again, w', last'⟩ =
      (.ok false, ⟨.stored left, next, w'', last'⟩) := by
    simp only [step, hcopy, hcounted, Nat.sub_zero, if_neg hleft, hstarves, Bool.not_true]
  rw [hstep]
  exact ⟨rfl, rfl, rfl, hinput.trans (hadvances.same (by omega)), by dsimp only; omega⟩

theorem stored_turn (hempty : w.pending = 0) (haligned : r.bits.length % 8 = 0) {left : Nat}
    (hleft : left < 65536) :
    Turn (4 * r.bits.length + 2) (longestMatch * r.bits.length)
      (step format adler ⟨.stored left, r, w, last⟩) := by
  obtain ⟨count, w', next, hcopy, hcounted, hcount, hpending, hbits, -, hstarved⟩ :=
    copyFrom_cases w haligned left
  have hfree : w.free = 32768 := by rw [Window.free, hempty, Window.span]
  have hcapacity : ∀ phase, Engine.capacity ⟨phase, next, w', last⟩ ≤
      longestMatch * r.bits.length := by
    intro phase
    simp only [Engine.capacity, longestMatch]
    omega
  simp only [step, hcopy, hcounted]
  by_cases hdone : left - count = 0
  · rw [if_pos hdone]
    refine .moved _ trivial (hcapacity _) ?_
    simp only [effort, rank]
    omega
  · rw [if_neg hdone]
    have hsound : Sound ⟨.stored (left - count), next, w', last⟩ :=
      ⟨show next.bits.length % 8 = 0 by omega, show left - count < 65536 by omega⟩
    have heffort : 0 < count → effort ⟨.stored (left - count), next, w', last⟩ <
        4 * r.bits.length + 2 := by
      intro htaken
      simp only [effort, rank]
      omega
    cases hmoved : next.isStarved with
    | false =>
        have : count ≠ r.bits.length / 8 := fun hall => by simp [hstarved hall] at hmoved
        exact .moved _ hsound (hcapacity _) (heffort (by omega))
    | true =>
        refine .halted _ hsound (hcapacity _)
          (fun hpending => heffort (by dsimp only at hpending; omega)) fun hnothing => ?_
        dsimp only at hnothing
        exact idle_stored hdone (by omega)

theorem codeLengths_turn (hempty : w.pending = 0) {lengths : CodeLengths} (hlengths : lengths.Sound) :
    Turn (4 * r.bits.length + 1) (longestMatch * r.bits.length)
      (step format adler ⟨.codeLengths lengths, r, w, last⟩) := by
  have hturn := lengths.decode_turn hlengths r
  have hadvances := (lengths.advances_decode r).length_le
  simp only [step, codeLengthsStep]
  generalize lengths.decode r = result at hturn hadvances
  cases hturn with
  | failed fault c next hplain hsound => exact .failed _ _ hplain hsound
  | halted c next hsound hidle =>
      refine .idle hsound hempty hadvances (idle_of_halt fun format adler again w' hagain _ => ?_)
      obtain ⟨final, hdecode, hfinal⟩ := hidle again hagain
      exact ⟨final, by simp only [step, codeLengthsStep, hdecode], hfinal⟩
  | complete c next hstage hsound =>
      dsimp only at hadvances ⊢
      rcases c.codes_ready hsound hstage with ⟨codes, hcodes, hliteral, hdistance⟩ |
        ⟨fault, hcodes, hplain⟩
      · rw [hcodes]
        refine .ahead ⟨hliteral, hdistance⟩ hempty hadvances ?_
        simp only [effort, rank]
        omega
      · rw [hcodes]
        exact .failed _ _ hplain hsound

-- From wherever it stands, a step fails for a reason that lies in the data,
-- takes from the effort left, or is idle until something is brought or drained.
theorem step_turn (format : Format) (adler : UInt32) {e : Engine} (h : e.Sound)
    (hempty : e.window.pending = 0) : Turn e.effort e.capacity (step format adler e) := by
  obtain ⟨phase, r, w, last⟩ := e
  dsimp only at hempty
  have hroom : longestMatch ≤ w.free := by
    rw [Window.free, hempty]
    decide
  have hcapacity : Engine.capacity ⟨phase, r, w, last⟩ = longestMatch * r.bits.length := by
    simp only [Engine.capacity, hempty, Nat.zero_add]
  rw [hcapacity]
  cases phase with
  | header => exact header_turn hempty
  | dictionary missing id => exact dictionary_turn hempty h id
  | block => exact block_turn hempty
  | storedLength => exact storedLength_turn hempty h
  | storedComplement length => exact storedComplement_turn hempty h.1 h.2
  | stored left => exact stored_turn hempty h.1 h.2
  | codeLengths lengths => exact codeLengths_turn hempty h
  | symbol codes =>
      show Turn _ _ (withLast last (symbols codes (r.available + 1) r w))
      refine symbols_turn h _ ?_ ?_ ?_
      · rw [r.length_bits]
        omega
      · rw [if_pos hempty]
        exact Nat.le_refl _
      · omega
  | lengthBits codes length extra =>
      obtain ⟨hready, hlength⟩ := h
      exact afterMatch_turn hready hempty (fromLengthBits_turn hready hroom hlength (Nat.le_refl _))
  | distance codes length =>
      obtain ⟨hready, hlength⟩ := h
      exact afterMatch_turn hready hempty (fromDistance_turn hready hroom hlength (Nat.le_refl _))
  | distanceBits codes length distance extra =>
      obtain ⟨hready, hlength, hpositive, hextra, hfar⟩ := h
      exact afterMatch_turn hready hempty
        (fromDistanceBits_turn hready hroom hlength hpositive hextra (Nat.le_refl _) (Or.inr hfar))
  | trailer missing value => exact trailer_turn hempty h value
  | finished =>
      exact .idle trivial hempty (Nat.le_refl _)
        (idle_of_halt fun _ _ again _ _ _ => ⟨again, rfl, .refl again⟩)

end Unpack.Deflate.Engine
