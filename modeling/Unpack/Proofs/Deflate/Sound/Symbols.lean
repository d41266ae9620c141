import Unpack.Proofs.Deflate.Engine
import Unpack.Proofs.Deflate.Forward
import Unpack.Proofs.Deflate.Sound.CodeLengths
import Unpack.Proofs.Loop

namespace Unpack.Deflate

open Bits (Reader)
open Reference

-- The tables of a block are tables of codes for its two alphabets.
structure Codes.Ready (codes : Codes) : Prop where
  literal : codes.literal.Ready 288
  distance : codes.distance.Ready 32

theorem Codes.fixed_ready : Codes.fixed.Ready :=
  ⟨⟨_, Codes.fixed_decodes.literal, by decide +kernel⟩,
    ⟨_, Codes.fixed_decodes.distance, by decide +kernel⟩⟩

namespace Engine

-- What holds of the engine wherever a step stops, also a step that fails. A
-- distance without extra bits is kept only where it reached too far.
def Sound (e : Engine) : Prop :=
  match e.phase with
  | .header | .block | .finished => True
  | .dictionary missing _ | .trailer missing _ => missing ≤ 4
  | .storedLength => e.input.bits.length % 8 = 0
  | .storedComplement length | .stored length =>
      e.input.bits.length % 8 = 0 ∧ length < 65536
  | .codeLengths lengths => lengths.Sound
  | .symbol codes => codes.Ready
  | .lengthBits codes length extra => codes.Ready ∧ length + 2 ^ extra ≤ 259
  | .distance codes length => codes.Ready ∧ length ≤ longestMatch
  | .distanceBits codes length distance extra =>
      codes.Ready ∧ length ≤ longestMatch ∧ 0 < distance ∧ extra ≤ 13 ∧
        (extra = 0 → e.window.history < distance)

-- The same place in the stream, with nothing to drain.
structure Alike (e again : Engine) : Prop where
  phase : again.phase = e.phase
  last : again.last = e.last
  input : e.input.Same again.input
  empty : again.window.pending = 0

-- No step gets anywhere without more input or a dictionary.
def Idle (e : Engine) : Prop :=
  ∀ format adler again, e.Alike again →
    (step format adler again).1 = .ok false ∧ e.Alike (step format adler again).2

-- Output bytes that the bits at hand can still lead to, at most.
def capacity (e : Engine) : Nat :=
  e.window.pending + longestMatch * e.input.bits.length

-- What a step comes to: each that does not fail takes from the effort left, or
-- is idle.
inductive Turn (bound capacity : Nat) : Except Fault Bool × Engine → Prop where
  | failed (fault : Fault) (e : Engine) (hplain : fault.isInternal = false) (hsound : e.Sound) :
      Turn bound capacity (.error fault, e)
  | moved (e : Engine) (hsound : e.Sound) (hcapacity : e.capacity ≤ capacity)
      (heffort : e.effort < bound) : Turn bound capacity (.ok true, e)
  | halted (e : Engine) (hsound : e.Sound) (hcapacity : e.capacity ≤ capacity)
      (heffort : 0 < e.window.pending → e.effort < bound) (hidle : e.window.pending = 0 → e.Idle) :
      Turn bound capacity (.ok false, e)

variable {codes : Codes} {r next : Reader} {w : Window} {last : Bool} {bits : Nat}

-- A step that halts again wherever the same bits are left.
theorem idle_of_halt {phase : Phase}
    (hhalt : ∀ format adler again w', r.Same again → w'.pending = 0 → ∃ next,
      step format adler ⟨phase, again, w', last⟩ = (.ok false, ⟨phase, next, w', last⟩) ∧
        again.Same next) : Idle ⟨phase, r, w, last⟩ := by
  rintro format adler ⟨phase', again, w', last'⟩ ⟨hphase, hlast, hinput, hempty⟩
  dsimp only at hphase hlast hinput hempty
  subst hphase hlast
  obtain ⟨next, hstep, hnext⟩ := hhalt format adler again w' hinput hempty
  rw [hstep]
  exact ⟨rfl, rfl, rfl, hinput.trans hnext, hempty⟩

-- With room for the longest match, a window copies the match or refuses the
-- distance.
theorem copyBack_cases_of_room (hroom : longestMatch ≤ w.free) {length : Nat}
    (hlength : length ≤ longestMatch) {distance : Nat} (hpositive : 0 < distance) :
    (∃ w', w.copyBack length distance = (.ok (), w') ∧ w'.pending = w.pending + length ∧
        distance ≤ w.history) ∨
      (w.copyBack length distance = (.error (.invalidDistance distance w.history), w) ∧
        w.history < distance) := by
  simp only [longestMatch, Window.free, Window.span] at hroom hlength
  have hfits : w.pending + length ≤ Window.span := by
    simp only [Window.span]
    omega
  have hcounted : ¬Window.countModulus ≤ w.pending + length := by
    simp only [Window.span, Window.countModulus] at *
    omega
  rw [Window.copyBack, if_neg hcounted, dif_pos hfits]
  split
  · rename_i hreached
    exact Or.inl ⟨_, rfl, rfl, hreached.2⟩
  · exact Or.inr ⟨rfl, by omega⟩

theorem distanceRange?_bounds {symbol base extra : Nat}
    (h : distanceRange? symbol = some (base, extra)) : 0 < base ∧ extra ≤ 13 := by
  have hranges : ∀ symbol < 30, 0 < distanceBase symbol ∧ distanceExtra symbol ≤ 13 := by decide
  unfold distanceRange? at h
  split at h
  · cases h
    exact hranges _ ‹_›
  · cases h

-- What a match comes to that starts with `bits` bits left.
inductive MatchTurn (codes : Codes) (last : Bool) (bits : Nat) (w : Window) : AfterMatch → Prop where
  | next (next : Reader) (w' : Window) (hbits : next.bits.length < bits)
      (hpending : w'.pending ≤ w.pending + longestMatch) : MatchTurn codes last bits w (.next next w')
  | failed (fault : Fault) (phase : Phase) (next : Reader) (hplain : fault.isInternal = false)
      (hsound : Sound ⟨phase, next, w, last⟩) :
      MatchTurn codes last bits w (.halt (.error fault) phase next w)
  | halted (phase : Phase) (next : Reader) (hsound : Sound ⟨phase, next, w, last⟩)
      (hrank : rank phase = 0) (hbits : next.bits.length ≤ bits) (hidle : Idle ⟨phase, next, w, last⟩) :
      MatchTurn codes last bits w (.halt (.ok false) phase next w)

theorem fromDistanceBits_turn (hready : codes.Ready) (hroom : longestMatch ≤ w.free)
    {length distance extra : Nat} (hlength : length ≤ longestMatch) (hpositive : 0 < distance)
    (hextra : extra ≤ 13) (hbits : r.bits.length ≤ bits)
    (hspends : r.bits.length < bits ∨ (extra = 0 → w.history < distance)) :
    MatchTurn codes last bits w (fromDistanceBits codes length distance extra r w) := by
  rw [fromDistanceBits]
  rcases r.read_cases extra with ⟨more, next, hread, hmore, hlast⟩ | ⟨next, hread, hfew, hsame⟩
  · simp only [hread]
    rcases copyBack_cases_of_room hroom hlength (show 0 < distance + more by omega) with
      ⟨w', hcopy, hpending, hnear⟩ | ⟨hcopy, hfar⟩
    · have hspent : next.bits.length < bits := by
        rcases Nat.eq_zero_or_pos extra with hnone | hsome
        · -- The distance is not one that reached too far before.
          have := hspends.resolve_right fun hfar => by
            have := hfar hnone
            omega
          omega
        · omega
      rw [hcopy]
      exact .next next w' hspent (by omega)
    · rw [hcopy]
      exact .failed _ _ next rfl ⟨hready, hlength, by omega, hextra, fun _ => hfar⟩
  · simp only [hread]
    refine .halted _ next ⟨hready, hlength, hpositive, hextra, fun h => by omega⟩ rfl ?_
      (idle_of_halt fun format adler again w' hagain _ => ?_)
    · rw [hsame.bits]
      exact hbits
    · obtain ⟨final, hread, hbits, hconsumed⟩ := again.read_of_lt extra
        (by rw [hagain.bits, hsame.bits]; exact hfew)
      refine ⟨final, ?_, hbits, hconsumed⟩
      simp only [step, fromDistanceBits, hread, afterMatch]

theorem fromDistance_turn (hready : codes.Ready) (hroom : longestMatch ≤ w.free) {length : Nat}
    (hlength : length ≤ longestMatch) (hbits : r.bits.length ≤ bits) :
    MatchTurn codes last bits w (fromDistance codes length r w) := by
  have hsound : ∀ next, Sound ⟨.distance codes length, next, w, last⟩ := fun _ => ⟨hready, hlength⟩
  rw [fromDistance]
  rcases hready.distance.symbol_cases r with ⟨symbol, next, hsymbol, -, hspent⟩ |
    ⟨next, hsymbol, hsame, hagain⟩ | ⟨next, hsymbol, -⟩
  · simp only [hsymbol, distanceCode?_eq]
    cases hrange : distanceRange? symbol with
    | none => exact .failed _ _ next rfl (hsound next)
    | some range =>
        obtain ⟨base, extra⟩ := range
        obtain ⟨hpositive, hextra⟩ := distanceRange?_bounds hrange
        exact fromDistanceBits_turn hready hroom hlength hpositive hextra (by omega)
          (Or.inl (by omega))
  · simp only [hsymbol]
    refine .halted _ next (hsound next) rfl (by rw [hsame.bits]; exact hbits)
      (idle_of_halt fun format adler again w' hagain' _ => ?_)
    obtain ⟨final, hnone, hfinal⟩ := hagain again (hsame.trans hagain')
    refine ⟨final, ?_, hfinal⟩
    simp only [step, fromDistance, hnone, afterMatch]
  · simp only [hsymbol]
    exact .failed _ _ next rfl (hsound next)

theorem fromLengthBits_turn (hready : codes.Ready) (hroom : longestMatch ≤ w.free)
    {length extra : Nat} (hlength : length + 2 ^ extra ≤ 259) (hbits : r.bits.length ≤ bits) :
    MatchTurn codes last bits w (fromLengthBits codes length extra r w) := by
  rw [fromLengthBits]
  rcases r.read_cases extra with ⟨more, next, hread, hmore, hlast⟩ | ⟨next, hread, hfew, hsame⟩
  · simp only [hread]
    exact fromDistance_turn hready hroom (by simp only [longestMatch]; omega) (by omega)
  · simp only [hread]
    refine .halted _ next ⟨hready, hlength⟩ rfl (by rw [hsame.bits]; exact hbits)
      (idle_of_halt fun format adler again w' hagain _ => ?_)
    obtain ⟨final, hread, hbits, hconsumed⟩ := again.read_of_lt extra
      (by rw [hagain.bits, hsame.bits]; exact hfew)
    refine ⟨final, ?_, hbits, hconsumed⟩
    simp only [step, fromLengthBits, hread, afterMatch]

-- A halt of the loop over symbols, as a turn of the engine.
theorem MatchTurn.turn {bound capacity : Nat} {outcome : Except Fault Bool} {phase : Phase}
    {w' : Window} (h : MatchTurn codes last bits w (.halt outcome phase next w'))
    (hbound : 4 * bits + (if w.pending = 0 then 0 else 1) ≤ bound)
    (hcapacity : w.pending + longestMatch * bits ≤ capacity) :
    Turn bound capacity (outcome, ⟨phase, next, w', last⟩) := by
  cases h with
  | failed fault phase next hplain hsound => exact .failed _ _ hplain hsound
  | halted phase next hsound hrank hbits hidle =>
      refine .halted _ hsound ?_ (fun hpending => ?_) fun _ => hidle
      · simp only [Engine.capacity, longestMatch] at *
        omega
      · rw [if_neg (by dsimp only at hpending; omega)] at hbound
        simp only [effort, hrank]
        omega

theorem idle_symbol (hsame : r.Same next)
    (hidle : ∀ again, r.Same again → ∃ final,
      codes.literal.symbol again = (.ok none, final) ∧ again.Same final) :
    Idle ⟨.symbol codes, next, w, last⟩ := by
  refine idle_of_halt fun format adler again w' hagain hempty => ?_
  obtain ⟨final, hnone, hfinal⟩ := hidle again (hsame.trans hagain)
  have hroom : ¬w'.free < longestMatch := by
    rw [Window.free, hempty]
    decide
  exact ⟨final, by simp only [step, symbols, Loop.run, symbolRound, if_neg hroom, hnone], hfinal⟩

-- A round that goes on takes a bit and writes one match at most.
theorem symbolRound_turn (hready : codes.Ready) (r : Reader) (w : Window) (last : Bool)
    {bound capacity : Nat} (hbound : 4 * r.bits.length + (if w.pending = 0 then 0 else 1) ≤ bound)
    (hcapacity : w.pending + longestMatch * r.bits.length ≤ capacity) :
    (symbolRound codes (r, w)).elim
      (fun s => s.1.bits.length < r.bits.length ∧ s.2.pending ≤ w.pending + longestMatch)
      (fun result => Turn bound capacity (withLast last result)) := by
  have hsound : ∀ next w, Sound ⟨.symbol codes, next, w, last⟩ := fun _ _ => hready
  rw [symbolRound]
  by_cases hfull : w.free < longestMatch
  · have hpending : w.pending ≠ 0 := by
      simp only [Window.free, Window.span, longestMatch] at hfull
      omega
    rw [if_neg hpending] at hbound
    rw [if_pos hfull]
    refine .moved _ (hsound r w) hcapacity ?_
    simp only [effort, rank]
    omega
  rw [if_neg hfull]
  have hroom := Nat.le_of_not_lt hfull
  rcases hready.literal.symbol_cases r with ⟨symbol, next, hsymbol, -, hspent⟩ |
    ⟨next, hsymbol, hsame, hidle⟩ | ⟨next, hsymbol, -⟩
  · simp only [hsymbol]
    by_cases hliteral : symbol < endOfBlock
    · have hfits : w.pending < Window.span := by
        simp only [Window.free, Window.span, longestMatch] at *
        omega
      rw [if_pos hliteral, Window.write, dif_pos hfits]
      exact ⟨hspent, by simp only [longestMatch]; omega⟩
    · rw [if_neg hliteral]
      by_cases hend : symbol = endOfBlock
      · rw [if_pos hend]
        refine .moved _ trivial ?_ ?_
        · simp only [Engine.capacity, longestMatch] at *
          omega
        · simp only [effort, rank]
          omega
      · rw [if_neg hend, lengthCode?_eq]
        cases hrange : lengthRange? (symbol - 257) with
        | none => exact .failed _ _ rfl (hsound next w)
        | some range =>
            have hmatch : MatchTurn codes last r.bits.length w
                (fromLengthBits codes range.1 range.2 next w) :=
              fromLengthBits_turn hready hroom (lengthRange?_le hrange) (by omega)
            dsimp only
            generalize fromLengthBits codes range.1 range.2 next w = result at hmatch
            cases result with
            | next final w' =>
                cases hmatch with
                | next final w' hspent hpending => exact ⟨hspent, hpending⟩
            | halt outcome phase final w' => exact hmatch.turn hbound hcapacity
  · simp only [hsymbol]
    have hbits := congrArg List.length hsame.bits
    refine .halted _ (hsound next w) ?_ (fun hpending => ?_) fun _ => idle_symbol hsame hidle
    · simp only [Engine.capacity, hbits]
      exact hcapacity
    · dsimp only at hpending
      rw [if_neg (by omega)] at hbound
      simp only [effort, rank, hbits]
      omega
  · simp only [hsymbol]
    exact .failed _ _ rfl (hsound next w)

-- The loop over symbols ends, as each round takes a bit.
theorem symbols_ends (hready : codes.Ready) (r : Reader) (w : Window) :
    ∃ k ≤ r.available + 1,
      Loop.Ends (symbolRound codes) k (r, w) (symbols codes (r.available + 1) r w) := by
  have hround : ∀ s : Reader × Window, True → (symbolRound codes s).elim
      (fun s' => True ∧ s'.1.bits.length < s.1.bits.length) fun _ => True := by
    rintro ⟨r, w⟩ -
    have hturn := symbolRound_turn hready r w false (Nat.le_refl _) (Nat.le_refl _)
    generalize symbolRound codes (r, w) = result at hturn
    cases result with
    | inl s' => exact ⟨trivial, hturn.1⟩
    | inr result => trivial
  obtain ⟨k, result, hends, hle, -⟩ := Loop.exists_ends (·.1.bits.length) hround
    (show True from trivial) (s := (r, w))
  rw [r.length_bits] at hle
  refine ⟨k, hle, ?_⟩
  rw [symbols, hends.run_eq _ hle]
  exact hends

-- Each round of the loop over symbols takes a bit, so there are rounds enough.
theorem symbols_turn (hready : codes.Ready) (rounds : Nat) (hrounds : r.bits.length < rounds)
    {bound capacity : Nat} (hbound : 4 * r.bits.length + (if w.pending = 0 then 0 else 1) ≤ bound)
    (hcapacity : w.pending + longestMatch * r.bits.length ≤ capacity) :
    Turn bound capacity (withLast last (symbols codes rounds r w)) := by
  refine Loop.run_rule_of_measure
    (P := fun s => 4 * s.1.bits.length + (if s.2.pending = 0 then 0 else 1) ≤ bound ∧
      s.2.pending + longestMatch * s.1.bits.length ≤ capacity)
    (Q := fun result => Turn bound capacity (withLast last result))
    (fun s : Reader × Window => s.1.bits.length + 1) (fun s hs => ?_)
    (fun s _ hnone => absurd hnone (Nat.succ_ne_zero _)) hrounds ⟨hbound, hcapacity⟩
  obtain ⟨r, w⟩ := s
  obtain ⟨hbound, hcapacity⟩ := hs
  have hround := symbolRound_turn hready r w last hbound hcapacity
  generalize symbolRound codes (r, w) = result at hround
  cases result with
  | inr result => exact hround
  | inl s =>
      obtain ⟨next, w'⟩ := s
      obtain ⟨hspent, hpending⟩ := hround
      dsimp only at hbound hcapacity hspent hpending ⊢
      refine ⟨⟨?_, ?_⟩, Nat.succ_lt_succ hspent⟩
      · dsimp only
        split at hbound <;> split <;> omega
      · simp only [longestMatch] at *
        omega

-- From a halt inside a match on.
theorem afterMatch_turn (hready : codes.Ready) (hempty : w.pending = 0) {result : AfterMatch}
    (h : MatchTurn codes last bits w result) :
    Turn (4 * bits) (longestMatch * bits) (withLast last (afterMatch codes result)) := by
  cases result with
  | next next w' =>
      cases h with
      | next next w' hspent hpending =>
          rw [afterMatch]
          refine symbols_turn hready _ ?_ ?_ ?_
          · rw [next.length_bits]
            omega
          · split <;> omega
          · simp only [longestMatch] at *
            omega
  | halt outcome phase next w' =>
      exact h.turn (by rw [if_pos hempty]; omega) (by omega)

end Engine

end Unpack.Deflate
