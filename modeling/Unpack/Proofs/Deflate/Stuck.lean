import Unpack.Proofs.Deflate.Step

namespace Unpack

-- The faults of a stream that a decoder does not get over.
def Fault.isFatal : Fault → Bool
  | .checksumMismatch .. | .invalidTable _ | .invalidCode _ | .invalidDistance .. => true
  | _ => false

namespace Deflate

open Bits (Reader)
open Huffman (Table)

namespace CodeLengths

-- No further bits make these code lengths a code.
inductive Stuck (c : CodeLengths) (r : Reader) : Prop where
  | order (count : Nat) (seen : Array Nat) (hstage : c.stage = .order count seen)
      (hall : count ≤ seen.size) (fault : Fault)
      (hrefused : Table.ofLengths (orderLengths seen) = .error fault)
  | lengths (code : Table) (hstage : c.stage = .lengths code)
      (hmissing : c.lengths.size < c.total) (hrefuses : code.Refuses r)
  | complete (hstage : c.stage = .complete) (fault : Fault) (hrefused : c.codes = .error fault)

variable {c : CodeLengths} {r : Reader}

theorem Stuck.more (h : c.Stuck r) {more : Reader} (hfront : r.bits <+: more.bits) :
    c.Stuck more := by
  cases h with
  | order count seen hstage hall fault hrefused => exact .order count seen hstage hall fault hrefused
  | lengths code hstage hmissing hrefuses =>
      exact .lengths code hstage hmissing (hrefuses.more hfront)
  | complete hstage fault hrefused => exact .complete hstage fault hrefused

-- What reading code lengths may come to: all of them, or a fault that is fatal
-- only when it leaves them stuck.
structure Reads (result : Except Fault Bool × CodeLengths × Reader) : Prop where
  complete : result.1 = .ok true → result.2.1.stage = .complete
  stuck : ∀ fault, result.1 = .error fault → fault.isFatal = true → result.2.1.Stuck result.2.2

theorem Reads.suspended (c : CodeLengths) (r : Reader) : Reads (.ok false, c, r) :=
  ⟨nofun, nofun⟩

theorem Reads.finished {c : CodeLengths} (h : c.stage = .complete) (r : Reader) :
    Reads (.ok true, c, r) :=
  ⟨fun _ => h, nofun⟩

theorem Reads.minor {fault : Fault} (h : fault.isFatal = false) (c : CodeLengths) (r : Reader) :
    Reads (.error fault, c, r) :=
  ⟨nofun, by rintro _ ⟨⟩ hfatal; exact absurd hfatal (h ▸ Bool.false_ne_true)⟩

theorem Reads.fatal {c : CodeLengths} {r : Reader} (fault : Fault) (h : c.Stuck r) :
    Reads (.error fault, c, r) :=
  ⟨nofun, fun _ _ _ => h⟩

-- A number is read, and then whatever comes next.
theorem number_reads (c : CodeLengths) (r : Reader) (n : Nat)
    {next : Nat → Reader → Except Fault Bool × CodeLengths × Reader}
    (hnext : ∀ more r, Reads (next more r)) :
    Reads (match r.read n with
      | (none, r) => (.ok false, c, r)
      | (some more, r) => next more r) := by
  cases r.read n with
  | mk more r' =>
      cases more with
      | none => exact .suspended c r'
      | some more => exact hnext more r'

-- A run is read to its end, or the reading of the lengths stops there.
theorem readRun_reads (c : CodeLengths) (code : Table) (symbol : Nat) (r : Reader) :
    (c.readRun code symbol r).1 = .ok true ∨ Reads (c.readRun code symbol r) := by
  rw [readRun]
  dsimp only
  cases r.read (runCode symbol).1 with
  | mk more r' =>
      cases more with
      | none => exact Or.inr (.suspended _ r')
      | some more =>
          dsimp only
          split
          · exact Or.inl rfl
          · exact Or.inr (.minor rfl _ r')

theorem lengthRound_reads (code : Table) (c : CodeLengths) (r : Reader) :
    (lengthRound code (c, r)).elim (fun _ => True) Reads := by
  rw [lengthRound]
  by_cases hall : c.total ≤ c.lengths.size
  · rw [if_pos hall]
    exact .finished rfl r
  rw [if_neg hall]
  rcases hsymbol : code.symbol r with ⟨fault | _ | symbol, next⟩
  · have hmissing := Nat.lt_of_not_le hall
    exact .fatal fault (.lengths code rfl hmissing (Table.refuses_of_symbol hsymbol))
  · exact .suspended _ next
  · dsimp only
    by_cases hliteral : symbol < 16
    · rw [if_pos hliteral]
      trivial
    rw [if_neg hliteral]
    cases c.runStartsAlphabet symbol with
    | some alphabet => exact .minor rfl _ next
    | none =>
        have hrun := c.readRun_reads code symbol next
        dsimp only
        split
        · trivial
        · rename_i hstops
          exact hrun.resolve_left fun htrue => hstops _ _ (Prod.ext htrue rfl)

theorem readLengths_reads (code : Table) (rounds : Nat) (c : CodeLengths) (r : Reader) :
    Reads (readLengths code rounds c r) :=
  Loop.run_rule (fun s _ => lengthRound_reads code s.1 s.2) (fun s _ => .finished rfl s.2) rounds
    trivial

theorem readOrder_reads (count missing : Nat) (seen : Array Nat) (c : CodeLengths) (r : Reader)
    (hcount : count ≤ seen.size + missing) : Reads (readOrder count missing seen c r) := by
  induction missing generalizing seen c r with
  | zero =>
      rw [readOrder]
      cases hcode : Table.ofLengths (orderLengths seen) with
      | error fault => exact .fatal _ (.order count seen rfl hcount fault hcode)
      | ok code => exact readLengths_reads _ _ _ _
  | succ missing ih =>
      apply number_reads _ r 3
      intro length next
      apply ih
      rw [Array.size_push]
      omega

theorem fromOrder_reads (c : CodeLengths) (count : Nat) (seen : Array Nat) (r : Reader) :
    Reads (c.fromOrder count seen r) :=
  readOrder_reads count _ seen c r (by omega)

theorem fromOrderCount_reads (c : CodeLengths) (r : Reader) : Reads (c.fromOrderCount r) :=
  number_reads _ r 4 fun _ _ => fromOrder_reads _ _ _ _

theorem fromDistanceCount_reads (c : CodeLengths) (r : Reader) : Reads (c.fromDistanceCount r) :=
  number_reads _ r 5 fun _ _ => fromOrderCount_reads _ _

theorem fromLiteralCount_reads (c : CodeLengths) (r : Reader) : Reads (c.fromLiteralCount r) :=
  number_reads _ r 5 fun _ _ => fromDistanceCount_reads _ _

theorem decode_reads (c : CodeLengths) (r : Reader) : Reads (c.decode r) := by
  rw [decode]
  cases hstage : c.stage with
  | literalCount => exact c.fromLiteralCount_reads r
  | distanceCount => exact c.fromDistanceCount_reads r
  | orderCount => exact c.fromOrderCount_reads r
  | order count seen => exact c.fromOrder_reads count seen r
  | lengths code => exact readLengths_reads code _ c r
  | repeating code symbol =>
      have hrun := c.readRun_reads code symbol r
      dsimp only
      split
      · exact readLengths_reads code _ _ _
      · rename_i hstops
        exact hrun.resolve_left fun htrue => hstops _ _ (Prod.ext htrue rfl)
  | complete => exact .finished hstage r

-- Stuck code lengths are stuck again after each attempt.
theorem Stuck.decode (h : c.Stuck r) :
    (∃ c' next, c.decode r = (.ok true, c', next) ∧ c'.Stuck next ∧
      ∃ fault, c'.codes = .error fault) ∨
    ∃ fault c' next, c.decode r = (.error fault, c', next) ∧ c'.Stuck next := by
  rw [CodeLengths.decode]
  cases h with
  | order count seen hstage hall fault hrefused =>
      right
      rw [hstage]
      dsimp only
      rw [fromOrder, Nat.sub_eq_zero_of_le hall, readOrder, hrefused]
      exact ⟨_, _, _, rfl, .order count seen rfl hall fault hrefused⟩
  | lengths code hstage hmissing hrefuses =>
      right
      obtain ⟨fault, next, hsymbol, hagain⟩ := hrefuses.symbol
      obtain ⟨rounds, hrounds⟩ := Nat.exists_eq_succ_of_ne_zero (Nat.sub_ne_zero_of_lt hmissing)
      rw [hstage]
      dsimp only
      rw [fromLengths, hrounds, readLengths, Loop.run, lengthRound, if_neg (Nat.not_le_of_lt hmissing),
        hsymbol]
      exact ⟨_, _, _, rfl, .lengths code rfl hmissing hagain⟩
  | complete hstage fault hrefused =>
      left
      rw [hstage]
      exact ⟨c, r, rfl, .complete hstage fault hrefused, fault, hrefused⟩

end CodeLengths

namespace Engine

-- No input, no dictionary and no drain makes this engine reach the end.
inductive Stuck (adler : UInt32) : Engine → Prop where
  | codeLengths (lengths : CodeLengths) (r : Reader) (w : Window) (last : Bool)
      (hstuck : lengths.Stuck r) : Stuck adler ⟨.codeLengths lengths, r, w, last⟩
  | symbol (codes : Codes) (r : Reader) (w : Window) (last : Bool)
      (hrefuses : codes.literal.Refuses r) : Stuck adler ⟨.symbol codes, r, w, last⟩
  | distance (codes : Codes) (length : Nat) (r : Reader) (w : Window) (last : Bool)
      (hrefuses : codes.distance.Refuses r) : Stuck adler ⟨.distance codes length, r, w, last⟩
  | distanceBits (codes : Codes) (length distance extra : Nat) (r : Reader) (w : Window)
      (last : Bool) (hfar : w.history < distance) :
      Stuck adler ⟨.distanceBits codes length distance extra, r, w, last⟩
  | trailer (value : UInt32) (r : Reader) (w : Window) (last : Bool) (hempty : w.pending = 0)
      (hwrong : adler ≠ value) : Stuck adler ⟨.trailer 0 value, r, w, last⟩

-- No distance is zero.
def Positive : Phase → Prop
  | .distanceBits _ _ distance _ => 0 < distance
  | _ => True

-- What a step may come to: a fault is fatal only when it leaves the engine stuck.
structure Fares (adler : UInt32) (result : Except Fault Bool × Engine) : Prop where
  positive : Positive result.2.phase
  stuck : ∀ fault, result.1 = .error fault → fault.isFatal = true → Stuck adler result.2

variable {adler : UInt32} {codes : Codes} {r : Reader} {w : Window} {last : Bool}

theorem Fares.ok {moved : Bool} {e : Engine} (h : Positive e.phase) : Fares adler (.ok moved, e) :=
  ⟨h, nofun⟩

theorem Fares.minor {fault : Fault} {e : Engine} (h : Positive e.phase)
    (hminor : fault.isFatal = false) : Fares adler (.error fault, e) :=
  ⟨h, by rintro _ ⟨⟩ hfatal; exact absurd hfatal (hminor ▸ Bool.false_ne_true)⟩

theorem Fares.fatal {fault : Fault} {e : Engine} (h : Positive e.phase) (hstuck : Stuck adler e) :
    Fares adler (.error fault, e) :=
  ⟨h, fun _ _ _ => hstuck⟩

theorem copyBack_of_far (length : Nat) {distance : Nat} (hfar : w.history < distance) :
    ∃ fault, w.copyBack length distance = (.error fault, w) := by
  rcases w.copyBack_ends length distance with ⟨-, -, hnear⟩ | hfailed | hfailed | ⟨hfailed, -⟩
  · exact absurd hfar (Nat.not_lt.mpr hnear)
  all_goals exact ⟨_, hfailed⟩

-- Only a distance that is too far is a fatal fault.
theorem copyBack_fares (codes : Codes) (length extra : Nat) {distance : Nat}
    (hpositive : 0 < distance) (r : Reader) {fault : Fault} {w' : Window}
    (h : w.copyBack length distance = (.error fault, w')) :
    Fares adler (.error fault, ⟨.distanceBits codes length distance extra, r, w', last⟩) := by
  rcases w.copyBack_ends length distance with ⟨hdone, -⟩ | hfailed | hfailed | ⟨hfailed, hfar⟩
  · rw [h] at hdone
    cases hdone
  · cases h.symm.trans hfailed
    exact .minor hpositive rfl
  · cases h.symm.trans hfailed
    exact .minor hpositive rfl
  · cases h.symm.trans hfailed
    have hfar : w.history < distance := Nat.lt_of_not_le fun hnear => hfar ⟨hpositive, hnear⟩
    exact .fatal hpositive (.distanceBits codes length distance extra r w last hfar)

-- What a match may come to.
def AfterMatch.Fares (adler : UInt32) (last : Bool) : AfterMatch → Prop
  | .next _ _ => True
  | .halt outcome phase r w => Engine.Fares adler (outcome, ⟨phase, r, w, last⟩)

theorem fromDistanceBits_fares (codes : Codes) (length extra : Nat) {distance : Nat}
    (hpositive : 0 < distance) (r : Reader) (w : Window) :
    (fromDistanceBits codes length distance extra r w).Fares adler last := by
  rw [fromDistanceBits]
  cases r.read extra with
  | mk more next =>
      cases more with
      | none => exact .ok hpositive
      | some more =>
          dsimp only
          cases hcopy : w.copyBack length (distance + more) with
          | mk outcome w' =>
              cases outcome with
              | ok _ => trivial
              | error fault =>
                  exact copyBack_fares codes length extra (Nat.add_pos_left hpositive more) next hcopy

theorem distanceCode_positive {symbol distance extra : Nat}
    (h : distanceCode? symbol = some (distance, extra)) : 0 < distance := by
  have hall : ∀ code ∈ distanceCodes, 0 < code.1 := by decide
  rw [distanceCode?] at h
  exact hall _ (Array.mem_of_getElem? h)

theorem fromDistance_fares (codes : Codes) (length : Nat) (r : Reader) (w : Window) :
    (fromDistance codes length r w).Fares adler last := by
  rw [fromDistance]
  cases hsymbol : codes.distance.symbol r with
  | mk outcome next =>
      match outcome with
      | .error fault =>
          exact .fatal trivial (.distance codes length next w last (Table.refuses_of_symbol hsymbol))
      | .ok none => exact .ok trivial
      | .ok (some symbol) =>
          dsimp only
          cases hcode : distanceCode? symbol with
          | none => exact .minor trivial rfl
          | some code => exact fromDistanceBits_fares codes length _ (distanceCode_positive hcode) next w

theorem fromLengthBits_fares (codes : Codes) (length extra : Nat) (r : Reader) (w : Window) :
    (fromLengthBits codes length extra r w).Fares adler last := by
  rw [fromLengthBits]
  cases r.read extra with
  | mk more next =>
      cases more with
      | none => exact .ok trivial
      | some more => exact fromDistance_fares codes _ next w

theorem write_fares (codes : Codes) (byte : UInt8) (r : Reader) {fault : Fault} {w' : Window}
    (h : w.write byte = (.error fault, w')) :
    Fares adler (.error fault, ⟨.symbol codes, r, w', last⟩) := by
  rw [Window.write] at h
  split at h
  · cases h
  · cases h
    exact .minor trivial rfl

theorem symbolRound_fares (codes : Codes) (r : Reader) (w : Window) :
    (symbolRound codes (r, w)).elim (fun _ => True)
      (fun result => Fares adler (withLast last result)) := by
  rw [symbolRound]
  by_cases hfull : w.free < longestMatch
  · rw [if_pos hfull]
    exact .ok trivial
  rw [if_neg hfull]
  rcases hsymbol : codes.literal.symbol r with ⟨fault | _ | symbol, next⟩
  · exact .fatal trivial (.symbol codes next w last (Table.refuses_of_symbol hsymbol))
  · exact .ok trivial
  · dsimp only
    by_cases hliteral : symbol < endOfBlock
    · rw [if_pos hliteral]
      cases hwrite : w.write symbol.toUInt8 with
      | mk outcome w' =>
          cases outcome with
          | ok _ => trivial
          | error fault => exact write_fares codes _ next hwrite
    rw [if_neg hliteral]
    by_cases hend : symbol = endOfBlock
    · rw [if_pos hend]
      exact .ok trivial
    rw [if_neg hend]
    cases lengthCode? symbol with
    | none => exact .minor trivial rfl
    | some code =>
        have hmatch : (fromLengthBits codes code.1 code.2 next w).Fares adler last :=
          fromLengthBits_fares codes code.1 code.2 next w
        dsimp only
        cases hafter : fromLengthBits codes code.1 code.2 next w with
        | next r w => trivial
        | halt outcome phase r w =>
            rw [hafter] at hmatch
            exact hmatch

theorem symbols_fares (codes : Codes) (rounds : Nat) (r : Reader) (w : Window) :
    Fares adler (withLast last (symbols codes rounds r w)) :=
  Loop.run_rule (Q := fun result => Fares adler (withLast last result))
    (fun s _ => symbolRound_fares codes s.1 s.2)
    (fun s _ => Fares.ok (e := ⟨.symbol codes, s.1, s.2, last⟩) trivial) rounds trivial

theorem AfterMatch.Fares.symbols {result : AfterMatch} (h : result.Fares adler last) :
    Engine.Fares adler (withLast last (afterMatch codes result)) := by
  cases result with
  | next r w => exact symbols_fares codes _ r w
  | halt outcome phase r w => exact h

-- A header is refused, but the bits behind it are read again as one.
theorem headerStep_fares (r : Reader) (w : Window) :
    Fares adler ((headerStep r).1, ⟨(headerStep r).2.1, (headerStep r).2.2, w, last⟩) := by
  rw [headerStep]
  cases r.read 16 with
  | mk bits next =>
      cases bits with
      | none => exact .ok trivial
      | some bits =>
          dsimp only
          repeat' split
          all_goals first | exact .ok trivial | exact .minor trivial rfl

theorem blockStep_fares (r : Reader) (w : Window) :
    Fares adler ((blockStep last r).1,
      ⟨(blockStep last r).2.1, (blockStep last r).2.2.1, w, (blockStep last r).2.2.2⟩) := by
  rw [blockStep]
  cases r.read 3 with
  | mk bits next =>
      cases bits with
      | none => exact .ok trivial
      | some bits =>
          dsimp only
          split
          · exact .ok trivial
          · exact .ok trivial
          · exact .ok trivial
          · exact .minor trivial rfl

theorem codeLengthsStep_fares (lengths : CodeLengths) (r : Reader) (w : Window) :
    Fares adler ((codeLengthsStep lengths r).1,
      ⟨(codeLengthsStep lengths r).2.1, (codeLengthsStep lengths r).2.2, w, last⟩) := by
  have hreads := lengths.decode_reads r
  rw [codeLengthsStep]
  generalize lengths.decode r = result at hreads
  obtain ⟨outcome, lengths', next⟩ := result
  cases outcome with
  | error fault =>
      exact ⟨trivial, fun _ hfault hfatal =>
        .codeLengths lengths' next w last (hreads.stuck _ hfault hfatal)⟩
  | ok all =>
      cases all with
      | false => exact .ok trivial
      | true =>
          dsimp only
          cases hcodes : lengths'.codes with
          | ok codes => exact .ok trivial
          | error fault =>
              exact .fatal trivial
                (.codeLengths lengths' next w last (.complete (hreads.complete rfl) fault hcodes))

theorem trailerStep_fares (missing : Nat) (value : UInt32) (r : Reader) (hempty : w.pending = 0) :
    Fares adler ((trailerStep adler missing value r).1,
      ⟨(trailerStep adler missing value r).2.1, (trailerStep adler missing value r).2.2, w, last⟩) := by
  cases hword : readWord missing value r with
  | mk missing' rest =>
      obtain ⟨value', next⟩ := rest
      cases missing' with
      | succ missing' =>
          rw [trailerStep, hword]
          exact .ok trivial
      | zero =>
          rw [trailerStep_of_word adler hword]
          by_cases hright : adler = value'
          · rw [if_pos hright]
            exact .ok trivial
          · rw [if_neg hright]
            exact .fatal trivial (.trailer value' next w last hempty hright)

theorem step_fares (format : Format) (adler : UInt32) {e : Engine} (hpositive : Positive e.phase)
    (hempty : e.window.pending = 0) : Fares adler (step format adler e) := by
  obtain ⟨phase, r, w, last⟩ := e
  cases phase with
  | header => exact headerStep_fares r w
  | dictionary missing id => exact .ok trivial
  | block =>
      rw [step]
      dsimp only
      cases last with
      | true =>
          rw [if_pos rfl]
          cases format with
          | raw => exact .ok trivial
          | zlib =>
              rw [endStep]
              split <;> exact .ok trivial
      | false => exact blockStep_fares r w
  | storedLength =>
      rw [step]
      cases r.read 16 with
      | mk length next => cases length <;> exact .ok trivial
  | storedComplement length =>
      rw [step]
      cases r.read 16 with
      | mk complement next =>
          cases complement with
          | none => exact .ok trivial
          | some complement =>
              dsimp only
              split
              · exact .ok trivial
              · exact .minor trivial rfl
  | stored left =>
      rw [step]
      dsimp only
      split <;> exact .ok trivial
  | codeLengths lengths => exact codeLengthsStep_fares lengths r w
  | symbol codes =>
      show Fares adler (withLast last (symbols codes (r.available + 1) r w))
      exact symbols_fares codes _ r w
  | lengthBits codes length extra => exact (fromLengthBits_fares codes length extra r w).symbols
  | distance codes length => exact (fromDistance_fares codes length r w).symbols
  | distanceBits codes length distance extra =>
      exact (fromDistanceBits_fares codes length extra hpositive r w).symbols
  | trailer missing value => exact trailerStep_fares missing value r hempty
  | finished => exact .ok trivial

theorem Stuck.more {phase : Phase} (h : Stuck adler ⟨phase, r, w, last⟩) {more : Reader}
    (hfront : r.bits <+: more.bits) : Stuck adler ⟨phase, more, w, last⟩ := by
  cases h with
  | codeLengths lengths r w last hstuck =>
      exact .codeLengths lengths more w last (hstuck.more hfront)
  | symbol codes r w last hrefuses => exact .symbol codes more w last (hrefuses.more hfront)
  | distance codes length r w last hrefuses =>
      exact .distance codes length more w last (hrefuses.more hfront)
  | distanceBits codes length distance extra r w last hfar =>
      exact .distanceBits codes length distance extra more w last hfar
  | trailer value r w last hempty hwrong => exact .trailer value more w last hempty hwrong

-- A drain keeps the history, and an empty window has nothing to add to the
-- checksum.
theorem Stuck.drained {phase : Phase} (h : Stuck adler ⟨phase, r, w, last⟩) {adler' : UInt32}
    {w' : Window} (hhistory : w'.history = w.history)
    (hempty : w.pending = 0 → w'.pending = 0 ∧ adler' = adler) :
    Stuck adler' ⟨phase, r, w', last⟩ := by
  cases h with
  | codeLengths lengths r w last hstuck => exact .codeLengths lengths r w' last hstuck
  | symbol codes r w last hrefuses => exact .symbol codes r w' last hrefuses
  | distance codes length r w last hrefuses => exact .distance codes length r w' last hrefuses
  | distanceBits codes length distance extra r w last hfar =>
      exact .distanceBits codes length distance extra r w' last (hhistory ▸ hfar)
  | trailer value r w last hnone hwrong =>
      obtain ⟨hstill, rfl⟩ := hempty hnone
      exact .trailer value r w' last hstill hwrong

-- A step leaves the engine where it is stuck.
theorem Stuck.step {e : Engine} (h : Stuck adler e) (format : Format) (hempty : e.window.pending = 0) :
    Stuck adler (Engine.step format adler e).2 := by
  have hroom : ¬e.window.free < longestMatch := by
    rw [Window.free, hempty]
    decide
  cases h with
  | codeLengths lengths r w last hstuck =>
      rw [Engine.step]
      dsimp only
      rw [codeLengthsStep]
      rcases hstuck.decode with ⟨c', next, hdecode, hagain, fault, hrefused⟩ |
        ⟨fault, c', next, hdecode, hagain⟩
      · rw [hdecode]
        dsimp only
        rw [hrefused]
        exact .codeLengths c' next w last hagain
      · rw [hdecode]
        exact .codeLengths c' next w last hagain
  | symbol codes r w last hrefuses =>
      obtain ⟨fault, next, hsymbol, hagain⟩ := hrefuses.symbol
      rw [Engine.step]
      dsimp only
      rw [symbols, Loop.run, symbolRound, if_neg hroom, hsymbol]
      exact .symbol codes next w last hagain
  | distance codes length r w last hrefuses =>
      obtain ⟨fault, next, hsymbol, hagain⟩ := hrefuses.symbol
      rw [Engine.step]
      dsimp only
      rw [fromDistance, hsymbol]
      exact .distance codes length next w last hagain
  | distanceBits codes length distance extra r w last hfar =>
      rw [Engine.step]
      dsimp only
      rw [fromDistanceBits]
      cases r.read extra with
      | mk more next =>
          cases more with
          | none => exact .distanceBits codes length distance extra next w last hfar
          | some more =>
              have hfarther : w.history < distance + more := by omega
              obtain ⟨fault, hcopy⟩ := copyBack_of_far length hfarther
              dsimp only
              rw [hcopy]
              exact .distanceBits codes length (distance + more) extra next w last hfarther
  | trailer value r w last hnone hwrong =>
      rw [Engine.step]
      dsimp only
      rw [trailerStep_of_word adler rfl, if_neg hwrong]
      exact .trailer value r w last hnone hwrong

theorem Stuck.ne_finished {e : Engine} (h : Stuck adler e) : e.phase ≠ .finished := by
  cases h <;> exact nofun

end Engine

end Deflate

end Unpack
