import Unpack.Proofs.Deflate.CodeLengths
import Unpack.Proofs.Deflate.Matches

namespace Unpack.Deflate.Engine

open Bits (Reader)
open Reference

-- What follows a block, or the last one.
def after (format : Format) (last : Bool) : Decoding Unit :=
  if last then ending format else blocksToEnd format

def itemsToEnd (format : Format) (last : Bool) (literal distance : Code) : Decoding Unit := do
  items literal distance
  after format last

-- What is left to do in each phase. Stored bytes stand at byte boundaries.
inductive Residual (format : Format) (last : Bool) (bits : List Bool) :
    Phase → Decoding Unit → Prop where
  | header (hformat : format = .zlib) (hlast : last = false) :
      Residual format last bits .header (stream .zlib)
  | dictionary (missing : Nat) (id : UInt32) (hlast : last = false) :
      Residual format last bits (.dictionary missing id) (dictionary missing id)
  | block : Residual format last bits .block (after format last)
  | storedLength (haligned : bits.length % 8 = 0) :
      Residual format last bits .storedLength (do storedLength; after format last)
  | storedComplement (length : Nat) (haligned : bits.length % 8 = 0) :
      Residual format last bits (.storedComplement length)
        (do storedComplement length; after format last)
  | stored (left : Nat) (haligned : bits.length % 8 = 0) :
      Residual format last bits (.stored left) (do bytes left; after format last)
  | codeLengths (c : CodeLengths) (q : Decoding (Code × Code)) (hawaits : c.Awaits q) :
      Residual format last bits (.codeLengths c) (do
        let (literal, distance) ← q
        itemsToEnd format last literal distance)
  | symbol (codes : Codes) (literal distance : Code) (hcodes : codes.Decodes literal distance) :
      Residual format last bits (.symbol codes) (itemsToEnd format last literal distance)
  | inMatch (codes : Codes) (literal distance : Code) (hcodes : codes.Decodes literal distance)
      (phase : Phase) (q : Decoding Unit) (hinside : InMatch codes distance phase q) :
      Residual format last bits phase (do q; itemsToEnd format last literal distance)
  | trailer (missing : Nat) (value : UInt32) (hformat : format = .zlib) :
      Residual format last bits (.trailer missing value) (do checksum (← word missing value))
  | finished : Residual format last bits .finished (pure ())

-- The engine has `q` left to do behind the given history, of which all but
-- `settled` bytes are in the window and not drained.
structure Stands (format : Format) (settled : Nat) (history : List UInt8) (e : Engine)
    (q : Decoding Unit) : Prop where
  residual : Residual format e.last e.input.bits e.phase q
  shows : e.window.Shows ⟨history, e.window.pending⟩
  settled : history.length = settled + e.window.pending

-- Nothing can be done: the stream has ended, or waits for a dictionary or bits.
inductive Halted (q : Decoding Unit) (s : State) : Phase → Prop where
  | finished : Halted q s .finished
  | awaiting (id : UInt32) : Halted q s (.dictionary 0 id)
  | starved (phase : Phase) (hstarves : Starves q s) : Halted q s phase

-- The history only grows, by at most the longest match for each bit.
structure Follows (s t : State) : Prop where
  history : s.history <+: t.history
  growth : t.history.length + longestMatch * t.bits.length ≤
    s.history.length + longestMatch * s.bits.length

theorem Follows.refl (s : State) : Follows s s :=
  ⟨List.prefix_refl _, Nat.le_refl _⟩

theorem Follows.trans {s t u : State} (h : Follows s t) (hnext : Follows t u) : Follows s u :=
  ⟨h.history.trans hnext.history, Nat.le_trans hnext.growth h.growth⟩

theorem follows_at {history : List UInt8} {preset : Nat} {r next : Reader}
    (hbits : next.bits.length ≤ r.bits.length) :
    Follows (.at history preset r) (.at history preset next) := by
  refine ⟨List.prefix_refl _, ?_⟩
  simp only [State.at, longestMatch]
  omega

-- Steps that take no bits go down this order.
def rank : Phase → Nat
  | .stored _ => 2
  | .block | .codeLengths _ => 1
  | _ => 0

-- What is left to do at most. Each step that gets anywhere leaves less.
def effort (e : Engine) : Nat :=
  4 * e.input.bits.length + rank e.phase

-- What a step from `p` comes to.
inductive Steps (format : Format) (settled preset : Nat) (p : Decoding Unit) (s : State)
    (bound : Nat) : Except Fault Bool × Engine → Prop where
  | failed (fault : Fault) (e : Engine) (t : State) (hleads : Leads p s (fail fault) t) :
      Steps format settled preset p s bound (.error fault, e)
  | moved (moved : Bool) (e : Engine) (q : Decoding Unit) (history : List UInt8)
      (hstands : e.Stands format settled history q)
      (hleads : Leads p s q (.at history preset e.input))
      (hfollows : Follows s (.at history preset e.input))
      (hhalted : moved = false → e.window.pending = 0 → Halted q (.at history preset e.input) e.phase)
      (hprogress : moved = true ∨ 0 < e.window.pending → e.effort < bound) :
      Steps format settled preset p s bound (.ok moved, e)

theorem Steps.after {format : Format} {settled preset : Nat} {p q : Decoding Unit} {s t : State}
    {bound : Nat} {result : Except Fault Bool × Engine}
    (h : Steps format settled preset q t bound result) (hleads : Leads p s q t)
    (hfollows : Follows s t) : Steps format settled preset p s bound result := by
  cases h with
  | failed fault e u h => exact .failed fault e u (hleads.trans h)
  | moved moved e r history hstands h hafter hhalted hprogress =>
      exact .moved moved e r history hstands (hleads.trans h) (hfollows.trans hafter) hhalted
        hprogress

section Symbols

variable {format : Format} {last : Bool} {codes : Codes} {literal distance : Code}
  {settled preset bound : Nat} {history : List UInt8} {r : Reader} {w : Window}

-- A whole engine out of what the loop over symbols keeps.
def withLast (last : Bool) (result : Except Fault Bool × Phase × Reader × Window) :
    Except Fault Bool × Engine :=
  (result.1, ⟨result.2.1, result.2.2.1, result.2.2.2, last⟩)

-- What is left to do once a symbol is decoded.
def afterSymbol (format : Format) (last : Bool) (literal distance : Code) (symbol : Nat) :
    Decoding Unit := do
  if ← meaning distance symbol then itemsToEnd format last literal distance else after format last

theorem itemsToEnd_eq (format : Format) (last : Bool) (literal distance : Code) :
    itemsToEnd format last literal distance =
      symbol literal >>= afterSymbol format last literal distance := by
  conv => lhs; rw [itemsToEnd, items_eq, bind_assoc]
  congr 1
  funext symbol
  rw [bind_assoc, afterSymbol]
  congr 1
  funext more
  cases more <;> rfl

-- A literal goes into the window and to the end of the history.
theorem write_leads (hshows : w.Shows ⟨history, w.pending⟩) (hroom : longestMatch ≤ w.free)
    (byte : UInt8) (preset : Nat) (r : Reader) :
    ∃ w', w.write byte = (.ok (), w') ∧ w'.Shows ⟨history ++ [byte], w'.pending⟩ ∧
      w'.pending = w.pending + 1 ∧
      Leads (emit byte) (.at history preset r) (pure ()) (.at (history ++ [byte]) preset r) := by
  obtain ⟨hanswer, hafter⟩ := Window.write_shows hshows byte
  have hfits : ¬Log.limit < w.pending + 1 := by
    simp only [Window.free, Window.span, longestMatch, Log.limit] at *
    omega
  rw [Log.write, if_neg hfits] at hanswer hafter
  exact ⟨_, Prod.ext hanswer rfl, hafter.self, hafter.pending, leads_emit byte _⟩

theorem InMatch.rank_eq {phase : Phase} {q : Decoding Unit} (h : InMatch codes distance phase q) :
    rank phase = 0 := by
  cases h <;> rfl

-- A halt inside a match.
theorem InMatch.steps {phase : Phase} {q p : Decoding Unit} {next : Reader}
    (h : InMatch codes distance phase q) (hcodes : codes.Decodes literal distance)
    (hshows : w.Shows ⟨history, w.pending⟩) (hsettled : history.length = settled + w.pending)
    (hleads : Leads p (.at history preset r) (do q; itemsToEnd format last literal distance)
      (.at history preset next))
    (hbits : next.bits.length ≤ r.bits.length) (hstarves : StarvesAt q next)
    (hprogress : 0 < w.pending → 4 * next.bits.length < bound) :
    Steps format settled preset p (.at history preset r) bound (.ok false, ⟨phase, next, w, last⟩) := by
  refine .moved false _ _ history ⟨.inMatch codes literal distance hcodes phase q h, hshows, hsettled⟩
    hleads (follows_at hbits) (fun _ _ => .starved _ ((hstarves.bind _) history preset)) fun hmoved => ?_
  have := hprogress (hmoved.resolve_left Bool.false_ne_true)
  simp only [effort, h.rank_eq]
  omega

-- What one round of the loop comes to: a halt, or the same loop further on.
inductive Round (format : Format) (last : Bool) (codes : Codes) (literal distance : Code)
    (settled preset bound : Nat) (history : List UInt8) (r : Reader) :
    (Reader × Window) ⊕ (Except Fault Bool × Phase × Reader × Window) → Prop where
  | halt (result : Except Fault Bool × Phase × Reader × Window)
      (hsteps : Steps format settled preset (itemsToEnd format last literal distance)
        (.at history preset r) bound (withLast last result)) :
      Round format last codes literal distance settled preset bound history r (.inr result)
  | again (next : Reader) (w' : Window) (longer : List UInt8)
      (hleads : Leads (itemsToEnd format last literal distance) (.at history preset r)
        (itemsToEnd format last literal distance) (.at longer preset next))
      (hbits : next.bits.length < r.bits.length) (hstarts : history <+: longer)
      (hgrowth : longer.length ≤ history.length + longestMatch)
      (hshows : w'.Shows ⟨longer, w'.pending⟩) (hsettled : longer.length = settled + w'.pending) :
      Round format last codes literal distance settled preset bound history r (.inl (next, w'))

theorem literal_round {symbol : Nat} {next : Reader} (hshows : w.Shows ⟨history, w.pending⟩)
    (hsettled : history.length = settled + w.pending) (hroom : longestMatch ≤ w.free)
    (hleads : LeadsAt (itemsToEnd format last literal distance) r
      (afterSymbol format last literal distance symbol) next)
    (hbits : next.bits.length < r.bits.length) (hliteral : symbol < endOfBlock) :
    ∃ w', w.write symbol.toUInt8 = (.ok (), w') ∧
      Round format last codes literal distance settled preset bound history r (.inl (next, w')) := by
  obtain ⟨w', hwrite, hshows', hpending, hemit⟩ :=
    write_leads hshows hroom symbol.toUInt8 preset next
  rw [afterSymbol, meaning, if_pos hliteral, bind_assoc] at hleads
  refine ⟨w', hwrite, .again next w' _ ((hleads history preset).trans (hemit.bind_pure _)) hbits
    (List.prefix_append _ _) ?_ hshows' ?_⟩
  · simp [longestMatch]
  · rw [List.length_append, List.length_singleton, hpending]
    omega

theorem match_round {symbol base extra : Nat} {next : Reader} (hcodes : codes.Decodes literal distance)
    (hshows : w.Shows ⟨history, w.pending⟩) (hsettled : history.length = settled + w.pending)
    (hroom : longestMatch ≤ w.free)
    (hbound : 4 * r.bits.length + (if w.pending = 0 then 0 else 2) ≤ bound)
    (hleads : LeadsAt (itemsToEnd format last literal distance) r
      (afterSymbol format last literal distance symbol) next)
    (hbits : next.bits.length < r.bits.length) (hlarge : ¬symbol < endOfBlock)
    (hmore : symbol ≠ endOfBlock) (hrange : lengthRange? (symbol - 257) = some (base, extra)) :
    Round format last codes literal distance settled preset bound history r
      (match fromLengthBits codes base extra next w with
        | .next r w => .inl (r, w)
        | .halt outcome phase r w => .inr (outcome, phase, r, w)) := by
  rw [afterSymbol, meaning, if_neg hlarge, if_neg hmore] at hleads
  simp only [hrange, bind_assoc] at hleads
  have hmatch : Matches codes distance settled (matchFromLengthBits distance base extra) history
    preset next w 1 (fromLengthBits codes base extra next w) :=
    fromLengthBits_matches hcodes hshows hsettled hroom (lengthRange?_le hrange) next
  generalize fromLengthBits codes base extra next w = result at hmatch
  cases hmatch with
  | next ahead w' longer hrest hstarts hgrowth hshows' hsettled' hbits' =>
      exact .again ahead w' longer ((hleads history preset).trans (hrest.bind_pure _)) (by omega)
        hstarts hgrowth hshows' hsettled'
  | failed fault phase ahead w' hrest =>
      exact .halt _ (.failed fault _ _ ((hleads history preset).trans (hrest.bind_fail _)))
  | starved phase ahead q hinside hrest hbits' hstarves =>
      have hsteps : Steps format settled preset (itemsToEnd format last literal distance)
          (.at history preset r) bound (.ok false, ⟨phase, ahead, w, last⟩) := by
        refine hinside.steps hcodes hshows hsettled
          ((hleads.trans (hrest.bind _)) history preset) (by omega) hstarves fun _ => ?_
        split at hbound <;> omega
      exact .halt _ hsteps

theorem symbolRound_round (hcodes : codes.Decodes literal distance)
    (hshows : w.Shows ⟨history, w.pending⟩) (hsettled : history.length = settled + w.pending)
    (hbound : 4 * r.bits.length + (if w.pending = 0 then 0 else 2) ≤ bound) :
    Round format last codes literal distance settled preset bound history r
      (symbolRound codes (r, w)) := by
  have hunfold := itemsToEnd_eq format last literal distance
  rw [symbolRound]
  by_cases hfull : w.free < longestMatch
  · rw [if_pos hfull]
    have hpending : w.pending ≠ 0 := by
      simp only [Window.free, Window.span, longestMatch] at hfull
      omega
    rw [if_neg hpending] at hbound
    refine .halt _ (.moved true _ _ history ⟨.symbol codes literal distance hcodes, hshows, hsettled⟩
      (Leads.refl _ _) (Follows.refl _) (fun h => Bool.noConfusion h) fun _ => ?_)
    simp only [effort, rank]
    omega
  · rw [if_neg hfull]
    have hroom := Nat.le_of_not_lt hfull
    rcases symbol_cases hcodes.literal r with ⟨symbol, next, hsymbol, -, hbits, hleads⟩ |
      ⟨next, hsymbol, hsame, hstarves⟩ | ⟨fault, next, hsymbol, hleads⟩
    · have hleads := hleads.bind_pure (afterSymbol format last literal distance)
      rw [← hunfold] at hleads
      simp only [hsymbol]
      by_cases hliteral : symbol < endOfBlock
      · obtain ⟨w', hwrite, hround⟩ :=
          literal_round hshows hsettled hroom hleads hbits hliteral
        simp only [if_pos hliteral, hwrite]
        exact hround
      · rw [if_neg hliteral]
        by_cases hend : symbol = endOfBlock
        · rw [if_pos hend]
          rw [afterSymbol, meaning, if_neg hliteral, if_pos hend, pure_bind] at hleads
          refine .halt _ (.moved true _ _ history ⟨.block, hshows, hsettled⟩ (hleads history preset)
            (follows_at (Nat.le_of_lt hbits)) (fun h => Bool.noConfusion h) fun _ => ?_)
          simp only [effort, rank]
          split at hbound <;> omega
        · rw [if_neg hend, lengthCode?_eq]
          cases hrange : lengthRange? (symbol - 257) with
          | some range =>
              exact match_round hcodes hshows hsettled hroom hbound hleads hbits hliteral hend hrange
          | none =>
              rw [afterSymbol, meaning, if_neg hliteral, if_neg hend] at hleads
              simp only [hrange] at hleads
              exact .halt _ (.failed _ _ _ ((hleads history preset).trans
                ((leads_corrupted _ _).bind_fail _)))
    · simp only [hsymbol]
      have hbits := congrArg List.length hsame.bits
      refine .halt _ (.moved false _ _ history
        ⟨.symbol codes literal distance hcodes, hshows, hsettled⟩
        (LeadsAt.of_same _ hsame history preset) (follows_at (Nat.le_of_eq hbits))
        (fun _ _ => .starved _ ?_) fun hprogress => ?_)
      · rw [hunfold]
        exact hstarves.bind _ history preset
      · have hpending := Nat.ne_of_gt (hprogress.resolve_left Bool.false_ne_true)
        rw [if_neg hpending] at hbound
        simp only [effort, rank, hbits, List.drop_zero]
        omega
    · simp only [hsymbol]
      refine .halt _ (.failed fault _ (.at history preset next) ?_)
      rw [hunfold]
      exact hleads.bind_fail _ history preset

-- Where the loop stands: what is left is the same, from further on.
def Continues (format : Format) (last : Bool) (literal distance : Code) (settled preset bound : Nat)
    (s : State) (r : Reader) (w : Window) : Prop :=
  ∃ history, Leads (itemsToEnd format last literal distance) s
      (itemsToEnd format last literal distance) (.at history preset r) ∧
    Follows s (.at history preset r) ∧ w.Shows ⟨history, w.pending⟩ ∧
    history.length = settled + w.pending ∧
    4 * r.bits.length + (if w.pending = 0 then 0 else 2) ≤ bound

-- Each round takes a bit, so there are rounds enough.
theorem symbols_steps (hcodes : codes.Decodes literal distance) (rounds : Nat)
    (hrounds : r.bits.length < rounds) (hshows : w.Shows ⟨history, w.pending⟩)
    (hsettled : history.length = settled + w.pending)
    (hbound : 4 * r.bits.length + (if w.pending = 0 then 0 else 2) ≤ bound) :
    Steps format settled preset (itemsToEnd format last literal distance) (.at history preset r) bound
      (withLast last (symbols codes rounds r w)) := by
  have hstart : Continues format last literal distance settled preset bound (.at history preset r) r w :=
    ⟨history, Leads.refl _ _, Follows.refl _, hshows, hsettled, hbound⟩
  refine Loop.run_rule_of_measure
    (P := fun s => Continues format last literal distance settled preset bound _ s.1 s.2)
    (Q := fun result => Steps format settled preset _ _ bound (withLast last result))
    (fun s : Reader × Window => s.1.bits.length + 1) (fun s hs => ?_)
    (fun s _ hnone => absurd hnone (Nat.succ_ne_zero _)) hrounds hstart
  obtain ⟨history', hleads, hfollows, hshows', hsettled', hbound'⟩ := hs
  have hround : Round format last codes literal distance settled preset bound history' s.1
    (symbolRound codes s) := symbolRound_round hcodes hshows' hsettled' hbound'
  generalize symbolRound codes s = result at hround
  cases hround with
  | halt result hsteps => exact hsteps.after hleads hfollows
  | again next w' longer hmore hbits hstarts hgrowth hshows'' hsettled'' =>
      refine ⟨⟨longer, hleads.trans hmore, hfollows.trans ⟨hstarts, ?_⟩, hshows'', hsettled'', ?_⟩,
        Nat.succ_lt_succ hbits⟩
      · simp only [State.at, longestMatch] at *
        omega
      · dsimp only
        split at hbound' <;> split <;> omega

-- From a halt inside a match on.
theorem afterMatch_steps (hcodes : codes.Decodes literal distance) {q : Decoding Unit}
    {result : AfterMatch} (hmatch : Matches codes distance settled q history preset r w 1 result)
    (hshows : w.Shows ⟨history, w.pending⟩) (hsettled : history.length = settled + w.pending)
    (hpending : w.pending = 0) (hbound : 4 * r.bits.length ≤ bound) :
    Steps format settled preset (do q; itemsToEnd format last literal distance)
      (.at history preset r) bound (withLast last (afterMatch codes result)) := by
  cases hmatch with
  | next next w' longer hrest hstarts hgrowth hshows' hsettled' hbits =>
      refine (symbols_steps hcodes (next.available + 1) ?_ hshows' hsettled' ?_).after
        (hrest.bind_pure _) ⟨hstarts, ?_⟩
      · exact Nat.lt_succ_of_le (Nat.le_of_eq next.length_bits)
      · split <;> omega
      · simp only [State.at, longestMatch] at *
        omega
  | failed fault phase next w' hrest => exact .failed fault _ _ (hrest.bind_fail _)
  | starved phase next q' hinside hrest hbits hstarves =>
      show Steps _ _ _ _ _ _ (.ok false, ⟨phase, next, w, last⟩)
      exact hinside.steps hcodes hshows hsettled (hrest.bind _ history preset) hbits hstarves
        (by omega)

end Symbols

end Unpack.Deflate.Engine
