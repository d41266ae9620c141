import Unpack.Proofs.Checksum.Adler32
import Unpack.Proofs.Deflate.Step

namespace Unpack.Deflate.Decoder

open Bits (Reader)
open Engine (Follows Halted Residual)
open Reference

-- The decoder has `q` left to do. Of the output behind the preset dictionary,
-- `produced` bytes are drained, and a zlib checksum covers them.
structure Stands (s : Decoder) (preset : Nat) (history : List UInt8) (q : Decoding Unit) :
    Prop where
  engine : s.engine.Stands s.settings.format (preset + s.produced) history q
  adler : s.settings.format = .zlib →
    s.adler = ((history.drop preset).take s.produced).foldl Adler32.addByte .empty

variable {s : Decoder} {preset : Nat} {history : List UInt8} {q : Decoding Unit}

-- What the reference decoder sees of a decoder.
def seen (s : Decoder) (preset : Nat) (history : List UInt8) : State :=
  .at history preset s.engine.input

theorem Stands.length_eq (h : s.Stands preset history q) :
    history.length = preset + s.produced + s.engine.window.pending :=
  h.engine.settled

-- With nothing pending, the checksum covers all output.
theorem Stands.adler_of (h : s.Stands preset history q) (hpending : s.engine.window.pending = 0)
    (hformat : s.settings.format = .zlib) :
    s.adler.value = Adler32.of ⟨(history.drop preset).toArray⟩ := by
  have hlength := h.length_eq
  rw [Adler32.of, Adler32.update_eq_foldl Adler32.reduced_empty, h.adler hformat,
    List.take_of_length_le (by rw [List.length_drop]; omega)]

theorem residual_feed {format : Format} {last : Bool} {bits : List Bool} {phase : Phase}
    (h : Residual format last bits phase q) (more : List Bool) (hmore : more.length % 8 = 0) :
    Residual format last (bits ++ more) phase q := by
  have haligned : bits.length % 8 = 0 → (bits ++ more).length % 8 = 0 := by
    intro h
    rw [List.length_append]
    omega
  cases h with
  | header hformat hlast => exact .header hformat hlast
  | dictionary missing id hlast => exact .dictionary missing id hlast
  | block => exact .block
  | storedLength h => exact .storedLength (haligned h)
  | storedComplement length h => exact .storedComplement length (haligned h)
  | stored left h => exact .stored left (haligned h)
  | codeLengths c q hawaits => exact .codeLengths c q hawaits
  | symbol codes literal distance hcodes => exact .symbol codes literal distance hcodes
  | inMatch codes literal distance hcodes phase q hinside =>
      exact .inMatch codes literal distance hcodes phase q hinside
  | trailer missing value hformat => exact .trailer missing value hformat
  | finished => exact .finished

theorem residual_finished {format : Format} {last : Bool} {bits : List Bool}
    (h : Residual format last bits .finished q) : q = pure () := by
  cases h with
  | inMatch codes literal distance hcodes phase q hinside => cases hinside
  | finished => rfl

theorem residual_dictionary {format : Format} {last : Bool} {bits : List Bool} {missing : Nat}
    {id : UInt32} (h : Residual format last bits (.dictionary missing id) q) :
    q = dictionary missing id := by
  cases h with
  | dictionary => rfl
  | inMatch codes literal distance hcodes phase q hinside => cases hinside

-- No block is open before the dictionary is there.
theorem residual_dictionary_last {format : Format} {last : Bool} {bits : List Bool} {missing : Nat}
    {id : UInt32} (h : Residual format last bits (.dictionary missing id) q) : last = false := by
  cases h with
  | dictionary missing id hlast => exact hlast
  | inMatch codes literal distance hcodes phase q hinside => cases hinside

theorem phase_of_isFinished (h : s.isFinished = true) :
    s.engine.phase = .finished ∧ s.engine.window.pending = 0 := by
  unfold isFinished at h
  split at h
  · rename_i hphase
    exact ⟨hphase, of_decide_eq_true h⟩
  · cases h

theorem phase_of_awaitedDictionary {id : UInt32} (h : s.awaitedDictionary = some id) :
    s.engine.phase = .dictionary 0 id := by
  unfold awaitedDictionary at h
  split at h
  · rename_i hphase
    cases h
    exact hphase
  · cases h

theorem length_ofBytes_mod (bytes : List UInt8) : (Bits.ofBytes bytes).length % 8 = 0 := by
  rw [Bits.length_ofBytes]
  omega

theorem Stands.feed (h : s.Stands preset history q) (data : ByteArray) :
    (s.feed data).Stands preset history q := by
  obtain ⟨⟨hresidual, hshows, hsettled⟩, hadler⟩ := h
  refine ⟨⟨?_, hshows, hsettled⟩, hadler⟩
  show Residual _ _ (s.engine.input.feed data).bits _ _
  rw [Reader.bits_feed]
  exact residual_feed hresidual _ (length_ofBytes_mod _)

theorem seen_feed (s : Decoder) (preset : Nat) (history : List UInt8) (data : ByteArray) :
    (s.feed data).seen preset history =
      (s.seen preset history).feed (Bits.ofBytes data.data.toList) := by
  show State.at history preset (s.engine.input.feed data) = _
  simp only [State.at, Reader.bits_feed, Reader.consumed_feed, seen, State.feed]

-- The output that was handed out.
def given (s : Decoder) (preset : Nat) (history : List UInt8) : List UInt8 :=
  (history.drop preset).take s.produced

theorem Stands.length_given (h : s.Stands preset history q) :
    (s.given preset history).length = s.produced := by
  have := h.length_eq
  rw [given, List.length_take, List.length_drop]
  omega

-- With nothing pending, all output was handed out.
theorem Stands.given_output (h : s.Stands preset history q) (hempty : s.engine.window.pending = 0) :
    s.given preset history = (s.seen preset history).output ∧
      s.produced = (s.seen preset history).output.length := by
  have hlength := h.length_eq
  have houtput : (history.drop preset).length = s.produced := by
    rw [List.length_drop]
    omega
  refine ⟨?_, houtput.symm⟩
  rw [given, ← houtput, List.take_length]
  rfl

-- What was handed out stays when the history grows.
theorem Stands.given_eq (h : s.Stands preset history q) {s' : Decoder} {longer : List UInt8}
    (hstarts : history <+: longer) (hproduced : s'.produced = s.produced) :
    s'.given preset longer = s.given preset history := by
  have := h.length_eq
  obtain ⟨more, rfl⟩ := hstarts
  rw [given, given, hproduced, List.drop_append_of_le_length (by omega),
    List.take_append_of_le_length (by rw [List.length_drop]; omega)]

-- Draining hands out the oldest bytes that were not handed out before.
theorem Stands.drain (h : s.Stands preset history q) (n : Nat) :
    (s.drain n).2.Stands preset history q ∧
      (s.drain n).2.given preset history = s.given preset history ++ (s.drain n).1.data.toList ∧
      (s.drain n).1.size = min n s.engine.window.pending ∧
      (s.drain n).2.engine.window.pending = s.engine.window.pending - n := by
  have hlength := h.length_eq
  obtain ⟨settings, ⟨phase, r, w, last⟩, adler, supplied, produced⟩ := s
  obtain ⟨⟨hresidual, hshows, hsettled⟩, hadler⟩ := h
  dsimp only at hlength hresidual hshows hsettled hadler
  obtain ⟨hbytes, hafter⟩ := Window.drain_shows hshows n
  have hstart : history.length - w.pending = preset + produced := by omega
  simp only [Log.drain, hstart] at hbytes hafter
  have hsize : (w.drain n).1.size = min n w.pending := by
    rw [← Reader.length_toList, hbytes, List.length_take, List.length_drop]
    omega
  have hgiven : (history.drop preset).take (produced + (w.drain n).1.size) =
      (history.drop preset).take produced ++ (w.drain n).1.data.toList := by
    rw [List.take_add, List.drop_drop, hbytes, hsize]
    congr 1
    rw [List.take_eq_take_iff, List.length_drop]
    omega
  refine ⟨⟨⟨hresidual, hafter.self, ?_⟩, fun hformat => ?_⟩, hgiven, hsize, hafter.pending⟩
  · have hpending := hafter.pending
    simp only [Decoder.drain] at *
    omega
  · simp only [Decoder.drain] at *
    rw [hformat, hgiven, List.foldl_append, ← hadler hformat]
    refine Adler32.update_eq_foldl ?_ _
    rw [hadler hformat]
    exact Adler32.reduced_foldl Adler32.reduced_empty _

-- A step with nothing pending.
inductive Stepped (s : Decoder) (preset : Nat) (history : List UInt8) (q : Decoding Unit) :
    Except Fault Bool × Decoder → Prop where
  | failed (fault : Fault) (s' : Decoder) (t : State)
      (hleads : Leads q (s.seen preset history) (fail fault) t) :
      Stepped s preset history q (.error fault, s')
  | moved (moved : Bool) (s' : Decoder) (longer : List UInt8) (q' : Decoding Unit)
      (hstands : s'.Stands preset longer q')
      (hleads : Leads q (s.seen preset history) q' (s'.seen preset longer))
      (hfollows : Follows (s.seen preset history) (s'.seen preset longer))
      (hsettings : s'.settings = s.settings) (hproduced : s'.produced = s.produced)
      (hhalted : moved = false → s'.engine.window.pending = 0 →
        Halted q' (s'.seen preset longer) s'.engine.phase)
      (hprogress : moved = true ∨ 0 < s'.engine.window.pending → s'.engine.effort < s.engine.effort) :
      Stepped s preset history q (.ok moved, s')

theorem Stands.step (h : s.Stands preset history q) (hpending : s.engine.window.pending = 0) :
    Stepped s preset history q s.step := by
  have hsteps := Engine.step_steps h.engine hpending (h.adler_of hpending)
  obtain ⟨settings, engine, adler, supplied, produced⟩ := s
  simp only [Decoder.step]
  generalize engine.step settings.format adler.value = result at hsteps
  cases hsteps with
  | failed fault e t hleads => exact .failed fault _ t hleads
  | moved moved e q' longer hstands hleads hfollows hhalted hprogress =>
      refine .moved moved _ longer q' ⟨hstands, fun hformat => ?_⟩ hleads hfollows rfl rfl hhalted
        hprogress
      exact (h.adler hformat).trans (congrArg (List.foldl _ _)
        (h.given_eq hfollows.history rfl).symm)

-- What a call that asks for `n` bytes comes to, with `out` at hand before.
inductive Returns (s : Decoder) (preset : Nat) (history : List UInt8) (q : Decoding Unit) (n : Nat)
    (out : ByteArray) : Except Fault ByteArray × Decoder → Prop where
  | failed (fault : Fault) (s' : Decoder) (t : State)
      (hleads : Leads q (s.seen preset history) (fail fault) t) :
      Returns s preset history q n out (.error fault, s')
  | returned (new : List UInt8) (bytes : ByteArray) (s' : Decoder) (longer : List UInt8)
      (q' : Decoding Unit) (hstands : s'.Stands preset longer q')
      (hleads : Leads q (s.seen preset history) q' (s'.seen preset longer))
      (hfollows : Follows (s.seen preset history) (s'.seen preset longer))
      (hsettings : s'.settings = s.settings) (hbytes : bytes.data.toList = out.data.toList ++ new)
      (hgiven : s'.given preset longer = s.given preset history ++ new)
      (hend : bytes.size = n ∨ s'.engine.window.pending = 0 ∧
        Halted q' (s'.seen preset longer) s'.engine.phase) :
      Returns s preset history q n out (.ok bytes, s')

-- The same decoder further on, and with more at hand.
inductive Further (s : Decoder) (preset : Nat) (history : List UInt8) (q : Decoding Unit) (n : Nat)
    (out : ByteArray) : ByteArray → Decoder → List UInt8 → Decoding Unit → Prop where
  | further (new : List UInt8) (bytes : ByteArray) (s' : Decoder) (longer : List UInt8)
      (q' : Decoding Unit) (hstands : s'.Stands preset longer q')
      (hleads : Leads q (s.seen preset history) q' (s'.seen preset longer))
      (hfollows : Follows (s.seen preset history) (s'.seen preset longer))
      (hsettings : s'.settings = s.settings) (hbytes : bytes.data.toList = out.data.toList ++ new)
      (hgiven : s'.given preset longer = s.given preset history ++ new) (hsize : bytes.size ≤ n) :
      Further s preset history q n out bytes s' longer q'

theorem Stands.further_self (h : s.Stands preset history q) {n : Nat} {out : ByteArray}
    (hout : out.size ≤ n) : Further s preset history q n out out s history q :=
  .further [] out s history q h (Leads.refl _ _) (Follows.refl _) rfl (List.append_nil _).symm
    (List.append_nil _).symm hout

section Further

variable {s₁ : Decoder} {longer : List UInt8} {q₁ : Decoding Unit} {n : Nat} {out bytes : ByteArray}

theorem Further.trans (h : Further s preset history q n out bytes s₁ longer q₁) {all : ByteArray}
    {s₂ : Decoder} {longest : List UInt8} {q₂ : Decoding Unit}
    (hnext : Further s₁ preset longer q₁ n bytes all s₂ longest q₂) :
    Further s preset history q n out all s₂ longest q₂ := by
  obtain ⟨new, _, _, _, _, -, hleads, hfollows, hsettings, hbytes, hgiven, -⟩ := h
  obtain ⟨more, _, _, _, _, hstands, hleads', hfollows', hsettings', hbytes', hgiven', hsize⟩ := hnext
  refine .further (new ++ more) all s₂ longest q₂ hstands (hleads.trans hleads')
    (hfollows.trans hfollows') (hsettings'.trans hsettings) ?_ ?_ hsize
  · rw [hbytes', hbytes, List.append_assoc]
  · rw [hgiven', hgiven, List.append_assoc]

theorem Further.fails (h : Further s preset history q n out bytes s₁ longer q₁) {fault : Fault}
    {t : State} (hfails : Leads q₁ (s₁.seen preset longer) (fail fault) t) (s' : Decoder) :
    Returns s preset history q n out (.error fault, s') := by
  obtain ⟨_, _, _, _, _, -, hleads, -, -, -, -, -⟩ := h
  exact .failed fault s' t (hleads.trans hfails)

theorem Further.returned (h : Further s preset history q n out bytes s₁ longer q₁)
    (hend : bytes.size = n ∨ s₁.engine.window.pending = 0 ∧
      Halted q₁ (s₁.seen preset longer) s₁.engine.phase) :
    Returns s preset history q n out (.ok bytes, s₁) := by
  obtain ⟨new, _, _, _, _, hstands, hleads, hfollows, hsettings, hbytes, hgiven, -⟩ := h
  exact .returned new bytes s₁ longer q₁ hstands hleads hfollows hsettings hbytes hgiven hend

theorem Further.returns (h : Further s preset history q n out bytes s₁ longer q₁)
    {result : Except Fault ByteArray × Decoder}
    (hreturns : Returns s₁ preset longer q₁ n bytes result) : Returns s preset history q n out result := by
  cases hreturns with
  | failed fault s' t hfails => exact h.fails hfails s'
  | returned new all s' longest q' hstands hleads hfollows hsettings hbytes hgiven hend =>
      obtain ⟨old, _, _, _, _, -, hleads₁, hfollows₁, hsettings₁, hbytes₁, hgiven₁, -⟩ := h
      refine .returned (old ++ new) all s' longest q' hstands (hleads₁.trans hleads)
        (hfollows₁.trans hfollows) (hsettings.trans hsettings₁) ?_ ?_ hend
      · rw [hbytes, hbytes₁, List.append_assoc]
      · rw [hgiven, hgiven₁, List.append_assoc]

end Further

-- Draining hands out what is given and leaves the rest to do.
theorem Stands.drain_further (h : s.Stands preset history q) {n : Nat} {out : ByteArray}
    (hout : out.size ≤ n) :
    Further s preset history q n out (out ++ (s.drain (n - out.size)).1) (s.drain (n - out.size)).2
        history q ∧
      ((out ++ (s.drain (n - out.size)).1).size = n ∨
        (s.drain (n - out.size)).2.engine.window.pending = 0) := by
  obtain ⟨hstands, hgiven, hsize, hpending⟩ := h.drain (n - out.size)
  have htotal := ByteArray.size_append (a := out) (b := (s.drain (n - out.size)).1)
  refine ⟨.further _ _ _ _ _ hstands (Leads.refl _ _) (Follows.refl _) rfl ?_ hgiven ?_, ?_⟩
  · rw [ByteArray.data_append, Array.toList_append]
  · omega
  · omega

-- One round of a call goes further, unless it ends the call.
theorem Stands.readRound (h : s.Stands preset history q) {n : Nat} {out : ByteArray}
    (hout : out.size ≤ n) :
    (Decoder.readRound n (out, s)).elim
      (fun t => (∃ longer q', Further s preset history q n out t.1 t.2 longer q') ∧
        t.2.engine.effort < s.engine.effort)
      (Returns s preset history q n out) := by
  obtain ⟨hfurther, hdrained⟩ := h.drain_further hout
  have heffort : (s.drain (n - out.size)).2.engine.effort = s.engine.effort := rfl
  rw [Decoder.readRound]
  generalize s.drain (n - out.size) = drained at *
  obtain ⟨bytes, s₁⟩ := drained
  dsimp only at *
  by_cases hfull : (out ++ bytes).size = n
  · rw [if_pos hfull]
    exact hfurther.returned (Or.inl hfull)
  · rw [if_neg hfull]
    obtain ⟨_, _, _, _, _, hstands, -, -, -, -, -, hsize⟩ := id hfurther
    have hstep := hstands.step (hdrained.resolve_left hfull)
    generalize s₁.step = result at hstep
    cases hstep with
    | failed fault s' t hfails => exact hfurther.fails hfails s'
    | moved moved s' longer q' hstands' hmoves hgrows hsettings hproduced hhalted hprogress =>
        have hmoved : Further s preset history q n out (out ++ bytes) s' longer q' :=
          hfurther.trans (.further [] _ s' longer q' hstands' hmoves hgrows hsettings
            (List.append_nil _).symm
            ((hstands.given_eq hgrows.history hproduced).trans (List.append_nil _).symm) hsize)
        dsimp only
        split
        · rename_i hstuck
          simp only [Bool.and_eq_true, Bool.not_eq_true', decide_eq_true_eq] at hstuck
          exact hmoved.returned (Or.inr ⟨hstuck.2, hhalted hstuck.1 hstuck.2⟩)
        · rename_i hfree
          refine ⟨⟨longer, q', hmoved⟩, heffort ▸ hprogress ?_⟩
          simp only [Bool.and_eq_true, Bool.not_eq_true', decide_eq_true_eq, not_and] at hfree
          by_cases hmoved : moved = true
          · exact Or.inl hmoved
          · exact Or.inr (Nat.pos_of_ne_zero (hfree (by simpa using hmoved)))

theorem Stands.run (h : s.Stands preset history q) (n rounds : Nat) (out : ByteArray)
    (hout : out.size ≤ n) (hrounds : s.engine.effort < rounds) :
    Returns s preset history q n out (Decoder.run n rounds out s) := by
  refine Loop.run_rule_of_measure
    (P := fun t => ∃ longer q', Further s preset history q n out t.1 t.2 longer q')
    (fun t : ByteArray × Decoder => t.2.engine.effort + 1) (fun t ht => ?_)
    (fun t _ hnone => absurd hnone (Nat.succ_ne_zero _)) hrounds ⟨history, q, h.further_self hout⟩
  obtain ⟨bytes, s₁⟩ := t
  obtain ⟨longer, q₁, hfurther⟩ := ht
  dsimp only at hfurther
  obtain ⟨_, _, _, _, _, hstands, -, -, -, -, -, hsize⟩ := id hfurther
  have hround := hstands.readRound hsize
  generalize Decoder.readRound n (bytes, s₁) = result at hround
  cases result with
  | inl t =>
      obtain ⟨⟨longest, q₂, hnext⟩, hless⟩ := hround
      exact ⟨⟨longest, q₂, hfurther.trans hnext⟩, Nat.succ_lt_succ hless⟩
  | inr result => exact hfurther.returns hround

-- The rounds of a call suffice.
theorem Stands.read (h : s.Stands preset history q) (n : Nat) :
    Returns s preset history q n ByteArray.empty (s.read n) := by
  refine h.run n s.rounds _ (Nat.zero_le _) ?_
  have hrank : Engine.rank s.engine.phase ≤ 2 := by
    unfold Engine.rank
    split <;> omega
  rw [Engine.effort, rounds, Reader.length_bits]
  omega

-- Output takes from the capacity.
theorem Stands.capacity_le (h : s.Stands preset history q) {s' : Decoder} {longer : List UInt8}
    {q' : Decoding Unit} (h' : s'.Stands preset longer q')
    (hfollows : Follows (s.seen preset history) (s'.seen preset longer)) {new : List UInt8}
    (hgiven : s'.given preset longer = s.given preset history ++ new) :
    s'.capacity + new.length ≤ s.capacity := by
  have hlength := h.length_eq
  have hlength' := h'.length_eq
  have hproduced := congrArg List.length hgiven
  have hgrowth := hfollows.growth
  rw [List.length_append, h.length_given, h'.length_given] at hproduced
  simp only [seen, State.at, Engine.longestMatch, Reader.length_bits] at hgrowth
  simp only [capacity]
  omega

-- A fresh decoder has the whole stream to do, and no bits to begin with.
theorem new_stands (settings : Settings) :
    (new settings).Stands 0 [] (stream settings.format) := by
  refine ⟨⟨?_, Window.shows_empty, rfl⟩, fun _ => rfl⟩
  unfold new
  cases settings.format with
  | raw => exact .block
  | zlib => exact .header rfl rfl

theorem seen_new (settings : Settings) : (new settings).seen 0 [] = .start [] [] :=
  rfl

theorem new_halted (settings : Settings) :
    Halted (stream settings.format) ((new settings).seen 0 []) (new settings).engine.phase := by
  apply Halted.starved
  rw [seen_new]
  cases settings.format with
  | raw =>
      rw [stream, blocksToEnd_eq_number]
      exact (starves_number 3 _ (by decide)).bind _
  | zlib => exact (starves_number 16 _ (by decide)).bind _

end Unpack.Deflate.Decoder
