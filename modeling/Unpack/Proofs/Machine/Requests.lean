import Unpack.Proofs.Deflate.Requests
import Unpack.Proofs.Machine.Steps

namespace Unpack

open Bits (Register Reader)
open Deflate (Decoder Engine Settings)
open Deflate.Decoder (Answer Request)

-- The answers to requests that are served one after the other, also after one
-- that fails.
def Deflate.Decoder.answers (s : Decoder) : List Request → List (Except Fault Answer)
  | [] => []
  | request :: requests => (s.serve request).1 :: (s.serve request).2.answers requests

namespace Machine

def serve (m : Machine) : Request → Except Trap (Except Fault Answer × Machine)
  | .feed data => return (.ok .done, m.feed data)
  | .read n => do
      let (outcome, m) ← m.readBytes n
      return (outcome.map .bytes, m)
  | .decode data n => do
      let (outcome, m) ← m.decode data n
      return (outcome.map fun piece => .piece piece.1 piece.2, m)
  | .supplyDictionary dictionary => do
      let (outcome, m) ← m.supplyDictionary dictionary
      return (outcome.map fun _ => .done, m)
  | .reset => return (.ok .done, m.reset)

def serveAll (m : Machine) : List Request → Except Trap (List (Except Fault Answer) × Machine)
  | [] => return ([], m)
  | request :: requests => do
      let (answer, m) ← m.serve request
      let (answers, m) ← m.serveAll requests
      return (answer :: answers, m)

-- A machine and a decoder at the same place.
structure Shows (m : Machine) (s : Decoder) : Prop where
  stands : m.Stands s.engine
  account : m.account = ⟨s.settings, s.adler, s.supplied, s.produced⟩

-- A request comes to the same answer, and to the same place.
def Serves {α : Type} (result : Except Trap (α × Machine)) (answer : α × Decoder) : Prop :=
  ∃ m, result = .ok (answer.1, m) ∧ m.Shows answer.2

theorem Serves.map {α β : Type} {result : Except Trap (α × Machine)} {answer : α × Decoder}
    (h : Serves result answer) (f : α → β) :
    Serves (do let (outcome, m) ← result; return (f outcome, m)) (f answer.1, answer.2) := by
  obtain ⟨m, rfl, hshows⟩ := h
  exact ⟨m, rfl, hshows⟩

theorem shows_new (settings : Settings) : (new settings).Shows (.new settings) := by
  obtain ⟨format, readSize⟩ := settings
  refine ⟨⟨?_, Register.shows_empty, Ring.shows_empty, rfl⟩, rfl⟩
  cases format <;> rfl

namespace Shows

variable {m : Machine} {s : Decoder}

theorem settings (h : m.Shows s) : m.settings = s.settings :=
  congrArg Account.settings h.account

theorem adler (h : m.Shows s) : m.adler = s.adler :=
  congrArg Account.adler h.account

theorem supplied (h : m.Shows s) : m.supplied = s.supplied :=
  congrArg Account.supplied h.account

theorem feed (h : m.Shows s) (data : ByteArray) : (m.feed data).Shows (s.feed data) := by
  obtain ⟨settings, ⟨phase, r, w, last⟩, adler, supplied, produced⟩ := s
  obtain ⟨⟨hphase, hinput, hwindow, hlast⟩, haccount⟩ := h
  cases haccount
  refine ⟨⟨?_, hinput.feed data, hwindow, hlast⟩, rfl⟩
  cases phase <;> exact hphase

theorem reset (h : m.Shows s) : m.reset.Shows s.reset := by
  rw [Machine.reset, Decoder.reset, h.settings]
  exact shows_new s.settings

theorem drain (h : m.Shows s) (n : Nat) : Serves (m.drain n) (s.drain n) := by
  obtain ⟨settings, ⟨phase, r, w, last⟩, adler, supplied, produced⟩ := s
  obtain ⟨⟨hphase, hinput, hwindow, hlast⟩, haccount⟩ := h
  cases haccount
  obtain ⟨ring', hdrain, hwindow'⟩ := hwindow.drain n
  rw [Machine.drain, hdrain]
  refine ⟨_, rfl, ⟨?_, hinput, hwindow', hlast⟩, rfl⟩
  cases phase <;> exact hphase

theorem step (h : m.Shows s) (hsound : s.Sound) (hempty : s.engine.window.pending = 0) :
    Serves m.step s.step := by
  obtain ⟨m', hstep, hstands, haccount⟩ := h.stands.step hsound hempty
  rw [h.settings, h.adler] at hstep hstands
  exact ⟨m', hstep, hstands, haccount.trans h.account⟩

-- One round of a call for `n` bytes.
theorem round (h : m.Shows s) (hsound : s.Sound) {n : Nat} {out : ByteArray} (hout : out.size ≤ n) :
    (Decoder.readRound n (out, s)).elim
      (fun next => ∃ m', m'.Shows next.2 ∧ ∀ rounds, run n (rounds + 1) out m = run n rounds next.1 m')
      (fun result => ∀ rounds, Serves (run n (rounds + 1) out m) result) := by
  obtain ⟨m₁, hdrain, h₁⟩ := h.drain (n - out.size)
  have hdrained := hsound.drain (n - out.size)
  obtain ⟨hsize, hpending, -⟩ := s.drain_window (n - out.size)
  rw [Decoder.readRound]
  generalize s.drain (n - out.size) = drained at hdrain h₁ hdrained hsize hpending
  obtain ⟨bytes, s₁⟩ := drained
  dsimp only at hdrain h₁ hdrained hsize hpending ⊢
  have htotal := ByteArray.size_append (a := out) (b := bytes)
  by_cases hfull : (out ++ bytes).size = n
  · rw [if_pos hfull]
    refine fun rounds => ⟨m₁, ?_, h₁⟩
    simp only [Machine.run, hdrain, if_pos hfull, bind, Except.bind, pure, Except.pure]
  rw [if_neg hfull]
  obtain ⟨m₂, hstep, h₂⟩ := h₁.step hdrained (by omega)
  have hfilled := h₂.stands.window.filled
  generalize s₁.step = result at hstep h₂ hfilled
  obtain ⟨outcome, s₂⟩ := result
  cases outcome with
  | error fault =>
      refine fun rounds => ⟨m₂, ?_, h₂⟩
      simp only [Machine.run, hdrain, if_neg hfull, hstep, bind, Except.bind, pure, Except.pure]
  | ok moved =>
      dsimp only at hstep h₂ hfilled ⊢
      by_cases hstops : (!moved && s₂.engine.window.pending = 0) = true
      · rw [if_pos hstops]
        refine fun rounds => ⟨m₂, ?_, h₂⟩
        simp only [Machine.run, hdrain, if_neg hfull, hstep, hfilled, if_pos hstops, bind, Except.bind,
          pure, Except.pure]
      · rw [if_neg hstops]
        refine ⟨m₂, h₂, fun rounds => ?_⟩
        simp only [Machine.run, hdrain, if_neg hfull, hstep, hfilled, if_neg hstops, bind, Except.bind]

theorem run {n k : Nat} {t : ByteArray × Decoder} {result : Except Fault ByteArray × Decoder}
    (hends : Loop.Ends (Decoder.readRound n) k t result) (h : m.Shows t.2) (hsound : t.2.Sound)
    (hout : t.1.size ≤ n) {rounds : Nat} (hrounds : k ≤ rounds) :
    Serves (run n rounds t.1 m) result := by
  induction hends generalizing m rounds with
  | @done t result hround =>
      obtain ⟨rest, rfl⟩ : ∃ rest, rounds = rest + 1 := ⟨rounds - 1, by omega⟩
      have hserves := h.round hsound hout
      rw [hround] at hserves
      exact hserves rest
  | @again k t next result hround _ ih =>
      obtain ⟨rest, rfl⟩ : ∃ rest, rounds = rest + 1 := ⟨rounds - 1, by omega⟩
      have hserves := h.round hsound hout
      have hturn := Decoder.readRound_turn hsound hout (Nat.le_refl _)
      rw [hround] at hserves hturn
      obtain ⟨m', h', hrun⟩ := hserves
      rw [hrun]
      exact ih h' hturn.1.1 hturn.1.2.1 (by omega)

theorem readBytes (h : m.Shows s) (hsound : s.Sound) (n : Nat) :
    Serves (m.readBytes n) (s.read n) := by
  obtain ⟨k, hk, hends, -⟩ := hsound.read_ends n
  have havailable := h.stands.input.available_eq
  rw [Reader.length_bits] at havailable
  rw [Machine.readBytes, havailable]
  exact run hends h hsound (Nat.zero_le n) hk

theorem isFinished (h : m.Shows s) : m.isFinished = s.isFinished := by
  have hphase := h.stands.phase
  have hfilled := h.stands.window.filled
  rw [Machine.isFinished, Decoder.isFinished, hfilled]
  cases hkind : s.engine.phase with
  | finished =>
      rw [hkind] at hphase
      simp only [show m.mode = .finished from hphase, true_and]
  | _ =>
      rw [hkind] at hphase
      simp [InPhase] at hphase
      simp [hphase]

theorem awaitsDictionary (h : m.Shows s) :
    m.awaitsDictionary = s.awaitedDictionary.isSome ∧
      ∀ id, s.awaitedDictionary = some id → m.word = id := by
  have hphase := h.stands.phase
  rw [Machine.awaitsDictionary, Decoder.awaitedDictionary]
  cases hkind : s.engine.phase with
  | dictionary missing id =>
      rw [hkind] at hphase
      obtain ⟨hmode, hneeded, hword⟩ := hphase
      cases missing with
      | zero => exact ⟨by simp [hmode, hneeded], fun _ h => by cases h; exact hword⟩
      | succ missing => exact ⟨by simp [hneeded], fun _ h => by cases h⟩
  | _ =>
      rw [hkind] at hphase
      simp [InPhase] at hphase
      simp [hphase]

theorem decode (h : m.Shows s) (hsound : s.Sound) (data : ByteArray) (n : Nat) :
    Serves (m.decode data n) (s.decode data n) := by
  obtain ⟨m', hread, h'⟩ := (h.feed data).readBytes (hsound.feed data) n
  rw [Machine.decode, hread, Decoder.decode]
  generalize (s.feed data).read n = result at h'
  obtain ⟨outcome, s'⟩ := result
  cases outcome with
  | error fault => exact ⟨m', rfl, h'⟩
  | ok bytes =>
      obtain ⟨hawaits, hword⟩ := h'.awaitsDictionary
      simp only [h'.isFinished, hawaits, bind, Except.bind]
      by_cases hfinished : s'.isFinished = true
      · rw [if_pos hfinished, if_pos hfinished]
        exact ⟨m', rfl, h'⟩
      rw [if_neg hfinished, if_neg hfinished]
      cases hawaited : s'.awaitedDictionary with
      | some id =>
          rw [hword id hawaited]
          exact ⟨m', rfl, h'⟩
      | none =>
          simp only [Option.isSome_none, Bool.false_eq_true, if_false]
          split <;> exact ⟨m', rfl, h'⟩

theorem supplyDictionary (h : m.Shows s) (dictionary : ByteArray) :
    Serves (m.supplyDictionary dictionary) (s.supplyDictionary dictionary) := by
  obtain ⟨hawaits, hword⟩ := h.awaitsDictionary
  obtain ⟨settings, ⟨phase, r, w, last⟩, adler, supplied, produced⟩ := s
  obtain ⟨⟨hphase, hinput, hwindow, hlast⟩, haccount⟩ := id h
  cases haccount
  obtain ⟨ring', hpreset, hwindow'⟩ := hwindow.preset dictionary
  dsimp only at hphase hinput hwindow hlast hpreset hwindow'
  rw [Machine.supplyDictionary, Decoder.supplyDictionary]
  cases hformat : m.settings.format with
  | zlib =>
      generalize hawaited : Decoder.awaitedDictionary _ = awaited at hawaits hword ⊢
      cases awaited with
      | none =>
          simp only [hawaits, Option.isSome_none, Bool.not_false, if_true]
          exact ⟨m, rfl, h⟩
      | some id =>
          obtain rfl := hword id rfl
          simp only [hawaits, Option.isSome_some, Bool.not_true, Bool.false_eq_true, if_false]
          by_cases hsame : Adler32.of dictionary = m.word
          · rw [if_neg (not_not.mpr hsame), if_pos hsame, hpreset]
            generalize w.preset dictionary = result at hwindow'
            obtain ⟨outcome, w'⟩ := result
            cases outcome with
            | error fault => exact ⟨m, rfl, h⟩
            | ok _ => exact ⟨_, rfl, ⟨rfl, hinput, hwindow', hlast⟩, rfl⟩
          · rw [if_pos hsame, if_neg hsame]
            exact ⟨m, rfl, h⟩
  | raw =>
      have hconsumed := hinput.consumed
      cases phase with
      | block =>
          have hmode : m.mode = .blocks := hphase
          simp only [hmode, ne_eq, not_true_eq_false, false_or, hconsumed, hpreset, bind, Except.bind]
          by_cases hstart : r.consumed = 0
          · rw [if_neg (by omega), if_pos hstart]
            generalize w.preset dictionary = result at hwindow'
            obtain ⟨outcome, w'⟩ := result
            cases outcome with
            | error fault => exact ⟨m, rfl, h⟩
            | ok _ => exact ⟨_, rfl, ⟨rfl, hinput, hwindow', hlast⟩, rfl⟩
          · rw [if_pos (Nat.pos_of_ne_zero hstart), if_neg hstart]
            exact ⟨m, rfl, h⟩
      | _ =>
          have hmode : m.mode ≠ .blocks := by
            intro hmode
            simp [InPhase, hmode] at hphase
          simp only [hmode, ne_eq, not_false_eq_true, true_or, if_true]
          exact ⟨m, rfl, h⟩

theorem serve (h : m.Shows s) (hsound : s.Sound) (request : Request) :
    Serves (m.serve request) (s.serve request) := by
  cases request with
  | feed data => exact ⟨_, rfl, h.feed data⟩
  | read n =>
      rw [Machine.serve, Decoder.serve]
      exact (h.readBytes hsound n).map _
  | decode data n =>
      rw [Machine.serve, Decoder.serve]
      exact (h.decode hsound data n).map _
  | supplyDictionary dictionary =>
      rw [Machine.serve, Decoder.serve]
      exact (h.supplyDictionary dictionary).map _
  | reset => exact ⟨_, rfl, h.reset⟩

theorem serveAll (h : m.Shows s) (hsound : s.Sound) (requests : List Request) :
    ∃ m', m.serveAll requests = .ok (s.answers requests, m') ∧ m'.Shows (s.serveAll requests) := by
  induction requests generalizing m s with
  | nil => exact ⟨m, rfl, h⟩
  | cons request requests ih =>
      obtain ⟨m₁, hserve, h₁⟩ := h.serve hsound request
      obtain ⟨m₂, hserves, h₂⟩ := ih h₁ (hsound.serve request)
      refine ⟨m₂, ?_, h₂⟩
      simp only [Machine.serveAll, hserve, hserves, Decoder.answers, bind, Except.bind, pure,
        Except.pure]

-- No more is left than was supplied.
theorem consumed (h : m.Shows s) {fed : List UInt8} (hreceived : s.Received fed) :
    m.consumed = .ok s.consumed := by
  have hsupplied := hreceived.supplied
  have htotal := hreceived.consumed_eq.2
  rw [Machine.consumed, h.supplied, h.stands.input.availableBytes_eq, minus_eq]
  · rfl
  · show s.remaining ≤ s.supplied
    omega

end Shows

end Machine

namespace Deflate.Decoder

variable {s : Decoder}

theorem Received.decode {fed : List UInt8} (h : s.Received fed) (data : ByteArray) (n : Nat) :
    (s.decode data n).2.Received (fed ++ data.data.toList) := by
  have hread := (h.feed data).read n
  rw [Decoder.decode]
  generalize (s.feed data).read n = result at hread
  obtain ⟨outcome, s'⟩ := result
  cases outcome with
  | error fault => exact hread
  | ok bytes =>
      dsimp only
      split
      · exact hread
      · split
        · exact hread
        · split <;> exact hread

theorem Received.serve {fed : List UInt8} (h : s.Received fed) (request : Request) :
    ∃ fed', (s.serve request).2.Received fed' := by
  cases request with
  | feed data =>
      simp only [Decoder.serve]
      exact ⟨_, h.feed data⟩
  | read n =>
      simp only [Decoder.serve]
      exact ⟨_, h.read n⟩
  | decode data n =>
      simp only [Decoder.serve]
      exact ⟨_, h.decode data n⟩
  | supplyDictionary dictionary =>
      simp only [Decoder.serve]
      exact ⟨_, h.supplyDictionary dictionary⟩
  | reset => exact ⟨_, new_received s.settings⟩

theorem Received.serveAll {fed : List UInt8} (h : s.Received fed) (requests : List Request) :
    ∃ fed', (s.serveAll requests).Received fed' := by
  induction requests generalizing s fed with
  | nil => exact ⟨fed, h⟩
  | cons request requests ih =>
      obtain ⟨fed', h'⟩ := h.serve request
      exact ih h'

theorem preset_plain {w : Window} {dictionary : ByteArray} {fault : Fault}
    (hfault : (w.preset dictionary).1 = .error fault) : fault.isInternal = false := by
  rw [Window.preset] at hfault
  split at hfault
  · cases hfault
  · cases hfault
    rfl

theorem Sound.read_plain (h : s.Sound) {n : Nat} {fault : Fault}
    (hfault : (s.read n).1 = .error fault) : fault.isInternal = false := by
  have hturn := h.read_turn n
  generalize s.read n = result at hturn hfault
  cases hturn with
  | failed fault s' hplain _ =>
      cases hfault
      exact hplain
  | returned bytes s' _ _ _ _ => cases hfault

theorem Sound.decode_plain (h : s.Sound) {data : ByteArray} {n : Nat} {fault : Fault}
    (hfault : (s.decode data n).1 = .error fault) : fault.isInternal = false := by
  have hread : ∀ {other}, ((s.feed data).read n).1 = .error other → other.isInternal = false :=
    (h.feed data).read_plain
  rw [Decoder.decode] at hfault
  generalize (s.feed data).read n = result at hread hfault
  obtain ⟨outcome, s'⟩ := result
  cases outcome with
  | error other =>
      obtain rfl : other = fault := Except.error.inj hfault
      exact hread rfl
  | ok bytes =>
      dsimp only at hfault
      cases hfinished : s'.isFinished with
      | true =>
          rw [hfinished, if_pos rfl] at hfault
          cases hfault
      | false =>
          rw [hfinished, if_neg Bool.false_ne_true] at hfault
          cases hawaited : s'.awaitedDictionary with
          | some id =>
              rw [hawaited] at hfault
              exact Except.error.inj hfault ▸ rfl
          | none =>
              rw [hawaited] at hfault
              dsimp only at hfault
              split at hfault <;> cases hfault

theorem supplyDictionary_plain {dictionary : ByteArray} {fault : Fault}
    (hfault : (s.supplyDictionary dictionary).1 = .error fault) : fault.isInternal = false := by
  have hpreset : ∀ {other}, (s.engine.window.preset dictionary).1 = .error other →
      other.isInternal = false := preset_plain
  rw [Decoder.supplyDictionary] at hfault
  generalize s.engine.window.preset dictionary = result at hpreset hfault
  obtain ⟨outcome, w⟩ := result
  generalize s.settings.format = format at hfault
  cases format with
  | zlib =>
      cases hawaited : s.awaitedDictionary with
      | none =>
          rw [hawaited] at hfault
          exact Except.error.inj hfault ▸ rfl
      | some id =>
          rw [hawaited] at hfault
          dsimp only at hfault
          by_cases hsame : Adler32.of dictionary = id
          · rw [if_pos hsame] at hfault
            cases outcome with
            | error other => exact Except.error.inj hfault ▸ hpreset rfl
            | ok _ => cases hfault
          · rw [if_neg hsame] at hfault
            exact Except.error.inj hfault ▸ rfl
  | raw =>
      dsimp only at hfault
      split at hfault
      · by_cases hstart : s.engine.input.consumed = 0
        · rw [if_pos hstart] at hfault
          cases outcome with
          | error other => exact Except.error.inj hfault ▸ hpreset rfl
          | ok _ => cases hfault
        · rw [if_neg hstart] at hfault
          exact Except.error.inj hfault ▸ rfl
      · exact Except.error.inj hfault ▸ rfl

theorem map_eq_error {α β : Type} {answer : Except Fault α} {f : α → β} {fault : Fault}
    (h : answer.map f = .error fault) : answer = .error fault := by
  cases answer with
  | error other => exact congrArg Except.error (Except.error.inj h)
  | ok value => cases h

-- A request that fails does so for what was asked or for the data.
theorem Sound.serve_plain (h : s.Sound) {request : Request} {fault : Fault}
    (hfault : (s.serve request).1 = .error fault) : fault.isInternal = false := by
  cases request with
  | feed data => cases hfault
  | read n =>
      simp only [Decoder.serve] at hfault
      exact h.read_plain (map_eq_error hfault)
  | decode data n =>
      simp only [Decoder.serve] at hfault
      exact h.decode_plain (map_eq_error hfault)
  | supplyDictionary dictionary =>
      simp only [Decoder.serve] at hfault
      exact supplyDictionary_plain (map_eq_error hfault)
  | reset => cases hfault

theorem Sound.answers_plain (h : s.Sound) {requests : List Request} {fault : Fault}
    (hfault : .error fault ∈ s.answers requests) : fault.isInternal = false := by
  induction requests generalizing s with
  | nil => cases hfault
  | cons request requests ih =>
      rcases List.mem_cons.mp hfault with hfirst | hlater
      · exact h.serve_plain hfirst.symm
      · exact ih (h.serve request) hlater

end Deflate.Decoder

namespace Machine

-- Whatever is asked of a decoder, every place lies inside its array, no count of
-- room, length or bits falls below zero, no look and no drop is too wide, every
-- loop ends, and no answer tells of a part of the state that is missing. The
-- difference of two stems can fall below zero: that is no trap but the answer
-- `overflow`, which is among those that both sides agree on.
theorem serveAll_never_traps (settings : Settings) (requests : List Request) :
    ∃ answers m, (new settings).serveAll requests = .ok (answers, m) ∧
      answers = (Decoder.new settings).answers requests ∧
      (∀ fault, .error fault ∈ answers → fault.isInternal = false) ∧
      m.consumed = .ok ((Decoder.new settings).serveAll requests).consumed := by
  have hsound := Decoder.new_sound settings
  obtain ⟨m, hserves, h⟩ := (shows_new settings).serveAll hsound requests
  obtain ⟨fed, hreceived⟩ := (Decoder.new_received settings).serveAll requests
  exact ⟨_, m, hserves, rfl, fun fault hfault => hsound.answers_plain hfault, h.consumed hreceived⟩

end Machine

end Unpack
