import Unpack.Proofs.Deflate.Decoder
import Unpack.Proofs.Deflate.Stuck

namespace Unpack.Deflate.Decoder

open Bits (Reader)

variable {s : Decoder}

-- What is drained is the window's, as much of it as was asked for.
theorem drain_window (s : Decoder) (n : Nat) :
    (s.drain n).1.size = min n s.engine.window.pending ∧
      (s.drain n).2.engine.window.pending = s.engine.window.pending - n ∧
      (s.drain n).2.engine.window.history = s.engine.window.history := by
  have hpending := s.engine.window.pending_le_size
  show (s.engine.window.drain n).1.size = _ ∧ (s.engine.window.drain n).2.pending = _ ∧
    (s.engine.window.drain n).2.history = _
  simp only [Window.drain, ByteArray.size_extract, Window.history, and_true]
  omega

-- No call makes this decoder reach the end.
def Stuck (s : Decoder) : Prop :=
  s.engine.Stuck s.adler.value

theorem Stuck.isFinished (h : s.Stuck) : s.isFinished = false := by
  by_contra hfinished
  exact h.ne_finished (phase_of_isFinished (by simpa using hfinished)).1

theorem Stuck.feed (h : s.Stuck) (data : ByteArray) : (s.feed data).Stuck := by
  obtain ⟨settings, ⟨phase, r, w, last⟩, adler, supplied, produced⟩ := s
  apply Engine.Stuck.more h
  rw [Reader.bits_feed]
  exact List.prefix_append _ _

-- Nothing is added to the checksum when nothing is drained.
theorem adler_drain (s : Decoder) (n : Nat) (hempty : s.engine.window.pending = 0) :
    (s.drain n).2.adler = s.adler := by
  have hnone : (s.drain n).1.size = 0 := by
    rw [(s.drain_window n).1, hempty, Nat.min_zero]
  obtain ⟨⟨format, readSize⟩, ⟨phase, r, w, last⟩, adler, supplied, produced⟩ := s
  cases format with
  | raw => rfl
  | zlib =>
      rw [Decoder.drain]
      exact Adler32.update_of_empty adler hnone

theorem Stuck.drain (h : s.Stuck) (n : Nat) : (s.drain n).2.Stuck := by
  have hadler := s.adler_drain n
  obtain ⟨hsize, hpending, hhistory⟩ := s.drain_window n
  rw [Stuck]
  generalize (s.drain n).2.adler = adler at hadler
  obtain ⟨settings, ⟨phase, r, w, last⟩, adler', supplied, produced⟩ := s
  refine Engine.Stuck.drained h hhistory fun hempty => ⟨hpending.trans ?_, ?_⟩
  · rw [hempty, Nat.zero_sub]
  · rw [hadler hempty]

theorem Stuck.step (h : s.Stuck) (hempty : s.engine.window.pending = 0) : s.step.2.Stuck := by
  obtain ⟨settings, engine, adler, supplied, produced⟩ := s
  exact Engine.Stuck.step h settings.format hempty

-- A decoder that is stuck waits for no dictionary.
theorem Stuck.supplyDictionary (h : s.Stuck) (dictionary : ByteArray) :
    (s.supplyDictionary dictionary).2 = s := by
  obtain ⟨settings, engine, adler, supplied, produced⟩ := s
  rw [Decoder.supplyDictionary]
  cases settings.format with
  | raw => cases h <;> rfl
  | zlib => cases h <;> rfl

-- What drains and steps keep, a call keeps. A call that fails ends with a step
-- that fails.
theorem run_rule {P Q : Decoder → Prop} (hdrain : ∀ s n, P s → P (s.drain n).2)
    (hstep : ∀ s, P s → s.engine.window.pending = 0 → P s.step.2 ∧
      ∀ fault, s.step.1 = .error fault → fault.isFatal = true → Q s.step.2)
    (h : P s) (n rounds : Nat) (out : ByteArray) (hout : out.size ≤ n) :
    P (run n rounds out s).2 ∧ ∀ fault, (run n rounds out s).1 = .error fault →
      fault.isFatal = true → Q (run n rounds out s).2 := by
  refine Loop.run_rule (P := fun t => P t.2 ∧ t.1.size ≤ n)
    (Q := fun result : Except Fault ByteArray × Decoder => P result.2 ∧
      ∀ fault, result.1 = .error fault → fault.isFatal = true → Q result.2)
    (fun t ht => ?_) (fun t ht => ⟨ht.1, by rintro _ ⟨⟩⟩) rounds ⟨h, hout⟩
  obtain ⟨out, s⟩ := t
  obtain ⟨h, hout⟩ := ht
  dsimp only at h hout
  have hdrained := hdrain s (n - out.size) h
  obtain ⟨hsize, hpending, -⟩ := s.drain_window (n - out.size)
  rw [readRound]
  generalize s.drain (n - out.size) = drained at hdrained hsize hpending
  obtain ⟨bytes, s₁⟩ := drained
  dsimp only at hdrained hsize hpending ⊢
  have htotal := ByteArray.size_append (a := out) (b := bytes)
  by_cases hfull : (out ++ bytes).size = n
  · rw [if_pos hfull]
    exact ⟨hdrained, by rintro _ ⟨⟩⟩
  rw [if_neg hfull]
  -- More was asked for than there was, so the window is empty.
  have hempty : s₁.engine.window.pending = 0 := by omega
  have hstepped := hstep s₁ hdrained hempty
  generalize s₁.step = result at hstepped
  obtain ⟨outcome, s₂⟩ := result
  cases outcome with
  | error fault =>
      refine ⟨hstepped.1, ?_⟩
      rintro _ ⟨⟩ hfatal
      exact hstepped.2 fault rfl hfatal
  | ok moved =>
      dsimp only
      split
      · exact ⟨hstepped.1, by rintro _ ⟨⟩⟩
      · exact ⟨hstepped.1, show (out ++ bytes).size ≤ n by omega⟩

theorem Stuck.read (h : s.Stuck) (n : Nat) : (s.read n).2.Stuck := by
  have hdrain : ∀ (s : Decoder) (n : Nat), s.Stuck → (s.drain n).2.Stuck := fun _ n h => h.drain n
  have hstep : ∀ s : Decoder, s.Stuck → s.engine.window.pending = 0 → s.step.2.Stuck ∧
      ∀ fault, s.step.1 = .error fault → fault.isFatal = true → s.step.2.Stuck :=
    fun _ h hempty => ⟨h.step hempty, fun _ _ _ => h.step hempty⟩
  exact (run_rule hdrain hstep h n s.rounds ByteArray.empty (Nat.zero_le n)).1

theorem read_positive (h : Engine.Positive s.engine.phase) (n : Nat) :
    Engine.Positive (s.read n).2.engine.phase ∧ ∀ fault, (s.read n).1 = .error fault →
      fault.isFatal = true → (s.read n).2.Stuck := by
  refine run_rule (P := fun s => Engine.Positive s.engine.phase) (fun _ _ h => h)
    (fun s h hempty => ?_) h n _ _ (Nat.zero_le _)
  obtain ⟨settings, engine, adler, supplied, produced⟩ := s
  have hfares := Engine.step_fares settings.format adler.value h hempty
  exact ⟨hfares.positive, hfares.stuck⟩

-- What a caller may do, other than to start over.
inductive Call where
  | feed (data : ByteArray)
  | read (n : Nat)
  | supplyDictionary (dictionary : ByteArray)

def perform (s : Decoder) : Call → Decoder
  | .feed data => s.feed data
  | .read n => (s.read n).2
  | .supplyDictionary dictionary => (s.supplyDictionary dictionary).2

def performAll (s : Decoder) (calls : List Call) : Decoder :=
  calls.foldl perform s

theorem Stuck.perform (h : s.Stuck) (call : Call) : (s.perform call).Stuck := by
  cases call with
  | feed data => exact h.feed data
  | read n => exact h.read n
  | supplyDictionary dictionary =>
      rw [Decoder.perform, h.supplyDictionary]
      exact h

theorem Stuck.performAll (h : s.Stuck) (calls : List Call) : (s.performAll calls).Stuck := by
  induction calls generalizing s with
  | nil => exact h
  | cons call calls ih => exact ih (h.perform call)

theorem phase_supplyDictionary (s : Decoder) (dictionary : ByteArray) :
    (s.supplyDictionary dictionary).2.engine.phase = s.engine.phase ∨
      (s.supplyDictionary dictionary).2.engine.phase = .block := by
  rw [supplyDictionary]
  cases s.settings.format with
  | zlib =>
      dsimp only
      split
      · exact Or.inl rfl
      · split
        · split
          · exact Or.inr rfl
          · exact Or.inl rfl
        · exact Or.inl rfl
  | raw =>
      dsimp only
      split
      · split
        · split <;> exact Or.inl rfl
        · exact Or.inl rfl
      · exact Or.inl rfl

theorem perform_positive (h : Engine.Positive s.engine.phase) (call : Call) :
    Engine.Positive (s.perform call).engine.phase := by
  cases call with
  | feed data => exact h
  | read n => exact (read_positive h n).1
  | supplyDictionary dictionary =>
      show Engine.Positive (s.supplyDictionary dictionary).2.engine.phase
      rcases s.phase_supplyDictionary dictionary with hphase | hphase
      · rw [hphase]
        exact h
      · rw [hphase]
        trivial

theorem performAll_positive (h : Engine.Positive s.engine.phase) (calls : List Call) :
    Engine.Positive (s.performAll calls).engine.phase := by
  induction calls generalizing s with
  | nil => exact h
  | cons call calls ih => exact ih (perform_positive h call)

theorem new_positive (settings : Settings) : Engine.Positive (new settings).engine.phase := by
  rw [new]
  cases settings.format <;> trivial

-- Whatever was done before, a decoder that has reported a wrong checksum, a
-- refused table, a code that stands for nothing or a distance too far never
-- reports the end of its stream, whatever is done after.
theorem isFinished_of_fatal (settings : Settings) (earlier later : List Call) (n : Nat)
    {fault : Fault} (hfault : (((new settings).performAll earlier).read n).1 = .error fault)
    (hfatal : fault.isFatal = true) :
    ((((new settings).performAll earlier).read n).2.performAll later).isFinished = false := by
  have hpositive := performAll_positive (new_positive settings) earlier
  have hstuck := (read_positive hpositive n).2 fault hfault hfatal
  exact (hstuck.performAll later).isFinished

theorem isFinished_of_fatal_table :
    let earlier : List Call := [.feed ⟨#[0x05, 0x00]⟩, .read 1, .feed ⟨#[0x00, 0x00]⟩]
    let later : List Call := [.feed ⟨#[0x00, 0x00]⟩, .read 1, .read 1]
    (((new .raw).performAll earlier).read 1).1 =
        .error (.invalidTable (.inCodeLengthCode (.incomplete 0))) ∧
      ((((new .raw).performAll earlier).read 1).2.performAll later).isFinished = false := by
  intro earlier later
  have hfault : (((new .raw).performAll earlier).read 1).1 =
      .error (.invalidTable (.inCodeLengthCode (.incomplete 0))) := by decide +kernel
  exact ⟨hfault, isFinished_of_fatal .raw earlier later 1 hfault rfl⟩

-- The three bits of a block of no kind are consumed, so a last block of no kind
-- is taken for one that is over.
theorem isFinished_after_reservedBlock :
    let s := (new .raw).feed ⟨#[0x07]⟩
    (s.read 1).1 = .error (.corrupted 3 .reservedBlock) ∧
      (Fault.corrupted 3 .reservedBlock).isFormat = true ∧
      ((s.read 1).2.performAll [.read 1]).isFinished = true := by
  intro s
  exact ⟨by decide +kernel, rfl, by decide +kernel⟩

end Unpack.Deflate.Decoder
