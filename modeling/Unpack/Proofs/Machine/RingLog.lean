import Unpack.Proofs.Machine.Ring

namespace Unpack.Machine.Ring

open Bits (Register Reader)
open Window (Answer span)

-- What can be asked of a ring. A copy takes its bytes from a register.
inductive Call where
  | write (byte : UInt8)
  | copyBack (length distance : Nat)
  | copyFrom (source : Register) (length : Nat)
  | preset (dictionary : ByteArray)
  | drain (n : Nat)
  | reset

def perform (ring : Ring) : Call → Except Trap (Answer × Ring)
  | .write byte => do
      let (outcome, ring) ← ring.write byte
      return (.outcome outcome, ring)
  | .copyBack length distance => do
      let (outcome, ring) ← ring.copyBack length distance
      return (.outcome outcome, ring)
  | .copyFrom source length => do
      let (count, ring, left) ← ring.copyFrom source length
      return (.copied count left.rest.data.toList, ring)
  | .preset dictionary => do
      let (outcome, ring) ← ring.preset dictionary
      return (.outcome outcome, ring)
  | .drain n => do
      let (bytes, ring) ← ring.drain n
      return (.drained bytes.data.toList, ring)
  | .reset => return (.outcome (.ok ()), ring.reset)

def run (ring : Ring) : List Call → Except Trap (List Answer × Ring)
  | [] => return ([], ring)
  | call :: calls => do
      let (answer, ring) ← ring.perform call
      let (answers, ring) ← ring.run calls
      return (answer :: answers, ring)

-- A window is asked the same, where the register that a copy takes its bytes from
-- stands at a byte boundary.
inductive Call.Asks : Call → Window.Call → Prop where
  | write (byte : UInt8) : Asks (.write byte) (.write byte)
  | copyBack (length distance : Nat) : Asks (.copyBack length distance) (.copyBack length distance)
  | copyFrom {g : Register} {r : Reader} (hshows : g.Shows r) (haligned : g.held % 8 = 0)
      (length : Nat) : Asks (.copyFrom g length) (.copyFrom r length)
  | preset (dictionary : ByteArray) : Asks (.preset dictionary) (.preset dictionary)
  | drain (n : Nat) : Asks (.drain n) (.drain n)
  | reset : Asks .reset .reset

variable {ring next : Ring} {w : Window} {fault : Fault}

theorem write_of_fault {byte : UInt8} (h : ring.write byte = .ok (.error fault, next)) :
    next = ring := by
  unfold write at h
  split at h
  · cases h
    rfl
  · obtain ⟨_, -, hdone⟩ := bind_eq_ok.mp h
    cases hdone

theorem copyBack_of_fault {length distance : Nat}
    (h : ring.copyBack length distance = .ok (.error fault, next)) : next = ring := by
  unfold copyBack at h
  split at h
  · cases h
    rfl
  split at h
  · obtain ⟨_, -, hdone⟩ := bind_eq_ok.mp h
    cases hdone
    rfl
  split at h
  · cases h
    rfl
  · obtain ⟨_, -, hsource⟩ := bind_eq_ok.mp h
    obtain ⟨_, -, hdone⟩ := bind_eq_ok.mp hsource
    cases hdone

theorem preset_of_fault {dictionary : ByteArray}
    (h : ring.preset dictionary = .ok (.error fault, next)) : next = ring := by
  unfold preset at h
  split at h
  · cases h
    rfl
  · obtain ⟨_, -, hdone⟩ := bind_eq_ok.mp h
    cases hdone

-- A call that fails changes nothing.
theorem perform_of_fault (call : Call) (h : ring.perform call = .ok (.outcome (.error fault), next)) :
    next = ring := by
  cases call with
  | write byte =>
      obtain ⟨⟨outcome, _⟩, hwrite, hdone⟩ := bind_eq_ok.mp h
      cases hdone
      exact write_of_fault hwrite
  | copyBack length distance =>
      obtain ⟨⟨outcome, _⟩, hcopy, hdone⟩ := bind_eq_ok.mp h
      cases hdone
      exact copyBack_of_fault hcopy
  | copyFrom source length =>
      obtain ⟨_, -, hdone⟩ := bind_eq_ok.mp h
      cases hdone
  | preset dictionary =>
      obtain ⟨⟨outcome, _⟩, hpreset, hdone⟩ := bind_eq_ok.mp h
      cases hdone
      exact preset_of_fault hpreset
  | drain n =>
      obtain ⟨_, -, hdone⟩ := bind_eq_ok.mp h
      cases hdone
  | reset => cases h

namespace Shows

theorem perform (h : Shows ring w) {call : Call} {asked : Window.Call} (hasks : call.Asks asked)
    (hrange : asked.InRange) :
    ∃ ring', ring.perform call = .ok ((w.perform asked).1, ring') ∧
      Shows ring' (w.perform asked).2 := by
  cases hasks with
  | write byte =>
      obtain ⟨ring', hwrite, h'⟩ := h.write byte
      refine ⟨ring', ?_, h'⟩
      simp only [Ring.perform, hwrite, bind, Except.bind, pure, Except.pure, Window.perform]
  | copyBack length distance =>
      obtain ⟨ring', hcopy, h'⟩ := h.copyBack length distance hrange
      refine ⟨ring', ?_, h'⟩
      simp only [Ring.perform, hcopy, bind, Except.bind, pure, Except.pure, Window.perform]
  | @copyFrom g r hshows haligned length =>
      obtain ⟨ring', g', hcopy, h', hleft⟩ := h.copyFrom hshows haligned length
      refine ⟨ring', ?_, h'⟩
      have hsize : ∀ r : Reader, r.availableBytes = r.rest.size := by
        intro r
        simp only [Reader.availableBytes, Reader.available, Reader.rest, ByteArray.size_extract]
        omega
      simp only [Ring.perform, hcopy, bind, Except.bind, pure, Except.pure, Window.perform,
        hleft.rest, hsize]
  | preset dictionary =>
      obtain ⟨ring', hpreset, h'⟩ := h.preset dictionary
      refine ⟨ring', ?_, h'⟩
      simp only [Ring.perform, hpreset, bind, Except.bind, pure, Except.pure, Window.perform]
  | drain n =>
      obtain ⟨ring', hdrain, h'⟩ := h.drain n
      refine ⟨ring', ?_, h'⟩
      simp only [Ring.perform, hdrain, bind, Except.bind, pure, Except.pure, Window.perform]
  | reset => exact ⟨ring.reset, rfl, h.reset⟩

theorem run (h : Shows ring w) {calls : List Call} {asked : List Window.Call}
    (hasks : List.Forall₂ Call.Asks calls asked) (hrange : ∀ call ∈ asked, call.InRange) :
    ∃ ring', ring.run calls = .ok ((w.run asked).1, ring') ∧ Shows ring' (w.run asked).2 := by
  induction hasks generalizing ring w with
  | nil => exact ⟨ring, rfl, h⟩
  | @cons call other calls asked hcall _ ih =>
      obtain ⟨ring₁, hperform, h₁⟩ := h.perform hcall (hrange other List.mem_cons_self)
      obtain ⟨ring₂, hrun, h₂⟩ := ih h₁ fun call hcall => hrange call (List.mem_cons_of_mem _ hcall)
      refine ⟨ring₂, ?_, h₂⟩
      simp only [Ring.run, hperform, hrun, bind, Except.bind, pure, Except.pure, Window.run]

end Shows

-- Whatever is asked of it, in any order, a ring answers like a log that lets nothing
-- go, and so does a window. No place lies outside the cells, and no count of them
-- falls below zero. A call that fails changes nothing, and after a reset nothing that
-- the cells still hold is seen again.
theorem run_follows_log {calls : List Call} {asked : List Window.Call}
    (hasks : List.Forall₂ Call.Asks calls asked) (hrange : ∀ call ∈ asked, call.InRange) :
    let w := (Window.empty.run asked).2
    let log := (Log.empty.run asked).2
    ((Window.empty.run asked).1 = (Log.empty.run asked).1 ∧
      w.free = log.room ∧ w.pending = log.undrained ∧ w.history = log.reach ∧
      ∀ call fault, (w.perform call).1 = .outcome (.error fault) → (w.perform call).2 = w) ∧
    ∃ ring, empty.run calls = .ok ((Log.empty.run asked).1, ring) ∧
      ring.free = .ok log.room ∧ ring.filled = log.undrained ∧ ring.history = log.reach ∧
      (∀ call fault next, ring.perform call = .ok (.outcome (.error fault), next) → next = ring) ∧
      ∀ later more, List.Forall₂ Call.Asks later more → (∀ call ∈ more, call.InRange) →
        ∃ last, ring.run (.reset :: later) =
          .ok (.outcome (.ok ()) :: (Log.empty.run more).1, last) := by
  intro w log
  obtain ⟨hanswers, hfree, hpending, hhistory, hunchanged, -⟩ := Window.run_eq_log_run asked hrange
  obtain ⟨ring, hrun, h⟩ := shows_empty.run hasks hrange
  refine ⟨⟨hanswers, hfree, hpending, hhistory, hunchanged⟩, ring, hanswers ▸ hrun, ?_, ?_, ?_, ?_, ?_⟩
  · exact h.free.trans (congrArg Except.ok hfree)
  · exact h.filled.trans hpending
  · exact h.history.trans hhistory
  · exact fun call _ _ => perform_of_fault call
  · intro later more hlater hmore
    obtain ⟨last, hreset, -⟩ := h.run (.cons .reset hlater)
      (List.forall_mem_cons.mpr ⟨trivial, hmore⟩)
    obtain ⟨hfresh, -⟩ := Window.run_eq_log_run more hmore
    exact ⟨last, hfresh ▸ hreset⟩

-- An overlapping copy, bytes from a register, a copy too far back, and a reset.
theorem run_follows_log_reset :
    let source : Register := Register.empty.feed ⟨#[7, 8, 9]⟩
    let calls : List Call := [.write 1, .write 2, .copyBack 3 2, .copyFrom source 2, .copyBack 1 8,
      .drain 6, .reset, .copyBack 1 1]
    ∃ ring, empty.run calls = .ok ([.outcome (.ok ()), .outcome (.ok ()), .outcome (.ok ()),
      .copied 2 [9], .outcome (.error (.invalidDistance 8 7)), .drained [1, 2, 1, 2, 1, 7],
      .outcome (.ok ()), .outcome (.error (.invalidDistance 1 0))], ring) := by
  let r : Reader := Reader.empty.feed ⟨#[7, 8, 9]⟩
  let asked : List Window.Call := [.write 1, .write 2, .copyBack 3 2, .copyFrom r 2, .copyBack 1 8,
    .drain 6, .reset, .copyBack 1 1]
  have hsource : (Register.empty.feed ⟨#[7, 8, 9]⟩).Shows r := Register.shows_empty.feed _
  have hasks : List.Forall₂ Call.Asks _ asked :=
    .cons (.write 1) <| .cons (.write 2) <| .cons (.copyBack 3 2) <|
      .cons (.copyFrom hsource rfl 2) <| .cons (.copyBack 1 8) <| .cons (.drain 6) <|
      .cons .reset <| .cons (.copyBack 1 1) .nil
  have hrange : ∀ call ∈ asked, call.InRange := by
    simp [asked, Window.Call.InRange, span, Window.countModulus]
  obtain ⟨-, ring, hrun, -⟩ := run_follows_log hasks hrange
  have hanswers : (Log.empty.run asked).1 = [.outcome (.ok ()), .outcome (.ok ()),
      .outcome (.ok ()), .copied 2 [9], .outcome (.error (.invalidDistance 8 7)),
      .drained [1, 2, 1, 2, 1, 7], .outcome (.ok ()), .outcome (.error (.invalidDistance 1 0))] := by
    have hrest : r.rest.data.toList = [7, 8, 9] := by decide
    simp only [asked, Log.run, Log.perform, hrest]
    rfl
  exact ⟨ring, hanswers ▸ hrun⟩

end Unpack.Machine.Ring
