import Unpack.Sink

namespace Unpack.Sink

variable {ω α : Type} [Sink ω]

-- What a sink was given, if it keeps to this: a write that succeeds adds its bytes
-- behind those before, and a flush that succeeds adds none.
structure Appends (written : ω → List UInt8) : Prop where
  write : ∀ out bytes next, Sink.write out bytes = (.ok (), next) →
    written next = written out ++ bytes.data.toList
  flush : ∀ out next, Sink.flush out = (.ok (), next) → written next = written out

theorem appends_memory : Appends fun out : ByteArray => out.data.toList where
  write := by
    rintro out bytes _ ⟨⟩
    rw [ByteArray.data_append, Array.toList_append]
  flush := by
    rintro out _ ⟨⟩
    rfl

theorem settled_eq_ok {answer : Except Fault Unit × α} {state : α}
    (h : settled answer = .ok state) : answer = (.ok (), state) := by
  obtain ⟨answer, left⟩ := answer
  cases answer with
  | error fault => cases h
  | ok done =>
      cases h
      rfl

-- What comes after a step that has succeeded.
theorem bind_settled_eq_ok {β : Type} {answer : Except Fault Unit × α}
    {further : α → Except Fault β} {b : β} (h : settled answer >>= further = .ok b) :
    ∃ state, answer = (.ok (), state) ∧ further state = .ok b := by
  cases hsettled : settled answer with
  | error fault =>
      rw [hsettled] at h
      cases h
  | ok state =>
      rw [hsettled] at h
      exact ⟨state, settled_eq_ok hsettled, h⟩

end Unpack.Sink
