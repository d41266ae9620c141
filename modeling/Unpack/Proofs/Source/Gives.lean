import Unpack.Proofs.Source.Steady

namespace Unpack.Source

variable {σ α β : Type} {valid : σ → Prop} {rest : σ → List UInt8} {source next last : σ}
  {front back : List UInt8}

-- The source became the other one by giving away these bytes.
structure Gives (valid : σ → Prop) (rest : σ → List UInt8) (source next : σ) (bytes : List UInt8) :
    Prop where
  valid : valid next
  split : rest source = bytes ++ rest next

theorem Gives.refl (hvalid : valid source) : Gives valid rest source source [] :=
  ⟨hvalid, rfl⟩

theorem Gives.trans (h : Gives valid rest source next front)
    (hlater : Gives valid rest next last back) : Gives valid rest source last (front ++ back) := by
  refine ⟨hlater.valid, ?_⟩
  rw [h.split, hlater.split, List.append_assoc]

-- Two readings succeed one after the other.
theorem bind_eq_ok {reading : ExceptT Fault (StateM σ) α}
    {further : α → ExceptT Fault (StateM σ) β} {b : β}
    (h : (reading >>= further) source = (.ok b, last)) :
    ∃ a next, reading source = (.ok a, next) ∧ further a next = (.ok b, last) := by
  have hstep : (ExceptT.bindCont further (reading source).1 : StateM σ _) (reading source).2 =
      (.ok b, last) := h
  generalize hread : reading source = result at hstep
  obtain ⟨answer, next⟩ := result
  cases answer with
  | error fault => cases hstep
  | ok a => exact ⟨a, next, rfl, hstep⟩

-- A check succeeds and leaves the source as it is.
theorem check_eq_ok {answer : Except Fault α} {further : α → ExceptT Fault (StateM σ) β} {b : β}
    (h : (liftM answer >>= further : ExceptT Fault (StateM σ) β) source = (.ok b, last)) :
    ∃ a, answer = .ok a ∧ further a source = (.ok b, last) := by
  cases answer with
  | error fault => cases h
  | ok a => exact ⟨a, rfl, h⟩

-- What is read is what was given.
theorem Steady.gives_of_readExactly [Source σ] (h : Steady valid rest) (hvalid : valid source)
    {reading : String} {n : Nat} {bytes : ByteArray}
    (hread : Source.readExactly reading source n = (.ok bytes, next)) :
    bytes.size = n ∧ Gives valid rest source next bytes.data.toList := by
  have hfetches := h.readExactly hvalid reading n
  rw [hread] at hfetches
  cases hfetches with
  | whole bytes next hnext hsize hsplit => exact ⟨hsize, hnext, hsplit⟩

end Unpack.Source
