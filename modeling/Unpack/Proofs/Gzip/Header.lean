import Unpack.Gzip.Header
import Unpack.Proofs.Source.Steady

namespace Unpack.Gzip.Header

open Source (Steady)

variable {σ : Type} {valid : σ → Prop} {rest : σ → List UInt8} {α β : Type}

-- Whatever the reading makes of it, a valid source stays one.
def Keeps (valid : σ → Prop) (reading : Reading σ α) : Prop :=
  ∀ source, valid source → valid (reading source).2

theorem Keeps.pure (a : α) : Keeps valid (Pure.pure a : Reading σ α) := fun _ h => h

theorem Keeps.throw (fault : Fault) : Keeps valid (throw fault : Reading σ α) := fun _ h => h

theorem Keeps.bind {reading : Reading σ α} {next : α → Reading σ β} (h : Keeps valid reading)
    (hnext : ∀ a, Keeps valid (next a)) : Keeps valid (reading >>= next) := by
  intro source hvalid
  have hread := h source hvalid
  show valid ((ExceptT.bindCont next (reading source).1 : StateM σ _) (reading source).2).2
  cases (reading source).1 with
  | error fault => exact hread
  | ok a => exact hnext a _ hread

theorem Keeps.ite {c : Prop} [Decidable c] {first second : Reading σ α} (hfirst : Keeps valid first)
    (hsecond : Keeps valid second) : Keeps valid (if c then first else second) := by
  by_cases h : c
  · rwa [if_pos h]
  · rwa [if_neg h]

theorem Keeps.ofExcept (result : Except Fault α) :
    Keeps valid (liftM result : Reading σ α) := by
  intro source hvalid
  cases result <;> exact hvalid

variable [Source σ]

theorem Keeps.part (hsteady : Steady valid rest) (reading : String) (n : Nat) :
    Keeps valid (Header.part reading n : Reading σ ByteArray) :=
  fun _ hvalid => (hsteady.readExactly hvalid _ n).valid_next

theorem readText_keeps (hsteady : Steady valid rest) (reading : String) (rounds : Nat)
    (got : ByteArray) {source : σ} (hvalid : valid source) :
    valid (readText reading rounds got source).2 := by
  induction rounds generalizing got source with
  | zero => exact hvalid
  | succ rounds ih =>
      have hnext := (hsteady.readExactly hvalid reading 1).valid_next
      rw [readText]
      generalize Source.readExactly reading source 1 = result at hnext
      obtain ⟨answer, next⟩ := result
      cases answer with
      | error fault => exact hnext
      | ok byte =>
          dsimp only
          by_cases hzero : Bytes.octet byte 0 = 0
          · rw [if_pos hzero]
            exact hnext
          · rw [if_neg hzero]
            exact ih _ hnext

theorem Keeps.textPart (hsteady : Steady valid rest) (reading : String) :
    Keeps valid (Header.textPart reading : Reading σ ByteArray) :=
  fun _ hvalid => readText_keeps hsteady _ _ _ hvalid

theorem readExtra_keeps (hsteady : Steady valid rest) (h : Header) (seen : List ByteArray) :
    Keeps valid (readExtra h seen : Reading σ (Header × List ByteArray)) := by
  apply Keeps.ite
  · apply (Keeps.part hsteady _ _).bind
    intro size
    exact (Keeps.part hsteady _ _).bind fun extra => .pure _
  · exact .pure _

theorem readFilename_keeps (hsteady : Steady valid rest) (h : Header) (seen : List ByteArray) :
    Keeps valid (readFilename h seen : Reading σ (Header × List ByteArray)) := by
  apply Keeps.ite
  · exact (Keeps.textPart hsteady _).bind fun text => .pure _
  · exact .pure _

theorem readComment_keeps (hsteady : Steady valid rest) (h : Header) (seen : List ByteArray) :
    Keeps valid (readComment h seen : Reading σ (Header × List ByteArray)) := by
  apply Keeps.ite
  · exact (Keeps.textPart hsteady _).bind fun text => .pure _
  · exact .pure _

theorem readCrc_keeps (hsteady : Steady valid rest) (h : Header) (seen : List ByteArray) :
    Keeps valid (readCrc h seen : Reading σ Header) := by
  apply Keeps.ite
  · apply (Keeps.part hsteady _ _).bind
    intro bytes
    apply Keeps.ite
    · exact .pure _
    · exact (Keeps.throw _).bind fun _ => .pure _
  · exact .pure _

theorem readAll_keeps (hsteady : Steady valid rest) : Keeps valid (readAll : Reading σ Header) := by
  refine (Keeps.part hsteady _ _).bind fun fixed => ?_
  refine (Keeps.ofExcept _).bind fun h => ?_
  refine (readExtra_keeps hsteady _ _).bind fun extra => ?_
  refine (readFilename_keeps hsteady _ _).bind fun filename => ?_
  refine (readComment_keeps hsteady _ _).bind fun comment => ?_
  exact readCrc_keeps hsteady _ _

end Unpack.Gzip.Header
