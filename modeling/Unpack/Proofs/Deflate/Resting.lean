import Unpack.Proofs.Deflate.Requests

namespace Unpack.Deflate

open Bits (Reader)

theorem Engine.Alike.trans {e mid again : Engine} (h : e.Alike mid) (hnext : mid.Alike again) :
    e.Alike again :=
  ⟨hnext.phase.trans h.phase, hnext.last.trans h.last, h.input.trans hnext.input, hnext.empty⟩

-- Idle is a matter of the place in the stream.
theorem Engine.Idle.alike {e again : Engine} (h : e.Idle) (halike : e.Alike again) : again.Idle := by
  intro format adler final hfinal
  obtain ⟨hnothing, hnext⟩ := h format adler final (halike.trans hfinal)
  refine ⟨hnothing, ⟨hnext.phase.trans halike.phase.symm, hnext.last.trans halike.last.symm,
    halike.input.symm.trans hnext.input, hnext.empty⟩⟩

namespace Decoder

variable {s t : Decoder}

-- The same decoder but for what it has looked at ahead and for the history
-- that it keeps.
structure Like (s t : Decoder) : Prop where
  settings : t.settings = s.settings
  engine : s.engine.Alike t.engine
  adler : t.adler = s.adler
  supplied : t.supplied = s.supplied
  produced : t.produced = s.produced

theorem Like.trans {u : Decoder} (h : s.Like t) (hnext : t.Like u) : s.Like u :=
  ⟨hnext.settings.trans h.settings, h.engine.trans hnext.engine, hnext.adler.trans h.adler,
    hnext.supplied.trans h.supplied, hnext.produced.trans h.produced⟩

theorem Resting.refl (h : s.Resting) : s.Like s :=
  ⟨rfl, ⟨rfl, rfl, .refl _, h.empty⟩, rfl, rfl, rfl⟩

theorem Resting.like (h : s.Resting) (hlike : s.Like t) : t.Resting :=
  ⟨hlike.engine.empty, h.idle.alike hlike.engine⟩

theorem drain_of_empty (hempty : s.engine.window.pending = 0) (n : Nat) :
    (s.drain n).1 = ByteArray.empty ∧ s.Like (s.drain n).2 := by
  obtain ⟨hsize, hpending, -⟩ := s.drain_window n
  have hnone : (s.drain n).1.size = 0 := by omega
  refine ⟨ByteArray.size_eq_zero_iff.mp hnone, rfl, ⟨rfl, rfl, .refl _, ?_⟩, s.adler_drain n hempty,
    rfl, ?_⟩
  · rw [hpending, hempty, Nat.zero_sub]
  · show s.produced + (s.drain n).1.size = s.produced
    omega

theorem Resting.step (h : s.Resting) : s.step.1 = .ok false ∧ s.Like s.step.2 := by
  obtain ⟨hnothing, halike⟩ := h.idle s.settings.format s.adler.value s.engine
    ⟨rfl, rfl, .refl _, h.empty⟩
  exact ⟨hnothing, rfl, halike, rfl, rfl, rfl⟩

-- A call is to no avail, whatever it asks for: its first round is the last.
theorem Resting.readRound (h : s.Resting) (n : Nat) :
    ∃ s', Decoder.readRound n (ByteArray.empty, s) = .inr (.ok ByteArray.empty, s') ∧ s.Like s' := by
  obtain ⟨hbytes, hdrained⟩ := drain_of_empty h.empty n
  obtain ⟨hnothing, hstepped⟩ := (h.like hdrained).step
  rw [Decoder.readRound, show n - ByteArray.empty.size = n from Nat.sub_zero n]
  generalize s.drain n = drained at *
  obtain ⟨bytes, s₁⟩ := drained
  dsimp only at hbytes hdrained hnothing hstepped ⊢
  subst hbytes
  rw [ByteArray.append_empty]
  split
  · exact ⟨s₁, rfl, hdrained⟩
  · generalize s₁.step = result at hnothing hstepped
    obtain ⟨outcome, s₂⟩ := result
    dsimp only at hnothing hstepped
    subst hnothing
    have hlike := hdrained.trans hstepped
    dsimp only
    rw [if_pos (by simp [hlike.engine.empty])]
    exact ⟨s₂, rfl, hlike⟩

theorem Resting.read (h : s.Resting) (n : Nat) :
    (s.read n).1 = .ok ByteArray.empty ∧ s.Like (s.read n).2 := by
  obtain ⟨s', hround, hlike⟩ := h.readRound n
  rw [Decoder.read, rounds, run, Loop.run, hround]
  exact ⟨rfl, hlike⟩

theorem Resting.reads (h : s.Resting) (sizes : List Nat) :
    s.Like (sizes.foldl (fun s n => (s.read n).2) s) := by
  induction sizes generalizing s with
  | nil => exact h.refl
  | cons n sizes ih =>
      have hread := (h.read n).2
      have hrest := ih (h.like hread)
      rw [List.foldl_cons]
      exact hread.trans hrest

-- All that a caller can see of a decoder.
structure View where
  isFinished : Bool
  awaited : Option UInt32
  consumed : Nat
  produced : Nat
  adler : UInt32
  unread : ByteArray

def view (s : Decoder) : View :=
  ⟨s.isFinished, s.awaitedDictionary, s.consumed, s.produced, s.adler.value, s.unread⟩

theorem Like.view_eq (h : s.Like t) (hempty : s.engine.window.pending = 0) : t.view = s.view := by
  have hfinished : t.isFinished = s.isFinished := by
    unfold isFinished
    rw [h.engine.phase, h.engine.empty, hempty]
  have hawaited : t.awaitedDictionary = s.awaitedDictionary := by
    unfold awaitedDictionary
    rw [h.engine.phase]
  have hconsumed : t.consumed = s.consumed := by
    simp only [consumed, remaining, Reader.availableBytes, h.engine.input.available, h.supplied]
  have hunread : t.unread = s.unread := by
    have hbits := h.engine.input.bits
    have hbytes : t.unread.data.toList = s.unread.data.toList := by
      rw [unread, unread, ← Bits.toBytes_ofBytes t.engine.input.rest.data.toList,
        ← Bits.toBytes_ofBytes s.engine.input.rest.data.toList, Reader.ofBytes_rest,
        Reader.ofBytes_rest, hbits]
    exact ByteArray.ext (Array.toList_inj.mp hbytes)
  rw [view, view, hfinished, hawaited, hconsumed, h.produced, h.adler, hunread]

end Decoder

end Unpack.Deflate
