import Unpack.Machine.Trap
import Unpack.Proofs.Bits.Register

namespace Unpack.Machine

open Bits (Register Reader)

variable {α : Type} {cells : Array α}

theorem cell_eq {i : Nat} {value : α} (h : cells[i]? = some value) : cell cells i = .ok value := by
  obtain ⟨hi, hvalue⟩ := Array.getElem?_eq_some_iff.mp h
  rw [cell, dif_pos hi, hvalue]

theorem put_eq {i : Nat} (hi : i < cells.size) (value : α) :
    put cells i value = .ok (cells.set i value hi) :=
  dif_pos hi

theorem slice_eq {i count : Nat} (h : i + count ≤ cells.size) :
    slice cells i count = .ok ((cells.toList.drop i).take count) :=
  if_pos h

theorem paste_singleton {i : Nat} {value : α} (hi : i < cells.size) :
    paste cells i [value] = .ok (cells.set i value hi) := by
  rw [paste, if_pos (show i + [value].length ≤ cells.size from hi)]
  congr 1
  apply Array.toList_inj.mp
  rw [Array.toList_set, List.set_eq_take_append_cons_drop,
    if_pos (show i < cells.toList.length from hi), List.append_assoc]
  rfl

theorem minus_eq {amount less : Nat} (h : less ≤ amount) : minus amount less = .ok (amount - less) :=
  if_pos h

theorem bind_eq_ok {β γ : Type} {x : Except Trap β} {f : β → Except Trap γ} {c : γ} :
    x >>= f = .ok c ↔ ∃ b, x = .ok b ∧ f b = .ok c := by
  cases x with
  | ok b =>
      constructor
      · exact fun h => ⟨b, rfl, h⟩
      · rintro ⟨_, ⟨⟩, h⟩
        exact h
  | error trap =>
      constructor
      · intro h
        cases h
      · rintro ⟨_, h, -⟩
        cases h

theorem natural_eq (number : Nat) : natural number = .ok number :=
  if_pos (Int.natCast_nonneg number)

-- What holds after each item of a fold holds after the last one.
theorem exists_foldlM {ε σ : Type} (step : σ → α → Except ε σ) (items : List α) (state : σ)
    (holds : Nat → σ → Prop) (h : holds 0 state)
    (hstep : ∀ (i : Nat) (hi : i < items.length) (state : σ),
      holds i state → ∃ next, step state items[i] = .ok next ∧ holds (i + 1) next) :
    ∃ last, items.foldlM step state = .ok last ∧ holds items.length last := by
  induction items generalizing holds state with
  | nil => exact ⟨state, rfl, h⟩
  | cons item items ih =>
      obtain ⟨next, hnext, hholds⟩ := hstep 0 (Nat.succ_pos _) state h
      obtain ⟨last, hlast, hend⟩ := ih next (fun i => holds (i + 1)) hholds
        (fun i hi => hstep (i + 1) (Nat.succ_lt_succ hi))
      refine ⟨last, ?_, hend⟩
      have hitem : step state item = .ok next := hnext
      rw [List.foldlM_cons, hitem]
      exact hlast

variable {g : Register} {r : Reader}

theorem peek_eq (h : g.Shows r) {n : Nat} (hn : n ≤ 16) :
    ∃ g', peek g n = .ok (r.look n, g') ∧ g'.Shows (r.fetch n) ∧
      ((r.look n).isSome → n ≤ g'.held) := by
  obtain ⟨hanswer, hshows, hheld⟩ := h.peek hn
  have hlook : (g.peek n).1 = r.look n := hanswer
  refine ⟨(g.peek n).2, ?_, hshows, hlook ▸ hheld⟩
  rw [peek, if_pos hn, ← hlook]

theorem drop_eq (h : g.Shows r) {n : Nat} (hn : n ≤ g.held) :
    ∃ g', drop g n = .ok g' ∧ g'.Shows (r.drop n) :=
  ⟨g.drop n, if_pos hn, h.drop hn⟩

theorem read_eq (h : g.Shows r) {n : Nat} (hn : n ≤ 16) :
    ∃ g', read g n = .ok ((r.read n).1, g') ∧ g'.Shows (r.read n).2 := by
  obtain ⟨g', hpeek, hshows, hheld⟩ := peek_eq h hn
  rw [read, hpeek, Reader.read]
  cases hlook : r.look n with
  | some number =>
      obtain ⟨last, hdrop, hlast⟩ := drop_eq hshows (hheld (by rw [hlook]; rfl))
      exact ⟨last, by simp only [bind, Except.bind, pure, Except.pure, hdrop], hlast⟩
  | none => exact ⟨g', rfl, hshows⟩

theorem align_eq (h : g.Shows r) : ∃ g', align g = .ok g' ∧ g'.Shows r.align :=
  ⟨g.align, if_pos (Nat.mod_le _ _), h.align⟩

theorem take_eq (h : g.Shows r) (haligned : g.held % 8 = 0) (n : Nat) :
    ∃ g', take g n = .ok ((r.take n).1, g') ∧ g'.Shows (r.take n).2 := by
  obtain ⟨hbytes, hshows⟩ := h.take haligned n
  refine ⟨(g.take n).2, ?_, hshows⟩
  have hsame : (g.take n).1 = (r.take n).1 := ByteArray.ext (Array.toList_inj.mp hbytes)
  rw [take, if_pos haligned, ← hsame]

end Unpack.Machine
