import Mathlib.Logic.Relation
import Unpack.Loop

namespace Unpack.Loop

variable {σ α : Type}

-- Without any bound on the rounds, the loop from `s` is done in round `k`.
inductive Ends (body : σ → σ ⊕ α) : (k : Nat) → (s : σ) → α → Prop where
  | done {s : σ} {a : α} (h : body s = .inr a) : Ends body 1 s a
  | again {k : Nat} {s s' : σ} {a : α} (h : body s = .inl s') (hends : Ends body k s' a) :
      Ends body (k + 1) s a

-- The loop from one place comes to the other.
def Reaches (body : σ → σ ⊕ α) : σ → σ → Prop :=
  Relation.ReflTransGen fun s s' => body s = .inl s'

variable {body : σ → σ ⊕ α} {s : σ}

-- What each round keeps, and what it is done with, holds of the whole loop.
theorem run_rule {P : σ → Prop} {Q : α → Prop} (hround : ∀ s, P s → (body s).elim P Q)
    {giveUp : σ → α} (hgiveUp : ∀ s, P s → Q (giveUp s)) (rounds : Nat) (h : P s) :
    Q (run body giveUp rounds s) := by
  induction rounds generalizing s with
  | zero => exact hgiveUp s h
  | succ rounds ih =>
      have hbody := hround s h
      rw [run]
      cases hresult : body s with
      | inl s' =>
          rw [hresult] at hbody
          exact ih hbody
      | inr a =>
          rw [hresult] at hbody
          exact hbody

-- The same with a bound on the rounds to come, which each round takes from, so
-- that they are used up only when nothing is left of it.
theorem run_rule_ranked {P : Nat → σ → Prop} {Q : α → Prop}
    (hround : ∀ left s, P left s → (body s).elim (fun s' => ∃ less < left, P less s') Q)
    {giveUp : σ → α} (hgiveUp : ∀ s, P 0 s → Q (giveUp s)) {left rounds : Nat}
    (hrounds : left ≤ rounds) (h : P left s) : Q (run body giveUp rounds s) := by
  induction rounds generalizing left s with
  | zero =>
      obtain rfl : left = 0 := Nat.le_zero.mp hrounds
      exact hgiveUp s h
  | succ rounds ih =>
      have hbody := hround left s h
      rw [run]
      cases hresult : body s with
      | inl s' =>
          rw [hresult] at hbody
          obtain ⟨less, hless, hkept⟩ := hbody
          exact ih (Nat.le_of_lt_succ (Nat.lt_of_lt_of_le hless hrounds)) hkept
      | inr a =>
          rw [hresult] at hbody
          exact hbody

-- The bound may be a measure of the state.
theorem run_rule_of_measure {P : σ → Prop} {Q : α → Prop} (measure : σ → Nat)
    (hround : ∀ s, P s → (body s).elim (fun s' => P s' ∧ measure s' < measure s) Q)
    {giveUp : σ → α} (hgiveUp : ∀ s, P s → measure s = 0 → Q (giveUp s)) {rounds : Nat}
    (hrounds : measure s ≤ rounds) (h : P s) : Q (run body giveUp rounds s) := by
  refine run_rule_ranked (P := fun left s => P s ∧ measure s = left) (fun left s hs => ?_)
    (fun s hs => hgiveUp s hs.1 hs.2) hrounds ⟨h, rfl⟩
  obtain ⟨hs, rfl⟩ := hs
  have hbody := hround s hs
  cases hresult : body s with
  | inl s' =>
      rw [hresult] at hbody
      exact ⟨measure s', hbody.2, hbody.1, rfl⟩
  | inr a =>
      rw [hresult] at hbody
      exact hbody

-- A loop that is done in time does not give up.
theorem Ends.run_eq {k : Nat} {a : α} (h : Ends body k s a) (giveUp : σ → α) {rounds : Nat}
    (hrounds : k ≤ rounds) : run body giveUp rounds s = a := by
  induction h generalizing rounds with
  | done h =>
      obtain ⟨rest, rfl⟩ := Nat.exists_eq_succ_of_ne_zero (Nat.ne_zero_of_lt hrounds)
      rw [run, h]
  | again h _ ih =>
      obtain ⟨rest, rfl⟩ := Nat.exists_eq_succ_of_ne_zero (Nat.ne_zero_of_lt hrounds)
      rw [run, h]
      exact ih (Nat.le_of_succ_le_succ hrounds)

-- A loop ends that keeps an invariant and takes from a measure in each round.
theorem exists_ends {P : σ → Prop} {Q : α → Prop} (measure : σ → Nat)
    (hround : ∀ s, P s → (body s).elim (fun s' => P s' ∧ measure s' < measure s) Q) (h : P s) :
    ∃ k a, Ends body k s a ∧ k ≤ measure s + 1 ∧ Q a := by
  induction hmeasure : measure s using Nat.strongRecOn generalizing s with
  | ind bound ih =>
      have hbody := hround s h
      cases hresult : body s with
      | inl s' =>
          rw [hresult] at hbody
          obtain ⟨hkept, hless⟩ := hbody
          obtain ⟨k, a, hends, hle, ha⟩ := ih (measure s') (hmeasure ▸ hless) hkept rfl
          exact ⟨k + 1, a, .again hresult hends, by omega, ha⟩
      | inr a =>
          rw [hresult] at hbody
          exact ⟨1, a, .done hresult, by omega, hbody⟩

-- What each round keeps holds wherever the loop comes to.
theorem Reaches.invariant {P : σ → Prop} (hround : ∀ s s', P s → body s = .inl s' → P s') {s' : σ}
    (hreaches : Reaches body s s') (h : P s) : P s' := by
  induction hreaches with
  | refl => exact h
  | tail _ hlast ih => exact hround _ _ ih hlast

end Unpack.Loop
