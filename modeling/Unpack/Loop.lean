namespace Unpack.Loop

variable {σ α : Type}

-- Run the body round after round until it is done, and give up when the rounds
-- are used up.
def run (body : σ → σ ⊕ α) (giveUp : σ → α) : (rounds : Nat) → σ → α
  | 0, s => giveUp s
  | rounds + 1, s =>
      match body s with
      | .inl s => run body giveUp rounds s
      | .inr a => a

end Unpack.Loop
