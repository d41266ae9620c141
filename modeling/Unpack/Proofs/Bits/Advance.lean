import Unpack.Proofs.Bits.Reader

namespace Unpack.Bits.Reader

-- The same bits are left, and as many were consumed. How far the bytes were
-- looked at may differ.
structure Same (r next : Reader) : Prop where
  bits : next.bits = r.bits
  consumed : next.consumed = r.consumed

-- Some of the bits that were left are consumed.
structure Advances (r next : Reader) : Prop where
  le : r.consumed ≤ next.consumed
  bits : next.bits = r.bits.drop (next.consumed - r.consumed)
  total : next.consumed + next.bits.length = r.consumed + r.bits.length

theorem Same.refl (r : Reader) : r.Same r :=
  ⟨rfl, rfl⟩

theorem Same.symm {r next : Reader} (h : r.Same next) : next.Same r :=
  ⟨h.bits.symm, h.consumed.symm⟩

theorem Same.trans {r mid next : Reader} (h : r.Same mid) (hnext : mid.Same next) : r.Same next :=
  ⟨hnext.bits.trans h.bits, hnext.consumed.trans h.consumed⟩

theorem Same.available {r next : Reader} (h : r.Same next) : next.available = r.available := by
  rw [← next.length_bits, h.bits, r.length_bits]

theorem Same.advances {r next : Reader} (h : r.Same next) : r.Advances next := by
  refine ⟨Nat.le_of_eq h.consumed.symm, ?_, ?_⟩
  · rw [h.consumed, Nat.sub_self, List.drop_zero, h.bits]
  · rw [h.consumed, h.bits]

theorem Advances.refl (r : Reader) : r.Advances r :=
  (Same.refl r).advances

theorem Advances.length_le {r next : Reader} (h : r.Advances next) :
    next.bits.length ≤ r.bits.length := by
  have := h.le
  have := h.total
  omega

-- A reader that is ahead by no bit is at the same place.
theorem Advances.same {r next : Reader} (h : r.Advances next)
    (hlength : next.bits.length = r.bits.length) : r.Same next := by
  have hconsumed : next.consumed = r.consumed := by
    have := h.total
    omega
  refine ⟨?_, hconsumed⟩
  rw [h.bits, hconsumed, Nat.sub_self, List.drop_zero]

theorem Advances.trans {r mid next : Reader} (h : r.Advances mid) (hnext : mid.Advances next) :
    r.Advances next := by
  have hle := h.le
  have hle' := hnext.le
  refine ⟨Nat.le_trans hle hle', ?_, hnext.total.trans h.total⟩
  rw [hnext.bits, h.bits, List.drop_drop]
  congr 1
  omega

-- Moving ahead within the same bytes.
theorem advances_of_position {r next : Reader} (hbytes : next.bytes = r.bytes)
    (hreleased : next.released = r.released) (hposition : r.position ≤ next.position) :
    r.Advances next := by
  have hmoved : next.consumed - r.consumed = next.position - r.position := by
    simp only [consumed, hreleased]
    omega
  refine ⟨?_, ?_, ?_⟩
  · simp only [consumed, hreleased]
    omega
  · rw [hmoved]
    simp only [bits, hbytes, List.drop_drop]
    congr 1
    omega
  · have := r.position_le_size
    have := next.position_le_size
    simp only [length_bits, available, consumed, hreleased, hbytes] at *
    omega

theorem same_fetch (r : Reader) (n : Nat) : r.Same (r.fetch n) :=
  ⟨r.bits_fetch n, r.consumed_fetch n⟩

theorem advances_drop (r : Reader) (n : Nat) : r.Advances (r.drop n) := by
  refine advances_of_position rfl rfl ?_
  have := r.position_le
  simp only [drop]
  omega

theorem advances_read (r : Reader) (n : Nat) : r.Advances (r.read n).2 := by
  unfold read
  split
  · exact (r.same_fetch n).advances.trans (advances_drop _ n)
  · exact (r.same_fetch n).advances

theorem advances_align (r : Reader) : r.Advances r.align := by
  refine advances_of_position rfl rfl ?_
  simp only [align]
  omega

theorem advances_take (r : Reader) (n : Nat) : r.Advances (r.take n).2 := by
  refine advances_of_position rfl rfl ?_
  have := r.position_le_size
  simp only [take]
  omega

-- A number is read whole or not at all.
theorem read_cases (r : Reader) (n : Nat) :
    (∃ number next, r.read n = (some number, next) ∧ number < 2 ^ n ∧
      next.bits.length + n = r.bits.length) ∨
    (∃ next, r.read n = (none, next) ∧ r.bits.length < n ∧ r.Same next) := by
  rcases Nat.lt_or_ge r.bits.length n with hfew | hn
  · obtain ⟨next, hread, hbits, hconsumed⟩ := r.read_of_lt n hfew
    exact Or.inr ⟨next, hread, hfew, hbits, hconsumed⟩
  · obtain ⟨next, hread, hbits, -⟩ := r.read_of_le n hn
    have hnumber := value_lt (r.bits.take n)
    rw [List.length_take, Nat.min_eq_left hn] at hnumber
    refine Or.inl ⟨_, next, hread, hnumber, ?_⟩
    rw [hbits, List.length_drop]
    omega

theorem length_bits_align (r : Reader) : r.align.bits.length % 8 = 0 := by
  rw [r.bits_align, List.length_drop]
  omega

end Unpack.Bits.Reader
