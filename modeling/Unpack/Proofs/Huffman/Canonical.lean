import Mathlib.Algebra.Ring.Nat
import Mathlib.Data.List.GetD
import Unpack.Huffman.Table

namespace Unpack.Huffman

open Unpack.Huffman.Tree (firstCode population)

-- The low `count` bits of a code, the most significant first.
def codeBits (number : Nat) : (count : Nat) → List Bool
  | 0 => []
  | count + 1 => number.testBit count :: codeBits number count

def lengthOf (lengths : List Nat) (symbol : Nat) : Nat :=
  lengths.getD symbol 0

def HasCode (lengths : List Nat) (symbol : Nat) : Prop :=
  lengthOf lengths symbol ≠ 0

instance (lengths : List Nat) (symbol : Nat) : Decidable (HasCode lengths symbol) :=
  inferInstanceAs (Decidable (_ ≠ _))

-- Codes of one length are counted on from the first in the order of their
-- symbols.
def codeNumber (lengths : List Nat) (symbol : Nat) : Nat :=
  firstCode lengths (lengthOf lengths symbol) +
    (lengths.take symbol).count (lengthOf lengths symbol)

def code (lengths : List Nat) (symbol : Nat) : List Bool :=
  codeBits (codeNumber lengths symbol) (lengthOf lengths symbol)

-- The lengths fill the code space exactly.
def Complete (lengths : List Nat) : Prop :=
  (∀ length ∈ lengths, length ≤ maxLength) ∧
    (lengths.map Table.points).sum = Table.codeSpace

instance (lengths : List Nat) : Decidable (Complete lengths) :=
  inferInstanceAs (Decidable (_ ∧ _))

-- No code is too long, and the codes do not overfill the code space.
def Fits (lengths : List Nat) : Prop :=
  (∀ length ∈ lengths, length ≤ maxLength) ∧
    (lengths.map Table.points).sum ≤ Table.codeSpace

-- No symbol is used, or a single one with a code of one bit.
def Degenerate (lengths : List Nat) : Prop :=
  lengths.filter (· ≠ 0) = [] ∨ lengths.filter (· ≠ 0) = [1]

instance (lengths : List Nat) : Decidable (Degenerate lengths) :=
  inferInstanceAs (Decidable (_ ∨ _))

theorem HasCode.lt_length {lengths : List Nat} {symbol : Nat} (h : HasCode lengths symbol) :
    symbol < lengths.length := by
  apply Nat.lt_of_not_le
  intro hlarge
  exact h (List.getD_eq_default _ _ hlarge)

theorem HasCode.lengthOf_mem {lengths : List Nat} {symbol : Nat} (h : HasCode lengths symbol) :
    lengthOf lengths symbol ∈ lengths := by
  rw [lengthOf, List.getD_eq_getElem _ _ h.lt_length]
  exact List.getElem_mem h.lt_length

@[simp] theorem length_codeBits (number count : Nat) : (codeBits number count).length = count := by
  induction count with
  | zero => rfl
  | succ count ih => rw [codeBits, List.length_cons, ih]

@[simp] theorem length_code (lengths : List Nat) (symbol : Nat) :
    (code lengths symbol).length = lengthOf lengths symbol :=
  length_codeBits _ _

theorem codeBits_add (number high low : Nat) :
    codeBits number (high + low) = codeBits (number / 2 ^ low) high ++ codeBits number low := by
  induction high with
  | zero => simp [codeBits]
  | succ high ih =>
      rw [Nat.add_right_comm, codeBits, codeBits, ih, List.cons_append, Nat.testBit_div_two_pow]

theorem codeBits_prefix (number count short : Nat) (hshort : short ≤ count) :
    codeBits (number / 2 ^ (count - short)) short <+: codeBits number count := by
  have h := codeBits_add number short (count - short)
  rw [Nat.add_sub_of_le hshort] at h
  exact ⟨_, h.symm⟩

theorem codeBits_injective {number other count : Nat} (hnumber : number < 2 ^ count)
    (hother : other < 2 ^ count) (h : codeBits number count = codeBits other count) :
    number = other := by
  have hbits : ∀ n, codeBits number n = codeBits other n →
      ∀ i < n, number.testBit i = other.testBit i := by
    intro n
    induction n with
    | zero => intro _ i hi; omega
    | succ n ih =>
        intro h i hi
        rw [codeBits, codeBits, List.cons.injEq] at h
        rcases Nat.lt_succ_iff_lt_or_eq.mp hi with hi | rfl
        · exact ih h.2 i hi
        · exact h.1
  apply Nat.eq_of_testBit_eq
  intro i
  rcases Nat.lt_or_ge i count with hi | hi
  · exact hbits count h i hi
  · have hpow : 2 ^ count ≤ 2 ^ i := Nat.pow_le_pow_right (by omega) hi
    rw [Nat.testBit_lt_two_pow (by omega), Nat.testBit_lt_two_pow (by omega)]

theorem codeBits_add_mul (number high count : Nat) (hnumber : number < 2 ^ count) :
    ∀ n ≤ count, codeBits (2 ^ count * high + number) n = codeBits number n := by
  intro n hn
  induction n with
  | zero => rfl
  | succ n ih =>
      rw [codeBits, codeBits, ih (by omega), Nat.testBit_two_pow_mul_add _ hnumber,
        if_pos (by omega)]

-- Every list of bits is some number's.
theorem exists_codeBits (bits : List Bool) :
    ∃ number < 2 ^ bits.length, codeBits number bits.length = bits := by
  induction bits with
  | nil => exact ⟨0, by simp, rfl⟩
  | cons bit bits ih =>
      obtain ⟨number, hlt, hbits⟩ := ih
      have hbit := bit.toNat_le
      refine ⟨2 ^ bits.length * bit.toNat + number, ?_, ?_⟩
      · rw [List.length_cons, Nat.pow_succ]
        have := Nat.mul_le_mul_left (2 ^ bits.length) hbit
        omega
      · rw [List.length_cons, codeBits, codeBits_add_mul number _ _ hlt _ (Nat.le_refl _), hbits,
          Nat.testBit_two_pow_mul_add _ hlt, if_neg (Nat.lt_irrefl _), Nat.sub_self]
        cases bit <;> rfl

theorem firstCode_succ (lengths : List Nat) (length : Nat) :
    firstCode lengths (length + 1) =
      2 * (firstCode lengths length + population lengths length) := rfl

theorem population_of_ne_zero (lengths : List Nat) {length : Nat} (h : length ≠ 0) :
    population lengths length = lengths.count length := by
  rw [population, if_neg h]

-- What one symbol adds to the first code of a length.
def weight (length bound : Nat) : Nat :=
  if 0 < length ∧ length < bound then 2 ^ (bound - length) else 0

theorem weight_succ (length bound : Nat) :
    weight length (bound + 1) =
      2 * (weight length bound + if 0 < length ∧ length = bound then 1 else 0) := by
  unfold weight
  by_cases hlt : 0 < length ∧ length < bound
  · rw [if_pos hlt, if_pos (by omega), if_neg (by omega), show bound + 1 - length =
      bound - length + 1 by omega, Nat.pow_succ]
    omega
  · by_cases heq : 0 < length ∧ length = bound
    · rw [if_neg hlt, if_pos (by omega), if_pos heq, show bound + 1 - length = 1 by omega,
        Nat.pow_one]
    · rw [if_neg hlt, if_neg (by omega), if_neg heq]

theorem population_cons (length : Nat) (lengths : List Nat) (bound : Nat) :
    population (length :: lengths) bound =
      (if 0 < length ∧ length = bound then 1 else 0) + population lengths bound := by
  unfold population
  by_cases hzero : bound = 0
  · rw [if_pos hzero, if_pos hzero, if_neg (by omega)]
  · rw [if_neg hzero, if_neg hzero, List.count_cons, Nat.add_comm]
    by_cases heq : length = bound
    · rw [if_pos (show (length == bound) = true by simpa using heq), if_pos (by omega)]
    · rw [if_neg (show ¬(length == bound) = true by simpa using heq), if_neg (by omega)]

theorem firstCode_cons (length : Nat) (lengths : List Nat) (bound : Nat) :
    firstCode (length :: lengths) bound = weight length bound + firstCode lengths bound := by
  induction bound with
  | zero => simp [firstCode, weight]
  | succ bound ih =>
      rw [firstCode_succ, firstCode_succ, ih, population_cons, weight_succ]
      omega

theorem firstCode_eq_sum (lengths : List Nat) (bound : Nat) :
    firstCode lengths bound = (lengths.map (weight · bound)).sum := by
  induction lengths with
  | nil =>
      induction bound with
      | zero => rfl
      | succ bound ih =>
          rw [firstCode_succ, ih]
          simp [population]
  | cons length lengths ih => rw [firstCode_cons, ih, List.map_cons, List.sum_cons]

-- Sixteen bits hold every code, so the next first code tells the points used.
theorem firstCode_eq_points (lengths : List Nat) (hlengths : ∀ length ∈ lengths, length ≤ maxLength) :
    firstCode lengths 16 = (lengths.map Table.points).sum := by
  rw [firstCode_eq_sum]
  congr 1
  apply List.map_congr_left
  intro length hlength
  have hle := hlengths length hlength
  simp only [maxLength] at hle
  unfold weight Table.points
  by_cases hzero : length = 0
  · rw [if_neg (by omega), if_pos hzero]
  · rw [if_pos (by omega), if_neg hzero, Nat.one_shiftLeft]

theorem firstCode_mul_le (lengths : List Nat) (length more : Nat) :
    firstCode lengths length * 2 ^ more ≤ firstCode lengths (length + more) := by
  induction more with
  | zero => simp
  | succ more ih =>
      rw [← Nat.add_assoc, firstCode_succ, Nat.pow_succ, ← Nat.mul_assoc]
      omega

-- The codes of a length end before those of any greater length begin.
theorem succ_codeNumber_mul_le (lengths : List Nat) (symbol : Nat) (hcode : HasCode lengths symbol)
    (more : Nat) :
    (codeNumber lengths symbol + 1) * 2 ^ (more + 1) ≤
      firstCode lengths (lengthOf lengths symbol + 1 + more) := by
  have hindex := hcode.lt_length
  have hcount : (lengths.take symbol).count (lengthOf lengths symbol) <
      lengths.count (lengthOf lengths symbol) := by
    have hsplit := congrArg (List.count (lengthOf lengths symbol))
      (List.take_append_drop symbol lengths)
    rw [List.count_append, List.drop_eq_getElem_cons hindex, lengthOf,
      List.getD_eq_getElem _ _ hindex, List.count_cons_self] at hsplit
    rw [lengthOf, List.getD_eq_getElem _ _ hindex]
    omega
  have hle := firstCode_mul_le lengths (lengthOf lengths symbol + 1) more
  rw [firstCode_succ, population_of_ne_zero lengths hcode] at hle
  refine Nat.le_trans ?_ hle
  rw [Nat.pow_succ', ← Nat.mul_assoc]
  apply Nat.mul_le_mul_right
  rw [codeNumber]
  omega

-- The codes fit in their lengths unless the code space is overfull.
theorem codeNumber_lt {lengths : List Nat} (hfits : Fits lengths) {symbol : Nat}
    (hcode : HasCode lengths symbol) : codeNumber lengths symbol < 2 ^ lengthOf lengths symbol := by
  obtain ⟨hlengths, hspace⟩ := hfits
  have hlength : lengthOf lengths symbol ≤ 15 := hlengths _ hcode.lengthOf_mem
  have hnext := succ_codeNumber_mul_le lengths symbol hcode (15 - lengthOf lengths symbol)
  rw [show lengthOf lengths symbol + 1 + (15 - lengthOf lengths symbol) = 16 by omega,
    firstCode_eq_points lengths hlengths] at hnext
  have hpow : Table.codeSpace =
      2 ^ lengthOf lengths symbol * 2 ^ (15 - lengthOf lengths symbol + 1) := by
    rw [← Nat.pow_add, show lengthOf lengths symbol + (15 - lengthOf lengths symbol + 1) = 16 by
      omega]
    rfl
  have := Nat.le_of_mul_le_mul_right (hpow ▸ Nat.le_trans hnext hspace) (Nat.two_pow_pos _)
  omega

theorem Complete.fits {lengths : List Nat} (h : Complete lengths) : Fits lengths :=
  ⟨h.1, Nat.le_of_eq h.2⟩

theorem Degenerate.le_one {lengths : List Nat} (h : Degenerate lengths) :
    ∀ length ∈ lengths, length ≤ 1 := by
  intro length hmem
  by_cases hzero : length = 0
  · omega
  · have hused : length ∈ lengths.filter (· ≠ 0) :=
      List.mem_filter.mpr ⟨hmem, decide_eq_true hzero⟩
    rcases h with h | h <;> rw [h] at hused
    · exact absurd hused List.not_mem_nil
    · exact Nat.le_of_eq (List.mem_singleton.mp hused)

theorem sum_points_filter (lengths : List Nat) :
    (lengths.map Table.points).sum = ((lengths.filter (· ≠ 0)).map Table.points).sum := by
  induction lengths with
  | nil => rfl
  | cons length lengths ih =>
      by_cases hzero : length = 0
      · subst hzero
        simpa [Table.points] using ih
      · simpa [hzero] using ih

theorem Degenerate.points_le {lengths : List Nat} (h : Degenerate lengths) :
    (lengths.map Table.points).sum ≤ 32768 := by
  rw [sum_points_filter]
  rcases h with h | h <;> rw [h] <;> decide

theorem Degenerate.fits {lengths : List Nat} (h : Degenerate lengths) : Fits lengths := by
  constructor
  · intro length hmem
    have := h.le_one length hmem
    simp only [maxLength]
    omega
  · have := h.points_le
    simp only [Table.codeSpace]
    omega

theorem Degenerate.not_complete {lengths : List Nat} (h : Degenerate lengths) :
    ¬Complete lengths := by
  intro hcomplete
  have := h.points_le
  have := hcomplete.2
  simp only [Table.codeSpace] at *
  omega

-- Symbols of one length are numbered in their order.
theorem codeNumber_injective {lengths : List Nat} {symbol other : Nat}
    (hcode : HasCode lengths symbol) (hother : HasCode lengths other)
    (hlength : lengthOf lengths symbol = lengthOf lengths other)
    (hnumber : codeNumber lengths symbol = codeNumber lengths other) : symbol = other := by
  have hlt : ∀ a b, a < b → HasCode lengths a → lengthOf lengths a = lengthOf lengths b →
      codeNumber lengths a < codeNumber lengths b := by
    intro a b hab ha hl
    have hsplit : lengths.take b = lengths.take a ++ (lengths.drop a).take (b - a) := by
      rw [← List.take_add, Nat.add_sub_of_le (by omega)]
    rw [codeNumber, codeNumber, ← hl, hsplit, List.count_append,
      List.drop_eq_getElem_cons ha.lt_length, show b - a = b - a - 1 + 1 by omega,
      List.take_succ_cons, lengthOf, List.getD_eq_getElem _ _ ha.lt_length, List.count_cons_self]
    omega
  rcases Nat.lt_trichotomy symbol other with h | h | h
  · have := hlt symbol other h hcode hlength
    omega
  · exact h
  · have := hlt other symbol h hother hlength.symm
    omega

theorem code_prefix_injective {lengths : List Nat} (hfits : Fits lengths) {symbol other : Nat}
    (hcode : HasCode lengths symbol) (hother : HasCode lengths other)
    (hshort : lengthOf lengths symbol ≤ lengthOf lengths other)
    (hstarts : code lengths symbol <+: code lengths other) : symbol = other := by
  have hlt := codeNumber_lt hfits hcode
  have hlt' := codeNumber_lt hfits hother
  -- the number of the shorter code is that of the longer one, cut
  have hcut : codeNumber lengths symbol =
      codeNumber lengths other / 2 ^ (lengthOf lengths other - lengthOf lengths symbol) := by
    apply codeBits_injective hlt
    · apply Nat.div_lt_of_lt_mul
      rwa [← Nat.pow_add, Nat.sub_add_cancel hshort]
    · have h := codeBits_prefix (codeNumber lengths other) _ _ hshort
      exact (List.prefix_of_prefix_length_le hstarts h (by simp)).eq_of_length (by simp)
  rcases Nat.lt_or_eq_of_le hshort with hless | hsame
  · have hnext := succ_codeNumber_mul_le lengths symbol hcode
      (lengthOf lengths other - lengthOf lengths symbol - 1)
    rw [show lengthOf lengths other - lengthOf lengths symbol - 1 + 1 =
      lengthOf lengths other - lengthOf lengths symbol by omega,
      show lengthOf lengths symbol + 1 + (lengthOf lengths other - lengthOf lengths symbol - 1) =
        lengthOf lengths other by omega] at hnext
    have hfirst : firstCode lengths (lengthOf lengths other) ≤ codeNumber lengths other :=
      Nat.le_add_right _ _
    have := (Nat.le_div_iff_mul_le (Nat.two_pow_pos _)).mpr (Nat.le_trans hnext hfirst)
    omega
  · rw [hsame, Nat.sub_self, Nat.pow_zero, Nat.div_one] at hcut
    exact codeNumber_injective hcode hother hsame hcut

-- At most one code begins any given bits.
theorem code_unique {lengths : List Nat} (hfits : Fits lengths) {symbol other : Nat}
    (hcode : HasCode lengths symbol) (hother : HasCode lengths other) {bits : List Bool}
    (hbits : code lengths symbol <+: bits) (hbits' : code lengths other <+: bits) :
    symbol = other := by
  rcases Nat.le_total (lengthOf lengths symbol) (lengthOf lengths other) with h | h
  · exact code_prefix_injective hfits hcode hother h
      (List.prefix_of_prefix_length_le hbits hbits' (by simpa using h))
  · exact (code_prefix_injective hfits hother hcode h
      (List.prefix_of_prefix_length_le hbits' hbits (by simpa using h))).symm

-- The symbol of a length that has a given number of its like before it.
theorem exists_symbol_of_lt_count (lengths : List Nat) (length index : Nat)
    (hindex : index < lengths.count length) :
    ∃ symbol < lengths.length, lengthOf lengths symbol = length ∧
      (lengths.take symbol).count length = index := by
  induction lengths generalizing index with
  | nil => simp at hindex
  | cons head lengths ih =>
      rw [List.count_cons] at hindex
      by_cases hhead : head = length
      · rw [if_pos (by simpa using hhead)] at hindex
        rcases Nat.eq_zero_or_pos index with rfl | hpositive
        · exact ⟨0, by simp, by simpa [lengthOf] using hhead, by simp⟩
        · obtain ⟨symbol, hlt, hlength, hcount⟩ := ih (index - 1) (by omega)
          refine ⟨symbol + 1, by simpa using hlt, by simpa [lengthOf] using hlength, ?_⟩
          rw [List.take_succ_cons, List.count_cons, if_pos (by simpa using hhead), hcount]
          omega
      · rw [if_neg (by simpa using hhead)] at hindex
        obtain ⟨symbol, hlt, hlength, hcount⟩ := ih index (by omega)
        refine ⟨symbol + 1, by simpa using hlt, by simpa [lengthOf] using hlength, ?_⟩
        rw [List.take_succ_cons, List.count_cons, if_neg (by simpa using hhead), hcount,
          Nat.add_zero]

-- Going through the lengths: either a code of at most so many bits begins the
-- number, or the number lies beyond all of them.
theorem exists_code_or_beyond (lengths : List Nat) (number length : Nat) (hlength : length ≤ 15) :
    (∃ symbol, HasCode lengths symbol ∧ lengthOf lengths symbol ≤ 15 ∧
      codeNumber lengths symbol = number / 2 ^ (15 - lengthOf lengths symbol)) ∨
    firstCode lengths length + population lengths length ≤ number / 2 ^ (15 - length) := by
  induction length with
  | zero => exact Or.inr (by simp [firstCode, population])
  | succ length ih =>
      rcases ih (by omega) with hfound | hbeyond
      · exact Or.inl hfound
      · have hhalf : number / 2 ^ (15 - length) = number / 2 ^ (15 - (length + 1)) / 2 := by
          rw [Nat.div_div_eq_div_mul, ← Nat.pow_succ, Nat.succ_eq_add_one,
            show 15 - (length + 1) + 1 = 15 - length by omega]
        rw [hhalf] at hbeyond
        have hfirst := firstCode_succ lengths length
        by_cases hinside : number / 2 ^ (15 - (length + 1)) <
            firstCode lengths (length + 1) + population lengths (length + 1)
        · rw [population_of_ne_zero lengths (show length + 1 ≠ 0 by omega)] at hinside
          obtain ⟨symbol, _, hsymbol, hcount⟩ := exists_symbol_of_lt_count lengths (length + 1)
            (number / 2 ^ (15 - (length + 1)) - firstCode lengths (length + 1)) (by omega)
          refine Or.inl ⟨symbol, ?_, by omega, ?_⟩
          · rw [HasCode, hsymbol]
            omega
          · rw [codeNumber, hsymbol, hcount]
            omega
        · exact Or.inr (by omega)

-- A complete code leaves no long list of bits without a symbol.
theorem Complete.exists_code {lengths : List Nat} (h : Complete lengths) (bits : List Bool)
    (hbits : maxLength ≤ bits.length) :
    ∃ symbol, HasCode lengths symbol ∧ code lengths symbol <+: bits := by
  simp only [maxLength] at hbits
  obtain ⟨number, hlt, hnumber⟩ := exists_codeBits (bits.take 15)
  rw [List.length_take, Nat.min_eq_left hbits] at hlt hnumber
  rcases exists_code_or_beyond lengths number 15 (Nat.le_refl _) with hfound | hbeyond
  · obtain ⟨symbol, hcode, hlength, hsymbol⟩ := hfound
    refine ⟨symbol, hcode, List.IsPrefix.trans ?_ (List.take_prefix 15 bits)⟩
    rw [← hnumber, code, hsymbol]
    exact codeBits_prefix number 15 _ hlength
  · have hspace := firstCode_eq_points lengths h.1
    rw [h.2, firstCode_succ, Table.codeSpace] at hspace
    rw [Nat.sub_self, Nat.pow_zero, Nat.div_one] at hbeyond
    omega

end Unpack.Huffman
