import Mathlib.Tactic.Ring
import Unpack.Bits.Writer
import Unpack.Proofs.Bits.BitList
import Unpack.Proofs.Bits.Words
import Unpack.Proofs.Huffman.Canonical

namespace Unpack.Bits

open Huffman (codeBits length_codeBits)

theorem ofBytes_injective {bytes other : List UInt8} (h : ofBytes bytes = ofBytes other) :
    bytes = other := by
  rw [← toBytes_ofBytes bytes, h, toBytes_ofBytes]

theorem length_ofBytes_mod (bytes : List UInt8) : (ofBytes bytes).length % 8 = 0 := by
  rw [length_ofBytes, Nat.mul_mod_right]

theorem lowBits_value (bits : List Bool) : lowBits (value bits) bits.length = bits :=
  value_injective (length_lowBits _ _)
    (by rw [value_lowBits, Nat.mod_eq_of_lt (value_lt bits)])

-- The zeros that fill up the last byte of so many bits.
def padding (length : Nat) : List Bool :=
  List.replicate ((8 - length % 8) % 8) false

theorem padding_of_whole {length : Nat} (h : length % 8 = 0) : padding length = [] := by
  rw [padding, h]
  rfl

theorem lowBits_zero (count : Nat) : lowBits 0 count = List.replicate count false := by
  rw [lowBits, List.eq_replicate_iff]
  simp

namespace Writer

variable {w : Writer} {bits : List Bool}

-- The bits that a writer holds: those of its bytes, then those in its buffer.
def Carries (w : Writer) (bits : List Bool) : Prop :=
  ∃ tail, tail.length = w.held ∧ value tail = w.buffer.toNat ∧
    bits = ofBytes w.bytes.data.toList ++ tail

-- Between calls no whole byte waits in the buffer.
structure Shows (w : Writer) (bits : List Bool) : Prop where
  carries : w.Carries bits
  few : w.held < 8

theorem shows_empty : empty.Shows [] :=
  ⟨⟨[], rfl, rfl, rfl⟩, by decide⟩

theorem Shows.held_eq (h : w.Shows bits) : w.held = bits.length % 8 := by
  obtain ⟨⟨tail, hlength, -, rfl⟩, hfew⟩ := h
  rw [List.length_append, length_ofBytes]
  omega

-- At a byte boundary every bit is in the bytes.
theorem Shows.eq_ofBytes (h : w.Shows bits) (hwhole : bits.length % 8 = 0) :
    bits = ofBytes w.bytes.data.toList ∧ w.buffer = 0 := by
  have hheld := h.held_eq
  obtain ⟨⟨tail, hlength, hvalue, hbits⟩, -⟩ := h
  have hnone : tail = [] := List.length_eq_zero_iff.mp (by omega)
  rw [hnone] at hvalue hbits
  exact ⟨hbits.trans (List.append_nil _), UInt64.toNat_inj.mp hvalue.symm⟩

theorem shows_ofBytes {bytes : List UInt8} (hbytes : w.bytes.data.toList = bytes)
    (hbuffer : w.buffer = 0) (hheld : w.held = 0) : w.Shows (ofBytes bytes) :=
  ⟨⟨[], hheld.symm, by rw [hbuffer]; rfl, by rw [hbytes, List.append_nil]⟩, by omega⟩

-- Moving the low byte of the buffer behind the bytes moves no bit.
theorem Carries.spill (h : w.Carries bits) : w.spill.Shows bits := by
  fun_induction Writer.spill w with
  | case1 w hfull ih =>
      obtain ⟨tail, hlength, hvalue, hbits⟩ := h
      have hbyte : ofByte w.buffer.toUInt8 = tail.take 8 := by
        apply value_injective
        · rw [length_ofByte, List.length_take]
          omega
        · rw [value_ofByte, value_take, hvalue, UInt64.toNat_toUInt8]
      refine ih ⟨tail.drop 8, ?_, ?_, ?_⟩
      · rw [List.length_drop, hlength]
      · have height : (8 : UInt64).toNat % 64 = 8 := rfl
        rw [value_drop, hvalue, UInt64.toNat_shiftRight, height, Nat.shiftRight_eq_div_pow]
      · rw [ByteArray.data_push, Array.toList_push, ofBytes_append, ofBytes_singleton, hbyte,
          List.append_assoc, List.take_append_drop, hbits]
  | case2 w hfew => exact ⟨h, by omega⟩

theorem written_spill (w : Writer) : w.spill.written = w.written := by
  fun_induction Writer.spill w with
  | case1 w hfull ih => exact ih
  | case2 w hfew => rfl

theorem toNat_mask {count : Nat} (hcount : count ≤ 32) : (mask count).toNat = 2 ^ count - 1 := by
  unfold mask
  split
  case isTrue h =>
    rw [h]
    rfl
  case isFalse h => exact toNat_ones (by omega)

theorem toNat_field (number : Nat) {count : Nat} (hcount : count ≤ 32) :
    (UInt32.ofNat number &&& mask count).toUInt64.toNat = number % 2 ^ count := by
  rw [UInt32.toNat_toUInt64, UInt32.toNat_and, toNat_mask hcount, Nat.and_two_pow_sub_one_eq_mod,
    UInt32.toNat_ofNat', Nat.mod_mod_of_dvd _ (Nat.pow_dvd_pow 2 hcount)]

-- A field set above the bits of a buffer.
theorem toNat_or_field {buffer field : UInt64} {held count : Nat} (hheld : held < 8)
    (hbuffer : buffer.toNat < 2 ^ held) (hcount : count ≤ 32) (hfield : field.toNat < 2 ^ count) :
    (buffer ||| (field <<< UInt64.ofNat held)).toNat = buffer.toNat + 2 ^ held * field.toNat := by
  have hplace : (UInt64.ofNat held).toNat % 64 = held := by
    rw [UInt64.toNat_ofNat']
    omega
  have hfits : field.toNat <<< held < 2 ^ 64 := by
    have hlow : 2 ^ held ≤ 2 ^ 8 := Nat.pow_le_pow_right (by decide) (by omega)
    have hhigh : 2 ^ count ≤ 2 ^ 32 := Nat.pow_le_pow_right (by decide) hcount
    rw [Nat.shiftLeft_eq]
    calc field.toNat * 2 ^ held ≤ 2 ^ 32 * 2 ^ 8 := Nat.mul_le_mul (by omega) hlow
      _ < 2 ^ 64 := by decide
  rw [UInt64.toNat_or, UInt64.toNat_shiftLeft, hplace, Nat.mod_eq_of_lt hfits, Nat.or_comm,
    ← Nat.shiftLeft_add_eq_or_of_lt hbuffer, Nat.shiftLeft_eq, Nat.mul_comm, Nat.add_comm]

theorem Shows.put (h : w.Shows bits) (number : Nat) {count : Nat} (hcount : count ≤ 32) :
    (w.put number count).Shows (bits ++ lowBits number count) := by
  unfold Writer.put
  split
  case isTrue hnone =>
    rw [hnone, show lowBits number 0 = [] from rfl, List.append_nil]
    exact h
  case isFalse =>
    obtain ⟨⟨tail, hlength, hvalue, rfl⟩, hfew⟩ := h
    apply Carries.spill
    have hfield := toNat_field number hcount
    have hbuffer : w.buffer.toNat < 2 ^ w.held := by
      rw [← hvalue, ← hlength]
      exact value_lt tail
    refine ⟨tail ++ lowBits number count, ?_, ?_, List.append_assoc _ _ _⟩
    · rw [List.length_append, hlength, length_lowBits]
    · rw [value_append, value_lowBits, hlength, hvalue,
        toNat_or_field hfew hbuffer hcount (hfield ▸ Nat.mod_lt _ (Nat.two_pow_pos count)), hfield]

theorem written_put (w : Writer) (number count : Nat) :
    (w.put number count).written = w.written + count := by
  unfold Writer.put
  split
  case isTrue hnone => rw [hnone, Nat.add_zero]
  case isFalse => exact written_spill _

theorem toNat_bit (code : Nat) {i : Nat} (hi : i < 16) :
    ((UInt16.ofNat code >>> UInt16.ofNat i) &&& 1).toUInt32.toNat = (code.testBit i).toNat := by
  have hplace : (UInt16.ofNat i).toNat % 16 = i := by
    rw [UInt16.toNat_ofNat']
    omega
  have hone : (1 : UInt16).toNat = 1 := rfl
  rw [UInt16.toNat_toUInt32, UInt16.toNat_and, UInt16.toNat_shiftRight, hplace, hone,
    UInt16.toNat_ofNat', Nat.and_one_is_mod, Nat.toNat_testBit, Nat.shiftRight_eq_div_pow]
  have hsplit : (2 : Nat) ^ 16 = 2 ^ i * (2 ^ (15 - i) * 2) := by
    rw [← Nat.pow_succ, ← Nat.pow_add]
    congr 1
    omega
  rw [hsplit, Nat.mod_mul_right_div_self, Nat.mod_mul_left_mod]

-- After `count` bits of the code the word holds them in its upper places.
theorem toNat_foldl_turned (code : Nat) {length : Nat} (hlength : length ≤ 16) {count : Nat}
    (hcount : count ≤ length) :
    ((List.range count).foldl (fun number i =>
      number ||| (((UInt16.ofNat code >>> UInt16.ofNat i) &&& 1).toUInt32 <<<
        UInt32.ofNat (length - 1 - i))) 0).toNat =
      2 ^ (length - count) * value (codeBits code count) := by
  induction count with
  | zero => rfl
  | succ count ih =>
      have hplace : (UInt32.ofNat (length - 1 - count)).toNat % 32 = length - (count + 1) := by
        rw [toNat_ofNat_mod (by omega)]
        omega
      have hbit := (code.testBit count).toNat_le
      have hpow : length - count = length - (count + 1) + 1 := by omega
      have hspan : 2 ^ (length - (count + 1)) ≤ 2 ^ 16 := Nat.pow_le_pow_right (by decide) (by omega)
      have hmul := Nat.mul_le_mul_right (2 ^ (length - (count + 1))) hbit
      have hfits : (code.testBit count).toNat * 2 ^ (length - (count + 1)) <
          2 ^ (length - count) := by
        have := Nat.two_pow_pos (length - (count + 1))
        rw [hpow, Nat.pow_succ]
        omega
      rw [List.range_succ, List.foldl_append, List.foldl_cons, List.foldl_nil, UInt32.toNat_or,
        ih (by omega), UInt32.toNat_shiftLeft, hplace, toNat_bit code (by omega), Nat.shiftLeft_eq,
        Nat.mod_eq_of_lt (by omega), ← Nat.two_pow_add_eq_or_of_lt hfits, codeBits, value, hpow,
        Nat.pow_succ]
      ring

-- Taken from the low end, the word yields the code from its high end.
theorem lowBits_turned (code : Nat) {length : Nat} (hlength : length ≤ 16) :
    lowBits (turned (UInt16.ofNat code) length).toNat length = codeBits code length := by
  have hturned : (turned (UInt16.ofNat code) length).toNat = value (codeBits code length) := by
    have hall := toNat_foldl_turned code hlength (Nat.le_refl length)
    rwa [Nat.sub_self, Nat.pow_zero, Nat.one_mul] at hall
  have hbits := lowBits_value (codeBits code length)
  rwa [length_codeBits, ← hturned] at hbits

theorem Shows.putCode (h : w.Shows bits) (code : Nat) {length : Nat} (hlength : length ≤ 16) :
    (w.putCode code length).Shows (bits ++ codeBits code length) := by
  rw [← lowBits_turned code hlength]
  exact h.put _ (by omega)

theorem Shows.align (h : w.Shows bits) : w.align.Shows (bits ++ padding bits.length) := by
  have hheld := h.held_eq
  unfold Writer.align
  split
  case isTrue hwhole =>
    rw [padding_of_whole (by omega), List.append_nil]
    exact h
  case isFalse hpart =>
    have hcount : (8 - bits.length % 8) % 8 = 8 - w.held % 8 := by omega
    rw [padding, hcount, ← lowBits_zero]
    exact h.put 0 (by omega)

theorem length_append_padding (bits : List Bool) :
    (bits ++ padding bits.length).length % 8 = 0 := by
  rw [List.length_append, padding, List.length_replicate]
  omega

theorem written_align (h : w.Shows bits) :
    w.align.written = w.written + (padding bits.length).length := by
  have hheld := h.held_eq
  unfold Writer.align
  split
  case isTrue hwhole =>
    rw [padding_of_whole (by omega)]
    rfl
  case isFalse hpart =>
    rw [written_put, padding, List.length_replicate]
    omega

-- Bytes go past the buffer, which is empty by then.
theorem shows_putBytes {bytes : List UInt8} (h : w.align.Shows (ofBytes bytes)) (data : ByteArray) :
    (w.putBytes data).Shows (ofBytes (bytes ++ data.data.toList)) := by
  have hwhole := length_ofBytes_mod bytes
  obtain ⟨hbits, hbuffer⟩ := h.eq_ofBytes hwhole
  have hheld := h.held_eq.trans hwhole
  refine shows_ofBytes ?_ hbuffer hheld
  rw [Writer.putBytes, ByteArray.data_append, Array.toList_append, ofBytes_injective hbits]

theorem Shows.putBytes (h : w.Shows bits) (data : ByteArray) :
    (w.putBytes data).Shows (bits ++ padding bits.length ++ ofBytes data.data.toList) := by
  have haligned := h.align
  obtain ⟨hbits, -⟩ := haligned.eq_ofBytes (length_append_padding bits)
  rw [hbits] at haligned ⊢
  rw [← ofBytes_append]
  exact shows_putBytes haligned data

theorem Shows.take (h : w.Shows bits) :
    ∃ rest, bits = ofBytes w.take.1.data.toList ++ rest ∧ w.take.2.Shows rest := by
  obtain ⟨⟨tail, hlength, hvalue, hbits⟩, hfew⟩ := h
  exact ⟨tail, hbits, ⟨tail, hlength, hvalue, rfl⟩, hfew⟩

theorem Shows.finish (h : w.Shows bits) :
    ofBytes w.finish.data.toList = bits ++ padding bits.length :=
  (h.align.eq_ofBytes (length_append_padding bits)).1.symm

end Writer

end Unpack.Bits
