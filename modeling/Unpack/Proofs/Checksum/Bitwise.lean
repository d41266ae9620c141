import Unpack.Proofs.Checksum.Crc32

namespace Unpack.Crc32

-- One bit through the register. The bit that falls out of the register is
-- compared with the bit that comes in, and the polynomial goes in where they
-- differ.
def addBit (register : UInt32) (bit : Bool) : UInt32 :=
  if (register &&& 1 == 1) ^^ bit then (register >>> 1) ^^^ 0xEDB88320 else register >>> 1

-- The checksum taken bit by bit, with no table.
def bitwise (bytes : List UInt8) : UInt32 :=
  (Bits.ofBytes bytes).foldl addBit 0xFFFFFFFF ^^^ 0xFFFFFFFF

-- A bit may also be put into the register before the shift.
theorem shift_bit (register : UInt32) (bit : Bool) :
    shift (register ^^^ UInt32.ofNat bit.toNat) = addBit register bit := by
  cases bit with
  | false =>
      have hnone : UInt32.ofNat false.toNat = 0 := rfl
      rw [hnone, UInt32.xor_zero]
      simp only [shift, addBit, Bool.xor_false, beq_iff_eq]
  | true =>
      have hone : shift (UInt32.ofNat true.toNat) = 0xEDB88320 := by decide
      rw [shift_xor, hone]
      by_cases hodd : register &&& 1 = 1
      · simp only [shift, addBit, hodd, if_true, beq_self_eq_true, Bool.xor_true, Bool.not_true,
          Bool.false_eq_true, if_false, UInt32.xor_assoc, UInt32.xor_self, UInt32.xor_zero]
      · have heven : (register &&& 1 == 1) = false := beq_eq_false_iff_ne.mpr hodd
        simp only [shift, addBit, hodd, heven, if_false, Bool.xor_true, Bool.not_false, if_true]

-- The same for as many bits as the register has: what waits in its higher
-- bits meets the bit that falls out when its turn comes.
theorem shifts_bits (bits : List Bool) (hlength : bits.length ≤ 32) (register : UInt32) :
    shifts bits.length (register ^^^ UInt32.ofNat (Bits.value bits)) =
      bits.foldl addBit register := by
  induction bits generalizing register with
  | nil =>
      have hnone : UInt32.ofNat (Bits.value []) = 0 := rfl
      rw [hnone, UInt32.xor_zero]
      rfl
  | cons bit bits ih =>
      have hvalue := Bits.value_lt (bit :: bits)
      have hpow : 2 ^ (bit :: bits).length ≤ 2 ^ 32 := Nat.pow_le_pow_right (by decide) hlength
      have hsum : Bits.value (bit :: bits) = 2 ^ 1 * Bits.value bits + bit.toNat := by
        rw [Bits.value, Nat.pow_one, Nat.add_comm]
      have hfits : 2 ^ 1 * Bits.value bits + bit.toNat < 2 ^ 32 := by omega
      have hmoved := shift_double (show 2 * Bits.value bits < 2 ^ 32 by omega)
      rw [List.length_cons, List.foldl_cons, shifts, hsum,
        ofNat_two_pow_mul_add bit.toNat_lt hfits, ← UInt32.xor_assoc, shift_xor, shift_bit,
        Nat.pow_one, hmoved]
      exact ih (by rw [List.length_cons] at hlength; omega) _

theorem addByte_eq_foldl (register : UInt32) (byte : UInt8) :
    addByte register byte = (Bits.ofByte byte).foldl addBit register := by
  have hlength : (Bits.ofByte byte).length ≤ 32 := by
    rw [Bits.length_ofByte]
    decide
  have hbits := shifts_bits (Bits.ofByte byte) hlength register
  rwa [Bits.value_ofByte, Bits.length_ofByte, UInt32.ofNat_uInt8ToNat] at hbits

theorem foldl_addByte (bytes : List UInt8) (register : UInt32) :
    bytes.foldl addByte register = (Bits.ofBytes bytes).foldl addBit register := by
  induction bytes generalizing register with
  | nil => rfl
  | cons byte bytes ih =>
      rw [List.foldl_cons, ih, addByte_eq_foldl, Bits.ofBytes_cons, List.foldl_append]

-- The pieces leave the register where all their bytes in one piece leave it.
theorem foldl_update (pieces : List ByteArray) (crc : Crc32) :
    pieces.foldl update crc =
      ⟨(pieces.flatMap fun piece => piece.data.toList).foldl addByte crc.register⟩ := by
  induction pieces generalizing crc with
  | nil => rfl
  | cons piece pieces ih =>
      rw [List.foldl_cons, ih, update_eq_foldl, List.flatMap_cons, List.foldl_append]

-- However the bytes are cut into pieces, the tables and the groups of four
-- come to the checksum taken bit by bit, and so does one call with them all.
theorem value_foldl_update_eq_bitwise (pieces : List ByteArray) :
    let bytes := pieces.flatMap fun piece => piece.data.toList
    (pieces.foldl update empty).value = bitwise bytes ∧ of ⟨bytes.toArray⟩ = bitwise bytes := by
  intro bytes
  have hbits : bitwise bytes = bytes.foldl addByte 0xFFFFFFFF ^^^ 0xFFFFFFFF := by
    rw [bitwise, foldl_addByte]
  constructor
  · rw [hbits, foldl_update]
    rfl
  · rw [hbits, of, update_eq_foldl]
    rfl

example : bitwise "123456789".toUTF8.data.toList = 0xCBF43926 := by decide +kernel

end Unpack.Crc32
