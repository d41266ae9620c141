import Mathlib.Algebra.Ring.Nat

namespace Unpack.Bits

-- A number of bits to shift by, as a word.
theorem toNat_ofNat_mod {n : Nat} (hn : n < 32) : (UInt32.ofNat n).toNat % 32 = n := by
  rw [UInt32.toNat_ofNat']
  omega

theorem toNat_shiftRight (word : UInt32) {n : Nat} (hn : n < 32) :
    (word >>> UInt32.ofNat n).toNat = word.toNat / 2 ^ n := by
  rw [UInt32.toNat_shiftRight, toNat_ofNat_mod hn, Nat.shiftRight_eq_div_pow]

theorem toNat_ones {n : Nat} (hn : n < 32) :
    ((1 <<< UInt32.ofNat n) - 1 : UInt32).toNat = 2 ^ n - 1 := by
  have hpow : 2 ^ n < 2 ^ 32 := Nat.pow_lt_pow_right (by omega) hn
  have hone : ((1 : UInt32) <<< UInt32.ofNat n).toNat = 2 ^ n := by
    rw [UInt32.toNat_shiftLeft, toNat_ofNat_mod hn, UInt32.toNat_one, Nat.one_shiftLeft,
      Nat.mod_eq_of_lt hpow]
  have hle : (1 : UInt32) ≤ 1 <<< UInt32.ofNat n := by
    rw [UInt32.le_iff_toNat_le, hone]
    exact Nat.two_pow_pos n
  rw [UInt32.toNat_sub_of_le _ _ hle, hone, UInt32.toNat_one]

-- A byte set above the bits of a word.
theorem toNat_or_shiftLeft {word : UInt32} {n : Nat} (hn : n < 24) (hword : word.toNat < 2 ^ n)
    (byte : UInt8) :
    (word ||| (byte.toUInt32 <<< UInt32.ofNat n)).toNat = word.toNat + 2 ^ n * byte.toNat := by
  have hbyte := byte.toNat_lt
  have hfits : byte.toNat <<< n < 2 ^ 32 := by
    have hpow : 2 ^ n ≤ 2 ^ 24 := Nat.pow_le_pow_right (by omega) (by omega)
    rw [Nat.shiftLeft_eq]
    calc byte.toNat * 2 ^ n ≤ 255 * 2 ^ 24 := Nat.mul_le_mul (by omega) hpow
      _ < 2 ^ 32 := by decide
  rw [UInt32.toNat_or, UInt32.toNat_shiftLeft, toNat_ofNat_mod (by omega), UInt8.toNat_toUInt32,
    Nat.mod_eq_of_lt hfits, Nat.or_comm, ← Nat.shiftLeft_add_eq_or_of_lt hword, Nat.shiftLeft_eq,
    Nat.mul_comm, Nat.add_comm]

end Unpack.Bits
