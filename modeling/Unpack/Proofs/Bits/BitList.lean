import Mathlib.Algebra.Ring.Nat
import Unpack.Bytes

namespace Unpack.Bits

-- The bits of bytes, the least significant bit of each byte first.
def ofByte (byte : UInt8) : List Bool :=
  (List.range 8).map byte.toNat.testBit

def ofBytes (bytes : List UInt8) : List Bool :=
  bytes.flatMap ofByte

-- The number whose bits are given, the least significant first.
def value : List Bool → Nat
  | [] => 0
  | bit :: bits => bit.toNat + 2 * value bits

@[simp] theorem value_nil : value [] = 0 := rfl

theorem value_append (front back : List Bool) :
    value (front ++ back) = value front + 2 ^ front.length * value back := by
  induction front with
  | nil => simp
  | cons bit front ih =>
      simp only [List.cons_append, value, ih, List.length_cons, Nat.pow_succ]
      rw [Nat.mul_add, ← Nat.mul_assoc, Nat.mul_comm 2 (2 ^ front.length), Nat.add_assoc]

theorem value_lt (bits : List Bool) : value bits < 2 ^ bits.length := by
  induction bits with
  | nil => simp
  | cons bit bits ih =>
      have := bit.toNat_le
      simp only [value, List.length_cons, Nat.pow_succ]
      omega

theorem value_take_add_drop (bits : List Bool) (n : Nat) (hn : n ≤ bits.length) :
    value bits = value (bits.take n) + 2 ^ n * value (bits.drop n) := by
  have h := value_append (bits.take n) (bits.drop n)
  rwa [List.take_append_drop, List.length_take, Nat.min_eq_left hn] at h

theorem value_take (bits : List Bool) (n : Nat) : value (bits.take n) = value bits % 2 ^ n := by
  rcases Nat.le_total n bits.length with hn | hn
  · have hlt := value_lt (bits.take n)
    rw [List.length_take, Nat.min_eq_left hn] at hlt
    rw [value_take_add_drop bits n hn, Nat.add_mul_mod_self_left, Nat.mod_eq_of_lt hlt]
  · have hlt := Nat.lt_of_lt_of_le (value_lt bits) (Nat.pow_le_pow_right (by omega) hn)
    rw [List.take_of_length_le hn, Nat.mod_eq_of_lt hlt]

theorem value_drop (bits : List Bool) (n : Nat) : value (bits.drop n) = value bits / 2 ^ n := by
  rcases Nat.le_total n bits.length with hn | hn
  · have hlt := value_lt (bits.take n)
    rw [List.length_take, Nat.min_eq_left hn] at hlt
    rw [value_take_add_drop bits n hn, Nat.add_mul_div_left _ _ (Nat.two_pow_pos n),
      Nat.div_eq_of_lt hlt, Nat.zero_add]
  · have hlt := Nat.lt_of_lt_of_le (value_lt bits) (Nat.pow_le_pow_right (by omega) hn)
    rw [List.drop_of_length_le hn, Nat.div_eq_of_lt hlt, value_nil]

theorem value_injective {bits other : List Bool} (hlength : bits.length = other.length)
    (hvalue : value bits = value other) : bits = other := by
  induction bits generalizing other with
  | nil => exact (List.length_eq_zero_iff.mp hlength.symm).symm
  | cons bit bits ih =>
      obtain ⟨bit', others, rfl⟩ := List.exists_cons_of_length_eq_add_one hlength.symm
      have := bit.toNat_le
      have := bit'.toNat_le
      simp only [value] at hvalue
      have hbit : bit.toNat = bit'.toNat := by omega
      have hbits : bit = bit' := by
        cases bit <;> cases bit' <;> simp at hbit ⊢
      rw [ih (Nat.succ.inj hlength) (by omega), hbits]

-- The low `count` bits of a number, the least significant first.
def lowBits (number count : Nat) : List Bool :=
  (List.range count).map number.testBit

@[simp] theorem length_lowBits (number count : Nat) : (lowBits number count).length = count := by
  rw [lowBits, List.length_map, List.length_range]

theorem value_lowBits (number count : Nat) : value (lowBits number count) = number % 2 ^ count := by
  induction count generalizing number with
  | zero => simp [lowBits, Nat.mod_one]
  | succ count ih =>
      have hshift : (number.testBit ∘ Nat.succ) = (number / 2).testBit := by
        funext i
        simp [Function.comp, Nat.testBit_succ]
      have htail : lowBits number (count + 1) = number.testBit 0 :: lowBits (number / 2) count := by
        rw [lowBits, List.range_succ_eq_map, List.map_cons, List.map_map, hshift, lowBits]
      rw [htail, value, ih, Nat.testBit_zero, Nat.pow_succ, Nat.mul_comm (2 ^ count) 2, Nat.mod_mul]
      rcases Nat.mod_two_eq_zero_or_one number with h | h <;> simp [h]

@[simp] theorem length_ofByte (byte : UInt8) : (ofByte byte).length = 8 := by
  simp [ofByte]

theorem value_ofByte (byte : UInt8) : value (ofByte byte) = byte.toNat :=
  (value_lowBits byte.toNat 8).trans (Nat.mod_eq_of_lt byte.toNat_lt)

@[simp] theorem ofBytes_nil : ofBytes [] = [] := rfl

theorem ofBytes_cons (byte : UInt8) (bytes : List UInt8) :
    ofBytes (byte :: bytes) = ofByte byte ++ ofBytes bytes := rfl

theorem ofBytes_append (front back : List UInt8) :
    ofBytes (front ++ back) = ofBytes front ++ ofBytes back :=
  List.flatMap_append

@[simp] theorem length_ofBytes (bytes : List UInt8) : (ofBytes bytes).length = 8 * bytes.length := by
  induction bytes with
  | nil => rfl
  | cons byte bytes ih =>
      rw [ofBytes_cons, List.length_append, ih, length_ofByte, List.length_cons]
      omega

theorem drop_ofBytes (bytes : List UInt8) (n : Nat) :
    (ofBytes bytes).drop (8 * n) = ofBytes (bytes.drop n) := by
  induction n generalizing bytes with
  | zero => rfl
  | succ n ih =>
      cases bytes with
      | nil => simp
      | cons byte bytes =>
          rw [ofBytes_cons, List.drop_succ_cons, ← ih, Nat.mul_succ, Nat.add_comm,
            ← List.drop_drop, List.drop_left' (length_ofByte byte)]

theorem take_ofBytes (bytes : List UInt8) (n : Nat) :
    (ofBytes bytes).take (8 * n) = ofBytes (bytes.take n) := by
  have h := ofBytes_append (bytes.take n) (bytes.drop n)
  rw [List.take_append_drop, ← drop_ofBytes] at h
  have hsplit := List.take_append_drop (8 * n) (ofBytes bytes)
  exact List.append_cancel_right (hsplit.trans h)

theorem ofBytes_singleton (byte : UInt8) : ofBytes [byte] = ofByte byte := by
  rw [ofBytes_cons, ofBytes_nil, List.append_nil]

theorem value_ofBytes_cons (byte : UInt8) (bytes : List UInt8) :
    value (ofBytes (byte :: bytes)) = byte.toNat + 256 * value (ofBytes bytes) := by
  have hbyte : 2 ^ 8 = 256 := by decide
  rw [ofBytes_cons, value_append, value_ofByte, length_ofByte, hbyte]

-- The whole bytes that some bits begin with.
def toBytes (bits : List Bool) : List UInt8 :=
  (List.range (bits.length / 8)).map fun i => (value ((bits.drop (8 * i)).take 8)).toUInt8

theorem toBytes_ofBytes (bytes : List UInt8) : toBytes (ofBytes bytes) = bytes := by
  apply List.ext_getElem
  · simp [toBytes]
  · intro i hleft hright
    have hbyte := take_ofBytes (bytes.drop i) 1
    rw [Nat.mul_one, List.drop_eq_getElem_cons hright, List.take_succ_cons, List.take_zero,
      ← List.drop_eq_getElem_cons hright, ← drop_ofBytes] at hbyte
    simp only [toBytes, List.getElem_map, List.getElem_range, hbyte, ofBytes_cons, ofBytes_nil,
      List.append_nil, value_ofByte, Nat.toUInt8_eq, UInt8.ofNat_toNat]

end Unpack.Bits

namespace Unpack.Bytes

-- A little-endian number is the number of the bits.
theorem le_eq_value (bytes : ByteArray) (start count : Nat) :
    le bytes start count =
      Bits.value (Bits.ofBytes ((bytes.data.toList.drop start).take count)) := by
  induction count generalizing start with
  | zero => simp [le]
  | succ count ih =>
      rw [le, ih]
      by_cases h : start < bytes.size
      · have hlist : start < bytes.data.toList.length := h
        rw [List.drop_eq_getElem_cons hlist, List.take_succ_cons, Bits.value_ofBytes_cons]
        simp [octet, h, ByteArray.getElem_eq_getElem_data]
      · have hlist : bytes.data.toList.length ≤ start := Nat.le_of_not_lt h
        simp [octet, h, List.drop_of_length_le hlist,
          List.drop_of_length_le (Nat.le_succ_of_le hlist)]

theorem toList_extract (bytes : ByteArray) (start stop : Nat) :
    (bytes.extract start stop).data.toList = (bytes.data.toList.drop start).take (stop - start) := by
  rw [ByteArray.data_extract, Array.toList_extract, List.extract_eq_take_drop]

-- Bytes as a number, the least significant first.
def littleEndian (bytes : List UInt8) : Nat :=
  bytes.foldr (fun byte number => byte.toNat + 256 * number) 0

theorem littleEndian_cons (byte : UInt8) (bytes : List UInt8) :
    littleEndian (byte :: bytes) = byte.toNat + 256 * littleEndian bytes := rfl

theorem littleEndian_lt (bytes : List UInt8) : littleEndian bytes < 256 ^ bytes.length := by
  induction bytes with
  | nil => exact Nat.one_pos
  | cons byte bytes ih =>
      have hbyte := byte.toNat_lt
      rw [littleEndian_cons, List.length_cons, Nat.pow_succ]
      omega

theorem le_eq_littleEndian (bytes : ByteArray) (start count : Nat) :
    le bytes start count = littleEndian ((bytes.data.toList.drop start).take count) := by
  rw [le_eq_value]
  induction (bytes.data.toList.drop start).take count with
  | nil => rfl
  | cons byte rest ih => rw [Bits.value_ofBytes_cons, ih, littleEndian_cons]

end Unpack.Bytes
