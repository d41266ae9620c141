import Unpack.Proofs.Bits.BitList

namespace Unpack.Bytes

-- The low `count` bytes of a number, the least significant first.
def digits : (count value : Nat) → List UInt8
  | 0, _ => []
  | count + 1, value => value.toUInt8 :: digits count (value / 256)

@[simp] theorem length_digits (count value : Nat) : (digits count value).length = count := by
  induction count generalizing value with
  | zero => rfl
  | succ count ih => rw [digits, List.length_cons, ih]

theorem littleEndian_digits (count value : Nat) :
    littleEndian (digits count value) = value % 256 ^ count := by
  induction count generalizing value with
  | zero => rw [Nat.pow_zero, Nat.mod_one]; rfl
  | succ count ih =>
      have hbyte : value.toUInt8.toNat = value % 256 := rfl
      rw [digits, littleEndian_cons, ih, hbyte, Nat.pow_succ, Nat.mul_comm (256 ^ count) 256,
        Nat.mod_mul]

theorem digits_littleEndian (bytes : List UInt8) :
    digits bytes.length (littleEndian bytes) = bytes := by
  induction bytes with
  | nil => rfl
  | cons byte bytes ih =>
      have hlow : (byte.toNat + 256 * littleEndian bytes) % 256 = byte.toNat := by
        rw [Nat.add_mul_mod_self_left]
        exact Nat.mod_eq_of_lt byte.toNat_lt
      have hhigh : (byte.toNat + 256 * littleEndian bytes) / 256 = littleEndian bytes := by
        have := byte.toNat_lt
        omega
      have hbyte : (byte.toNat + 256 * littleEndian bytes).toUInt8 = byte :=
        UInt8.toNat_inj.mp hlow
      rw [List.length_cons, littleEndian_cons, digits, hbyte, hhigh, ih]

-- The same number as that of the bits.
theorem value_ofBytes (bytes : List UInt8) : Bits.value (Bits.ofBytes bytes) = littleEndian bytes := by
  induction bytes with
  | nil => rfl
  | cons byte bytes ih => rw [Bits.value_ofBytes_cons, ih, littleEndian_cons]

theorem toList_putLe (out : ByteArray) (count value : Nat) :
    (putLe out count value).data.toList = out.data.toList ++ digits count value := by
  induction count generalizing out value with
  | zero => rw [putLe, digits, List.append_nil]
  | succ count ih =>
      rw [putLe, ih, digits, ByteArray.data_push, Array.toList_push, List.append_assoc,
        List.singleton_append]

theorem putLe_eq_append (out : ByteArray) (count value : Nat) :
    putLe out count value = out ++ putLe ByteArray.empty count value := by
  apply ByteArray.ext
  apply Array.toList_inj.mp
  rw [toList_putLe, ByteArray.data_append, Array.toList_append, toList_putLe]
  rfl

theorem le_putLe (count value : Nat) :
    le (putLe ByteArray.empty count value) 0 count = value % 256 ^ count := by
  have hdigits : (putLe ByteArray.empty count value).data.toList = digits count value :=
    toList_putLe _ _ _
  rw [le_eq_littleEndian, hdigits, List.drop_zero,
    List.take_of_length_le (Nat.le_of_eq (length_digits _ _)), littleEndian_digits]

-- The number that some bytes make is written as these bytes.
theorem digits_le (bytes : ByteArray) {start count : Nat} (hfits : start + count ≤ bytes.size) :
    digits count (le bytes start count) = (bytes.data.toList.drop start).take count := by
  have hsize : bytes.data.toList.length = bytes.size := rfl
  have hlength : ((bytes.data.toList.drop start).take count).length = count := by
    rw [List.length_take, List.length_drop, hsize]
    omega
  have hdigits := digits_littleEndian ((bytes.data.toList.drop start).take count)
  rw [hlength] at hdigits
  rw [le_eq_littleEndian, hdigits]

theorem putLe_le (bytes : ByteArray) :
    putLe ByteArray.empty bytes.size (le bytes 0 bytes.size) = bytes := by
  have hall : bytes.data.toList.take bytes.size = bytes.data.toList :=
    List.take_of_length_le (Nat.le_refl _)
  apply ByteArray.ext
  apply Array.toList_inj.mp
  rw [toList_putLe, digits_le bytes (Nat.le_of_eq (Nat.zero_add _)), List.drop_zero, hall]
  rfl

theorem le_lt (bytes : ByteArray) (start count : Nat) : le bytes start count < 256 ^ count := by
  rw [le_eq_littleEndian]
  exact Nat.lt_of_lt_of_le (littleEndian_lt _)
    (Nat.pow_le_pow_right (by decide) (List.length_take_le _ _))

theorem toList_ofFields (fields : List (Nat × Nat)) :
    (ofFields fields).data.toList = fields.flatMap fun field => digits field.1 field.2 := by
  have hbehind : ∀ out : ByteArray,
      (fields.foldl (fun out field => putLe out field.1 field.2) out).data.toList =
        out.data.toList ++ fields.flatMap fun field => digits field.1 field.2 := by
    induction fields with
    | nil => simp
    | cons field fields ih =>
        intro out
        rw [List.foldl_cons, ih, toList_putLe, List.flatMap_cons, List.append_assoc]
  exact hbehind ByteArray.empty

theorem length_flatMap_digits (fields : List (Nat × Nat)) :
    (fields.flatMap fun field => digits field.1 field.2).length = (fields.map Prod.fst).sum := by
  simp only [List.length_flatMap, length_digits]

-- A record is as long as its fields together.
theorem size_ofFields (fields : List (Nat × Nat)) :
    (ofFields fields).size = (fields.map Prod.fst).sum := by
  show (ofFields fields).data.toList.length = _
  rw [toList_ofFields, length_flatMap_digits]

-- Behind the fields before it, a field is read as its value.
theorem le_ofFields (fields : List (Nat × Nat)) (i : Nat) (h : i < fields.length) :
    le (ofFields fields) ((fields.take i).map Prod.fst).sum fields[i].1 =
      fields[i].2 % 256 ^ fields[i].1 := by
  have hsplit : fields = fields.take i ++ fields[i] :: fields.drop (i + 1) := by
    rw [← List.drop_eq_getElem_cons h, List.take_append_drop]
  have hlist : (ofFields fields).data.toList =
      ((fields.take i).flatMap fun field => digits field.1 field.2) ++
        (digits fields[i].1 fields[i].2 ++
          (fields.drop (i + 1)).flatMap fun field => digits field.1 field.2) := by
    conv => lhs; rw [toList_ofFields, hsplit]
    rw [List.flatMap_append, List.flatMap_cons]
  rw [le_eq_littleEndian, hlist, ← length_flatMap_digits, List.drop_left,
    List.take_left' (length_digits _ _), littleEndian_digits]

-- The field at `i`, where its position and width are known.
theorem le_field {fields : List (Nat × Nat)} (i : Nat) {start count value : Nat}
    (hfield : fields[i]? = some (count, value))
    (hstart : ((fields.take i).map Prod.fst).sum = start) (hfits : value < 256 ^ count) :
    le (ofFields fields) start count = value := by
  obtain ⟨hi, hsame⟩ := List.getElem?_eq_some_iff.mp hfield
  have hvalue := le_ofFields fields i hi
  rw [hsame, hstart] at hvalue
  exact hvalue.trans (Nat.mod_eq_of_lt hfits)

-- The byte that some bytes begin with behind `i` others.
theorem octet_eq {bytes : ByteArray} {byte : UInt8} {back : List UInt8} {i : Nat}
    (h : bytes.data.toList.drop i = byte :: back) : octet bytes i = byte.toNat := by
  have hi : i < bytes.size := by
    have hlength : bytes.data.toList.length = bytes.size := rfl
    have hdrop := congrArg List.length h
    rw [List.length_drop, hlength, List.length_cons] at hdrop
    omega
  have hcell : bytes.data.toList[i]? = some byte := by
    rw [← List.head?_drop, h, List.head?_cons]
  rw [octet, dif_pos hi, ByteArray.getElem_eq_getElem_data]
  rw [Array.getElem?_toList, Array.getElem?_eq_getElem hi] at hcell
  rw [Option.some.inj hcell]

-- A piece of some bytes, where it stands is known.
theorem extract_eq {bytes piece : ByteArray} (front back : List UInt8) {start stop : Nat}
    (hbytes : bytes.data.toList = front ++ (piece.data.toList ++ back))
    (hstart : start = front.length) (hstop : stop = start + piece.size) :
    bytes.extract start stop = piece := by
  have hlength : piece.size = piece.data.toList.length := rfl
  apply ByteArray.ext
  apply Array.toList_inj.mp
  rw [toList_extract, hbytes, hstop, Nat.add_sub_cancel_left, hlength, hstart, List.drop_left,
    List.take_left]

end Unpack.Bytes
