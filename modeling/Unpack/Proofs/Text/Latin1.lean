import Unpack.Proofs.Bits.BitList
import Unpack.Text.Latin1

namespace Unpack.Text

theorem toList_eq (bytes : ByteArray) : bytes.toList = bytes.data.toList := by
  have hloop : ∀ (i : Nat) (got : List UInt8),
      ByteArray.toList.loop bytes i got = got.reverse ++ bytes.data.toList.drop i := by
    intro i got
    fun_induction ByteArray.toList.loop bytes i got with
    | case1 i got h ih =>
        have hi : i < bytes.data.toList.length := h
        have hbyte : bytes.get! i = bytes.data.toList[i] := getElem!_pos bytes.data i h
        rw [ih, List.reverse_cons, List.append_assoc, List.drop_eq_getElem_cons hi, hbyte]
        rfl
    | case2 i got h =>
        rw [List.drop_of_length_le (Nat.le_of_not_lt h), List.append_nil]
  exact hloop 0 []

theorem toList_ofLatin1 (bytes : ByteArray) :
    (ofLatin1 bytes).toList = bytes.data.toList.map fun byte => Char.ofNat byte.toNat := by
  rw [ofLatin1, String.toList_ofList, toList_eq]

theorem toNat_ofNat {n : Nat} (h : n < 256) : (Char.ofNat n).toNat = n := by
  have hvalid : n.isValidChar := Or.inl (Nat.lt_trans h (by decide))
  rw [Char.ofNat, dif_pos hvalid]
  rfl

-- Every byte is a character of its own.
theorem latin1Byte_ofNat (byte : UInt8) : latin1Byte (Char.ofNat byte.toNat) = byte := by
  rw [latin1Byte, toNat_ofNat byte.toNat_lt, if_pos byte.toNat_lt]
  exact UInt8.ofNat_toNat

theorem toLatin1_ofLatin1 (bytes : ByteArray) : toLatin1 (ofLatin1 bytes) = bytes := by
  have hlist : (ofLatin1 bytes).toList.map latin1Byte = bytes.data.toList := by
    rw [toList_ofLatin1, List.map_map]
    exact List.map_id'' latin1Byte_ofNat _
  rw [toLatin1, hlist]

-- A text with question marks for all characters beyond ISO 8859-1.
def withinLatin1 (text : String) : String :=
  String.ofList (text.toList.map fun c => if c.toNat < 256 then c else '?')

theorem ofNat_latin1Byte (c : Char) :
    Char.ofNat (latin1Byte c).toNat = if c.toNat < 256 then c else '?' := by
  rw [latin1Byte]
  by_cases hsmall : c.toNat < 256
  · have hbyte : c.toNat.toUInt8.toNat = c.toNat := Nat.mod_eq_of_lt hsmall
    rw [if_pos hsmall, if_pos hsmall, hbyte, Char.ofNat_toNat]
  · rw [if_neg hsmall, if_neg hsmall]
    rfl

theorem ofLatin1_toLatin1 (text : String) : ofLatin1 (toLatin1 text) = withinLatin1 text := by
  rw [ofLatin1, toList_eq, toLatin1, List.map_map, withinLatin1]
  exact congrArg String.ofList (List.map_congr_left fun c _ => ofNat_latin1Byte c)

-- The character of the zero byte is no other's.
theorem nul_mem_ofLatin1 {bytes : ByteArray} :
    '\x00' ∈ (ofLatin1 bytes).toList ↔ 0 ∈ bytes.data.toList := by
  rw [toList_ofLatin1, List.mem_map]
  constructor
  · rintro ⟨byte, hmem, hnul⟩
    have hzero : byte.toNat = 0 := by rw [← toNat_ofNat byte.toNat_lt, hnul]; rfl
    exact UInt8.toNat_inj.mp (show byte.toNat = (0 : UInt8).toNat from hzero) ▸ hmem
  · exact fun hmem => ⟨0, hmem, rfl⟩

end Unpack.Text
