import Mathlib.Data.String.Basic
import Unpack.Proofs.Text.Latin1
import Unpack.Text.Utf8

namespace Unpack.Text

theorem fromUTF8?_toUTF8 (text : String) : String.fromUTF8? text.toUTF8 = some text :=
  dif_pos text.isValidUTF8

theorem ofUtf8_toUTF8 (text : String) : ofUtf8 text.toUTF8 = text := by
  rw [ofUtf8, fromUTF8?_toUTF8]

theorem isUtf8_toUTF8 (text : String) : isUtf8 text.toUTF8 = true := by
  rw [isUtf8, fromUTF8?_toUTF8]
  rfl

theorem toUTF8_ofUtf8 {bytes : ByteArray} (h : isUtf8 bytes = true) :
    (ofUtf8 bytes).toUTF8 = bytes := by
  obtain ⟨text, htext⟩ := Option.isSome_iff_exists.mp h
  rw [ofUtf8, htext]
  rw [String.fromUTF8?] at htext
  split at htext
  · cases htext
    rfl
  · cases htext

theorem utf8ByteSize_ofUtf8 {bytes : ByteArray} (h : isUtf8 bytes = true) :
    (ofUtf8 bytes).utf8ByteSize = bytes.size :=
  congrArg ByteArray.size (toUTF8_ofUtf8 h)

theorem ofUtf8_of_not_isUtf8 {bytes : ByteArray} (h : isUtf8 bytes = false) :
    ofUtf8 bytes = String.ofList (Utf8.decode .between bytes.data.toList) := by
  rw [isUtf8, Option.isSome_eq_false_iff, Option.isNone_iff_eq_none] at h
  rw [ofUtf8, h, toList_eq]

namespace Utf8

-- A character in the making can still come to a replacement character.
def credit : State → Nat
  | .between => 0
  | .inside .. => 3

theorem utf8Size_ascii : ∀ octet < 0x80, (Char.ofNat octet).utf8Size = 1 := by decide

theorem lead_le (octet : Nat) :
    String.utf8Len (lead octet).1.toList + credit (lead octet).2 ≤ 3 := by
  by_cases hascii : octet < 0x80
  · rw [lead, if_pos hascii, Option.toList_some, String.utf8Len_cons, utf8Size_ascii octet hascii]
    show 0 + 1 + 0 ≤ 3
    decide
  · rw [lead, if_neg hascii]
    repeat' split
    all_goals exact Nat.le_refl 3

-- No octet is decoded to more than the three bytes of a replacement character.
theorem utf8Len_decode_le (state : State) (octets : List UInt8) :
    String.utf8Len (decode state octets) ≤ 3 * octets.length + credit state := by
  have hreplaced : replacement.utf8Size = 3 := by decide
  fun_induction decode state octets with
  | case1 => exact Nat.le_refl 0
  | case2 => exact Nat.le_refl 3
  | case3 octet rest c state hlead ih =>
      have hlead := hlead ▸ lead_le octet.toNat
      simp only [Option.toList_some, String.utf8Len_cons, String.utf8Len_nil] at hlead
      simp only [String.utf8Len_cons, List.length_cons, credit]
      omega
  | case4 octet rest state hlead ih =>
      have hlead := hlead ▸ lead_le octet.toNat
      simp only [Option.toList_none, String.utf8Len_nil] at hlead
      simp only [List.length_cons, credit]
      omega
  | case5 more low high bits octet rest hin bits' hlast ih =>
      have hfour := Char.utf8Size_le_four (Char.ofNat bits')
      simp only [String.utf8Len_cons, List.length_cons, credit] at ih ⊢
      omega
  | case6 more low high bits octet rest hin bits' hlast ih =>
      simp only [List.length_cons, credit] at ih ⊢
      omega
  | case7 more low high bits octet rest hout c state hlead ih =>
      have hlead := hlead ▸ lead_le octet.toNat
      simp only [Option.toList_some, String.utf8Len_cons, String.utf8Len_nil] at hlead
      simp only [String.utf8Len_cons, List.length_cons, credit]
      omega
  | case8 more low high bits octet rest hout state hlead ih =>
      have hlead := hlead ▸ lead_le octet.toNat
      simp only [Option.toList_none, String.utf8Len_nil] at hlead
      simp only [String.utf8Len_cons, List.length_cons, credit]
      omega

end Utf8

theorem utf8ByteSize_ofUtf8_le (bytes : ByteArray) :
    (ofUtf8 bytes).utf8ByteSize ≤ 3 * bytes.size := by
  cases hvalid : isUtf8 bytes with
  | true =>
      rw [utf8ByteSize_ofUtf8 hvalid]
      exact Nat.le_mul_of_pos_left _ (by decide)
  | false =>
      rw [ofUtf8_of_not_isUtf8 hvalid, String.utf8ByteSize_ofList]
      exact Utf8.utf8Len_decode_le .between bytes.data.toList

section Stray

-- An octet that begins no character and continues none.
def stray : UInt8 := 0xFF

theorem isUtf8_strays {count : Nat} (hcount : 0 < count) :
    isUtf8 ⟨Array.replicate count stray⟩ = false := by
  rw [isUtf8, Option.isSome_eq_false_iff, Option.isNone_iff_eq_none, String.fromUTF8?]
  refine dif_neg fun hvalid => ?_
  have hsize : 0 < (ByteArray.mk (Array.replicate count stray)).size := by
    simpa [ByteArray.size] using hcount
  have hfirst := hvalid.isUTF8FirstByte_getElem_zero hsize
  have hstray : (ByteArray.mk (Array.replicate count stray))[0] = stray := by
    simp [ByteArray.getElem_eq_getElem_data]
  rw [hstray] at hfirst
  exact absurd hfirst (by decide)

-- Each of them becomes a replacement character.
theorem utf8Len_decode_strays (count : Nat) :
    String.utf8Len (Utf8.decode .between (List.replicate count stray)) = 3 * count := by
  induction count with
  | zero => rfl
  | succ count ih =>
      have hreplaced : Utf8.replacement.utf8Size = 3 := by decide
      have hfirst : Utf8.decode .between (stray :: List.replicate count stray) =
          Utf8.replacement :: Utf8.decode .between (List.replicate count stray) := rfl
      rw [List.replicate_succ, hfirst, String.utf8Len_cons, ih, hreplaced, Nat.mul_succ]

-- The bound is reached.
theorem utf8ByteSize_strays (count : Nat) :
    (ofUtf8 ⟨Array.replicate count stray⟩).utf8ByteSize = 3 * count := by
  rcases Nat.eq_zero_or_pos count with rfl | hcount
  · exact Nat.le_zero.mp (utf8ByteSize_ofUtf8_le _)
  · rw [ofUtf8_of_not_isUtf8 (isUtf8_strays hcount), String.utf8ByteSize_ofList,
      Array.toList_replicate, utf8Len_decode_strays]

end Stray

end Unpack.Text
