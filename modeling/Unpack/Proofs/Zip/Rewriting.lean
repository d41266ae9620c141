import Unpack.Proofs.Zip.Framing

namespace Unpack.Zip

open Bytes (suffix)
open Source (Reliable Frames Steady)

namespace CentralRecord

variable {σ : Type} [Source σ] {valid : σ → Prop} {rest : σ → List UInt8} {source next : σ}
  {e : Entry}

-- How much of the comment the length field of its record tells of.
def told (e : Entry) : Nat :=
  e.comment.utf8ByteSize % 0x10000

-- What a record is read as, with the comment as far as it is told of.
def curtailed (e : Entry) : Entry :=
  { e with comment := Text.ofUtf8 (e.comment.toUTF8.extract 0 (told e)) }

-- The bytes of the comment that belong to no record.
def leftOver (e : Entry) : List UInt8 :=
  e.comment.toUTF8.data.toList.drop (told e)

theorem told_le (e : Entry) : told e ≤ e.comment.toUTF8.size :=
  Nat.mod_le _ _

theorem size_comment (e : Entry) : e.comment.toUTF8.data.toList.length = e.comment.utf8ByteSize :=
  rfl

theorem length_leftOver (e : Entry) :
    (leftOver e).length = e.comment.utf8ByteSize / 0x10000 * 0x10000 := by
  rw [leftOver, List.length_drop, size_comment, told]
  omega

theorem toList_toBytes (e : Entry) :
    (toBytes e).data.toList = (Bytes.ofFields (fields e) ++
      (e.encodedName ++ e.extra ++ e.comment.toUTF8.extract 0 (told e))).data.toList ++
        leftOver e := by
  have hcomment : e.comment.toUTF8.data.toList =
      (e.comment.toUTF8.extract 0 (told e)).data.toList ++ leftOver e := by
    rw [Bytes.toList_extract, List.drop_zero, Nat.sub_zero, leftOver, List.take_append_drop]
  simp only [toBytes_eq, ByteArray.data_append, Array.toList_append, List.append_assoc]
  rw [hcomment]

-- Whatever its comment, a record is read.
theorem read_toBytes (h : e.Framed) (hreliable : Reliable valid rest) (source : σ)
    (back : List UInt8) (hvalid : valid source)
    (hrest : rest source = (toBytes e).data.toList ++ back) :
    ∃ next, read source = (.ok (curtailed e), next) ∧ rest next = leftOver e ++ back := by
  have hsize : (e.comment.toUTF8.extract 0 (told e)).size = e.comment.utf8ByteSize % 0x10000 := by
    rw [ByteArray.size_extract, Nat.min_eq_left (told_le e)]
    rfl
  have hframes := readAll_frames_parts hreliable (announces_fields h hsize)
  rw [ofParts_fields h] at hframes
  rw [toList_toBytes, List.append_assoc] at hrest
  obtain ⟨next, hread, -, hback⟩ := hframes.takes source _ hvalid hrest
  exact ⟨next, hread, hback⟩

-- A record that is read to its end as what it was written from has all of its
-- comment told of.
theorem fits_of_read_toBytes (h : e.Framed) {last : Cursor ByteArray}
    (hread : read (Cursor.mk (toBytes e) 0) = (.ok e, last))
    (hnone : suffix (toBytes e) last.position = []) : e.comment.utf8ByteSize ≤ 0xFFFF := by
  have hwhole : suffix (toBytes e) 0 = (toBytes e).data.toList ++ [] := by
    rw [suffix, List.drop_zero, List.append_nil]
  obtain ⟨other, hother, hover⟩ :=
    read_toBytes h (Cursor.reliable (toBytes e)) ⟨toBytes e, 0⟩ [] rfl hwhole
  have hsame : last = other := congrArg Prod.snd (hread.symm.trans hother)
  have hlength := length_leftOver e
  rw [← hsame, List.append_nil, hnone] at hover
  rw [← hover, List.length_nil] at hlength
  omega

-- The fixed part of a record that has only a comment.
def commentFields (length : Nat) : List (Nat × Nat) :=
  [(4, signature), (2, versionMadeBy), (2, 10), (2, 0), (2, 0), (2, 0), (2, 0), (4, 0), (4, 0),
    (4, 0), (2, 0), (2, 0), (2, length), (2, 0), (2, 0), (4, 0), (4, 0)]

def commented (length : Nat) : ByteArray :=
  Bytes.ofFields (commentFields length)

theorem announces_commented {comment : ByteArray} (h : comment.size ≤ 0xFFFF) :
    Announces (commented comment.size) .empty .empty comment where
  size := by simp [Bytes.size_ofFields, commented, commentFields, fixedSize]
  signature := by
    have hmagic : CentralRecord.signature < 256 ^ 4 := by decide
    exact Bytes.le_field 0 rfl (by simp [commentFields]) hmagic
  name := (Bytes.le_field 10 rfl (by simp [commentFields]) (Nat.two_pow_pos 16)).symm
  extra := (Bytes.le_field 11 rfl (by simp [commentFields]) (Nat.two_pow_pos 16)).symm
  comment := (Bytes.le_field 12 rfl (by simp [commentFields]) (Nat.lt_succ_of_le h)).symm

theorem read_commented {comment : ByteArray} (h : comment.size ≤ 0xFFFF) :
    ∃ next : Cursor ByteArray,
      read (Cursor.mk (commented comment.size ++ comment) 0) =
        (.ok (ofParts (commented comment.size) .empty .empty comment), next) ∧
      suffix (commented comment.size ++ comment) next.position = [] := by
  have hframes := readAll_frames_parts (Cursor.reliable (commented comment.size ++ comment))
    (announces_commented h)
  have hwhole : suffix (commented comment.size ++ comment) 0 =
      (commented comment.size ++ (.empty ++ .empty ++ comment)).data.toList ++ [] := by
    rw [suffix, List.drop_zero, List.append_nil, ByteArray.empty_append, ByteArray.empty_append]
  obtain ⟨next, hread, -, hnone⟩ := hframes.takes ⟨_, 0⟩ [] rfl hwhole
  exact ⟨next, hread, hnone⟩

-- A comment that does not fit when it is written is not read again.
theorem not_stable_of_grown {comment : ByteArray} (h : comment.size ≤ 0xFFFF)
    (hgrown : 0xFFFF < (Text.ofUtf8 comment).utf8ByteSize) :
    ∃ (e : Entry) (next : Cursor ByteArray),
      read (Cursor.mk (commented comment.size ++ comment) 0) = (.ok e, next) ∧
        suffix (commented comment.size ++ comment) next.position = [] ∧
        ¬∃ last, read (Cursor.mk (toBytes e) 0) = (.ok e, last) ∧
          suffix (toBytes e) last.position = [] := by
  obtain ⟨next, hread, hnone⟩ := read_commented h
  refine ⟨_, next, hread, hnone, ?_⟩
  rintro ⟨last, hagain, hlast⟩
  have hfits := fits_of_read_toBytes (framed_ofParts (announces_commented h)) hagain hlast
  exact absurd hgrown (Nat.not_lt_of_le hfits)

-- The comment of 21846 stray octets comes to 65538 bytes, of which the length field
-- tells only two.
theorem not_stable_strays :
    ∃ (e : Entry) (next : Cursor ByteArray),
      read (Cursor.mk (commented 21846 ++ ⟨Array.replicate 21846 0xFF⟩) 0) = (.ok e, next) ∧
        suffix (commented 21846 ++ ⟨Array.replicate 21846 0xFF⟩) next.position = [] ∧
        ¬∃ last, read (Cursor.mk (toBytes e) 0) = (.ok e, last) ∧
          suffix (toBytes e) last.position = [] := by
  have hsize : (ByteArray.mk (Array.replicate 21846 0xFF)).size = 21846 := Array.size_replicate
  have hgrown : 0xFFFF < (Text.ofUtf8 ⟨Array.replicate 21846 0xFF⟩).utf8ByteSize := by
    rw [show (0xFF : UInt8) = Text.stray from rfl, Text.utf8ByteSize_strays]
    decide
  have hstrays := not_stable_of_grown (Nat.le_trans (Nat.le_of_eq hsize) (by decide)) hgrown
  rwa [hsize] at hstrays

end CentralRecord

end Unpack.Zip
