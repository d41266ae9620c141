import Unpack.Proofs.Bytes.Fields
import Unpack.Proofs.Source.Gives
import Unpack.Proofs.Source.Reliable
import Unpack.Proofs.Text.Utf8
import Unpack.Zip.Record

namespace Unpack.Zip

open Source (Reliable Frames)

variable {σ : Type} [Source σ] {valid : σ → Prop} {rest : σ → List UInt8}

theorem part_frames (hreliable : Reliable valid rest) (reading : String) {n : Nat}
    {bytes : ByteArray} (hn : bytes.size = n) :
    Frames valid rest (part reading n : Reading σ ByteArray) bytes.data.toList bytes :=
  hreliable.frames _ hn

theorem expectSignature_ok {expected : Nat} {record : ByteArray}
    (h : Bytes.le record 0 4 = expected) : expectSignature expected record = .ok () :=
  if_pos h

namespace LocalRecord

def fields (l : LocalRecord) : List (Nat × Nat) :=
  [(4, signature), (2, l.neededVersion.toNat), (2, l.flags.toNat), (2, l.method.toNat),
    (2, l.stamp.time.toNat), (2, l.stamp.date.toNat), (4, l.crc.toNat),
    (4, l.compressedSize.toNat), (4, l.size.toNat), (2, l.name.size), (2, l.extra.size)]

-- A local record is read back as it was written, and not from less.
theorem readAll_frames (hreliable : Reliable valid rest) (l : LocalRecord)
    (hname : l.name.size ≤ 0xFFFF) (hextra : l.extra.size ≤ 0xFFFF) :
    Frames valid rest (readAll : Reading σ LocalRecord) l.toBytes.data.toList l := by
  have hfixed : (Bytes.ofFields l.fields).size = fixedSize := by
    simp [Bytes.size_ofFields, fields, fixedSize]
  have hmagic : signature < 256 ^ 4 := by decide
  have hsignature : Bytes.le (Bytes.ofFields l.fields) 0 4 = signature :=
    Bytes.le_field 0 rfl (by simp [fields]) hmagic
  have hversion : Bytes.le (Bytes.ofFields l.fields) 4 2 = l.neededVersion.toNat :=
    Bytes.le_field 1 rfl (by simp [fields]) l.neededVersion.toNat_lt
  have hflags : Bytes.le (Bytes.ofFields l.fields) 6 2 = l.flags.toNat :=
    Bytes.le_field 2 rfl (by simp [fields]) l.flags.toNat_lt
  have hmethod : Bytes.le (Bytes.ofFields l.fields) 8 2 = l.method.toNat :=
    Bytes.le_field 3 rfl (by simp [fields]) l.method.toNat_lt
  have htime : Bytes.le (Bytes.ofFields l.fields) 10 2 = l.stamp.time.toNat :=
    Bytes.le_field 4 rfl (by simp [fields]) l.stamp.time.toNat_lt
  have hdate : Bytes.le (Bytes.ofFields l.fields) 12 2 = l.stamp.date.toNat :=
    Bytes.le_field 5 rfl (by simp [fields]) l.stamp.date.toNat_lt
  have hcrc : Bytes.le (Bytes.ofFields l.fields) 14 4 = l.crc.toNat :=
    Bytes.le_field 6 rfl (by simp [fields]) l.crc.toNat_lt
  have hcompressed : Bytes.le (Bytes.ofFields l.fields) 18 4 = l.compressedSize.toNat :=
    Bytes.le_field 7 rfl (by simp [fields]) l.compressedSize.toNat_lt
  have hsize : Bytes.le (Bytes.ofFields l.fields) 22 4 = l.size.toNat :=
    Bytes.le_field 8 rfl (by simp [fields]) l.size.toNat_lt
  have hnameSize : Bytes.le (Bytes.ofFields l.fields) 26 2 = l.name.size :=
    Bytes.le_field 9 rfl (by simp [fields]) (Nat.lt_succ_of_le hname)
  have hextraSize : Bytes.le (Bytes.ofFields l.fields) 28 2 = l.extra.size :=
    Bytes.le_field 10 rfl (by simp [fields]) (Nat.lt_succ_of_le hextra)
  have hbytes : l.toBytes = Bytes.ofFields l.fields ++ l.name ++ l.extra := rfl
  rw [hbytes, ByteArray.data_append, ByteArray.data_append, Array.toList_append,
    Array.toList_append, List.append_assoc, readAll]
  refine (part_frames hreliable _ hfixed).bind ?_
  refine Frames.check (expectSignature_ok hsignature) ?_
  refine (part_frames hreliable _ hnameSize.symm).bind ?_
  simp only [hversion, hflags, hmethod, htime, hdate, hcrc, hcompressed, hsize, UInt16.ofNat_toNat,
    UInt32.ofNat_toNat]
  exact (part_frames hreliable _ hextraSize.symm).map rfl

-- The data of an entry begins right behind its record.
theorem length_eq (l : LocalRecord) : l.length = l.toBytes.size := by
  have hfixed : (Bytes.ofFields l.fields).size = fixedSize := by
    simp [Bytes.size_ofFields, fields, fixedSize]
  have hbytes : l.toBytes = Bytes.ofFields l.fields ++ l.name ++ l.extra := rfl
  rw [hbytes, ByteArray.size_append, ByteArray.size_append, hfixed, length]

end LocalRecord

-- What the central directory can say of an entry: the fields fit, and only
-- names that are not UTF-8 are kept as they are.
structure Entry.Recordable (e : Entry) : Prop where
  name : e.encodedName.size ≤ 0xFFFF
  extra : e.extra.size ≤ 0xFFFF
  comment : e.comment.utf8ByteSize ≤ 0xFFFF
  compressedSize : e.compressedSize ≤ 0xFFFFFFFF
  size : e.size ≤ 0xFFFFFFFF
  offset : e.offset ≤ 0xFFFFFFFF
  method : Method.ofId e.method.id = e.method
  raw : ∀ raw ∈ e.rawName, Text.isUtf8 raw = false ∧ Text.ofUtf8 raw = e.name

-- The same, whatever the length of the comment.
structure Entry.Framed (e : Entry) : Prop where
  name : e.encodedName.size ≤ 0xFFFF
  extra : e.extra.size ≤ 0xFFFF
  compressedSize : e.compressedSize ≤ 0xFFFFFFFF
  size : e.size ≤ 0xFFFFFFFF
  offset : e.offset ≤ 0xFFFFFFFF
  method : Method.ofId e.method.id = e.method
  raw : ∀ raw ∈ e.rawName, Text.isUtf8 raw = false ∧ Text.ofUtf8 raw = e.name

theorem Entry.Recordable.framed {e : Entry} (h : e.Recordable) : e.Framed :=
  ⟨h.name, h.extra, h.compressedSize, h.size, h.offset, h.method, h.raw⟩

theorem Entry.Framed.recordable {e : Entry} (h : e.Framed)
    (hcomment : e.comment.utf8ByteSize ≤ 0xFFFF) : e.Recordable :=
  ⟨h.name, h.extra, hcomment, h.compressedSize, h.size, h.offset, h.method, h.raw⟩

theorem Method.ofId_id_ofId (id : UInt16) : Method.ofId (Method.ofId id).id = Method.ofId id := by
  by_cases hstored : id = 0
  · subst hstored
    rfl
  · by_cases hdeflated : id = 8
    · subst hdeflated
      rfl
    · have hunknown : Method.ofId id = .unknown id := by
        rw [Method.ofId, if_neg hstored, if_neg hdeflated]
      rw [hunknown]
      exact hunknown

namespace CentralRecord

section Parts

variable {fixed name extra comment : ByteArray}

-- The fixed part of a record tells how long the others are.
structure Announces (fixed name extra comment : ByteArray) : Prop where
  size : fixed.size = fixedSize
  signature : Bytes.le fixed 0 4 = signature
  name : name.size = Bytes.le fixed 28 2
  extra : extra.size = Bytes.le fixed 30 2
  comment : comment.size = Bytes.le fixed 32 2

-- The entry that the parts of a record tell of.
def ofParts (fixed name extra comment : ByteArray) : Entry where
  name := Text.ofUtf8 name
  rawName := if Text.isUtf8 name then none else some name
  method := .ofId (UInt16.ofNat (Bytes.le fixed 10 2))
  crc := UInt32.ofNat (Bytes.le fixed 16 4)
  compressedSize := Bytes.le fixed 20 4
  size := Bytes.le fixed 24 4
  stamp := ⟨UInt16.ofNat (Bytes.le fixed 14 2), UInt16.ofNat (Bytes.le fixed 12 2)⟩
  flags := UInt16.ofNat (Bytes.le fixed 8 2)
  extra := extra
  comment := Text.ofUtf8 comment
  offset := Bytes.le fixed 42 4

theorem readAll_frames_parts (hreliable : Reliable valid rest)
    (h : Announces fixed name extra comment) :
    Frames valid rest (readAll : Reading σ Entry)
      (fixed ++ (name ++ extra ++ comment)).data.toList (ofParts fixed name extra comment) := by
  have hlist : (name ++ extra ++ comment).data.toList =
      name.data.toList ++ (extra.data.toList ++ comment.data.toList) := by
    simp only [ByteArray.data_append, Array.toList_append, List.append_assoc]
  have hrest : (name ++ extra ++ comment).size = name.size + extra.size + comment.size := by
    rw [ByteArray.size_append, ByteArray.size_append]
  have hfirst : (name ++ extra ++ comment).extract 0 name.size = name :=
    Bytes.extract_eq [] _ hlist rfl (Nat.zero_add _).symm
  have hsecond : (name ++ extra ++ comment).extract name.size (name.size + extra.size) = extra :=
    Bytes.extract_eq _ _ hlist rfl rfl
  have hthird : (name ++ extra ++ comment).extract (name.size + extra.size)
      (name ++ extra ++ comment).size = comment := by
    refine Bytes.extract_eq (name.data.toList ++ extra.data.toList) [] ?_
      (List.length_append).symm hrest
    rw [hlist, List.append_nil, List.append_assoc]
  rw [ByteArray.data_append, Array.toList_append, readAll]
  refine (part_frames hreliable _ h.size).bind ?_
  refine Frames.check (expectSignature_ok h.signature) ?_
  simp only [← h.name, ← h.extra, ← h.comment]
  refine (part_frames hreliable _ hrest).map ?_
  rw [hfirst, hsecond, hthird]
  rfl

theorem encodedName_ofParts : (ofParts fixed name extra comment).encodedName = name := by
  rw [Entry.encodedName, ofParts]
  cases hvalid : Text.isUtf8 name with
  | true => exact Text.toUTF8_ofUtf8 hvalid
  | false => rfl

theorem framed_ofParts (h : Announces fixed name extra comment) :
    (ofParts fixed name extra comment).Framed := by
  have htwo : ∀ start, Bytes.le fixed start 2 ≤ 0xFFFF := fun start =>
    Nat.le_of_lt_succ (Bytes.le_lt fixed start 2)
  have hfour : ∀ start, Bytes.le fixed start 4 ≤ 0xFFFFFFFF := fun start =>
    Nat.le_of_lt_succ (Bytes.le_lt fixed start 4)
  refine ⟨?_, ?_, hfour 20, hfour 24, hfour 42, Method.ofId_id_ofId _, fun raw hraw => ?_⟩
  · rw [encodedName_ofParts, h.name]
    exact htwo 28
  · exact Nat.le_trans (Nat.le_of_eq h.extra) (htwo 30)
  · rw [ofParts] at hraw
    cases hvalid : Text.isUtf8 name with
    | true =>
        rw [hvalid] at hraw
        cases hraw
    | false =>
        rw [hvalid] at hraw
        cases hraw
        exact ⟨hvalid, rfl⟩

end Parts

def fields (e : Entry) : List (Nat × Nat) :=
  [(4, signature), (2, versionMadeBy), (2, neededVersion e), (2, e.flags.toNat),
    (2, e.method.id.toNat), (2, e.stamp.time.toNat), (2, e.stamp.date.toNat), (4, e.crc.toNat),
    (4, e.compressedSize), (4, e.size), (2, e.encodedName.size), (2, e.extra.size),
    (2, e.comment.utf8ByteSize), (2, 0), (2, 0), (4, attributes e), (4, e.offset)]

variable {e : Entry}

-- The encoded name tells the name, and whether it is to be kept.
theorem name_of_encodedName (h : e.Framed) :
    Text.ofUtf8 e.encodedName = e.name ∧
      (if Text.isUtf8 e.encodedName then none else some e.encodedName) = e.rawName := by
  have hraw := h.raw
  rw [Entry.encodedName]
  cases hname : e.rawName with
  | none => exact ⟨Text.ofUtf8_toUTF8 _, if_pos (Text.isUtf8_toUTF8 _)⟩
  | some raw =>
      obtain ⟨hbroken, hsame⟩ := hraw raw hname
      refine ⟨hsame, if_neg ?_⟩
      rw [Option.getD_some, hbroken]
      exact Bool.false_ne_true

-- The field for the length of the comment holds its low bits.
theorem announces_fields (h : e.Framed) {comment : ByteArray}
    (hcomment : comment.size = e.comment.utf8ByteSize % 0x10000) :
    Announces (Bytes.ofFields (fields e)) e.encodedName e.extra comment where
  size := by simp [Bytes.size_ofFields, fields, fixedSize]
  signature := by
    have hmagic : CentralRecord.signature < 256 ^ 4 := by decide
    exact Bytes.le_field 0 rfl (by simp [fields]) hmagic
  name := (Bytes.le_field 10 rfl (by simp [fields]) (Nat.lt_succ_of_le h.name)).symm
  extra := (Bytes.le_field 11 rfl (by simp [fields]) (Nat.lt_succ_of_le h.extra)).symm
  comment := hcomment.trans (Bytes.le_ofFields (fields e) 12 (by simp [fields])).symm

theorem ofParts_fields (h : e.Framed) (comment : ByteArray) :
    ofParts (Bytes.ofFields (fields e)) e.encodedName e.extra comment =
      { e with comment := Text.ofUtf8 comment } := by
  have hflags : Bytes.le (Bytes.ofFields (fields e)) 8 2 = e.flags.toNat :=
    Bytes.le_field 3 rfl (by simp [fields]) e.flags.toNat_lt
  have hmethod : Bytes.le (Bytes.ofFields (fields e)) 10 2 = e.method.id.toNat :=
    Bytes.le_field 4 rfl (by simp [fields]) e.method.id.toNat_lt
  have htime : Bytes.le (Bytes.ofFields (fields e)) 12 2 = e.stamp.time.toNat :=
    Bytes.le_field 5 rfl (by simp [fields]) e.stamp.time.toNat_lt
  have hdate : Bytes.le (Bytes.ofFields (fields e)) 14 2 = e.stamp.date.toNat :=
    Bytes.le_field 6 rfl (by simp [fields]) e.stamp.date.toNat_lt
  have hcrc : Bytes.le (Bytes.ofFields (fields e)) 16 4 = e.crc.toNat :=
    Bytes.le_field 7 rfl (by simp [fields]) e.crc.toNat_lt
  have hcompressed : Bytes.le (Bytes.ofFields (fields e)) 20 4 = e.compressedSize :=
    Bytes.le_field 8 rfl (by simp [fields]) (Nat.lt_succ_of_le h.compressedSize)
  have hsize : Bytes.le (Bytes.ofFields (fields e)) 24 4 = e.size :=
    Bytes.le_field 9 rfl (by simp [fields]) (Nat.lt_succ_of_le h.size)
  have hoffset : Bytes.le (Bytes.ofFields (fields e)) 42 4 = e.offset :=
    Bytes.le_field 16 rfl (by simp [fields]) (Nat.lt_succ_of_le h.offset)
  obtain ⟨hname, hraw⟩ := name_of_encodedName h
  simp only [ofParts, hmethod, hcrc, hcompressed, hsize, hdate, htime, hflags, hoffset,
    UInt16.ofNat_toNat, UInt32.ofNat_toNat, h.method, hname, hraw]

theorem toBytes_eq (e : Entry) :
    toBytes e = Bytes.ofFields (fields e) ++ (e.encodedName ++ e.extra ++ e.comment.toUTF8) := by
  rw [← ByteArray.append_assoc, ← ByteArray.append_assoc]
  rfl

-- A central record is read back as it was written, and not from less.
theorem readAll_frames (hreliable : Reliable valid rest) (h : e.Recordable) :
    Frames valid rest (readAll : Reading σ Entry) (toBytes e).data.toList e := by
  have hcomment : e.comment.toUTF8.size = e.comment.utf8ByteSize % 0x10000 :=
    (Nat.mod_eq_of_lt (Nat.lt_succ_of_le h.comment)).symm
  have hframes := readAll_frames_parts hreliable (announces_fields h.framed hcomment)
  rwa [ofParts_fields h.framed, Text.ofUtf8_toUTF8, ← toBytes_eq] at hframes

end CentralRecord

namespace EndRecord

def fields (r : EndRecord) (commentSize : Nat) : List (Nat × Nat) :=
  [(4, signature), (2, r.disk.toNat), (2, r.directoryDisk.toNat), (2, r.diskEntries.toNat),
    (2, r.totalEntries.toNat), (4, r.directorySize.toNat), (4, r.directoryOffset.toNat),
    (2, commentSize)]

theorem size_fields (r : EndRecord) (commentSize : Nat) :
    (Bytes.ofFields (r.fields commentSize)).size = fixedSize := by
  simp [Bytes.size_ofFields, fields, fixedSize]

theorem le_signature (r : EndRecord) (commentSize : Nat) :
    Bytes.le (Bytes.ofFields (r.fields commentSize)) 0 4 = signature := by
  have hmagic : signature < 256 ^ 4 := by decide
  exact Bytes.le_field 0 rfl (by simp [fields]) hmagic

-- An end record is parsed as it was written.
theorem parse_fields (r : EndRecord) {commentSize : Nat} (hfits : commentSize ≤ 0xFFFF) :
    parse (Bytes.ofFields (r.fields commentSize)) =
      .ok { r with commentSize := UInt16.ofNat commentSize } := by
  have hdisk : Bytes.le (Bytes.ofFields (r.fields commentSize)) 4 2 = r.disk.toNat :=
    Bytes.le_field 1 rfl (by simp [fields]) r.disk.toNat_lt
  have hdirectoryDisk :
      Bytes.le (Bytes.ofFields (r.fields commentSize)) 6 2 = r.directoryDisk.toNat :=
    Bytes.le_field 2 rfl (by simp [fields]) r.directoryDisk.toNat_lt
  have hdiskEntries : Bytes.le (Bytes.ofFields (r.fields commentSize)) 8 2 = r.diskEntries.toNat :=
    Bytes.le_field 3 rfl (by simp [fields]) r.diskEntries.toNat_lt
  have htotal : Bytes.le (Bytes.ofFields (r.fields commentSize)) 10 2 = r.totalEntries.toNat :=
    Bytes.le_field 4 rfl (by simp [fields]) r.totalEntries.toNat_lt
  have hsize : Bytes.le (Bytes.ofFields (r.fields commentSize)) 12 4 = r.directorySize.toNat :=
    Bytes.le_field 5 rfl (by simp [fields]) r.directorySize.toNat_lt
  have hoffset : Bytes.le (Bytes.ofFields (r.fields commentSize)) 16 4 = r.directoryOffset.toNat :=
    Bytes.le_field 6 rfl (by simp [fields]) r.directoryOffset.toNat_lt
  have hcomment : Bytes.le (Bytes.ofFields (r.fields commentSize)) 20 2 = commentSize :=
    Bytes.le_field 7 rfl (by simp [fields]) (Nat.lt_succ_of_le hfits)
  have hwhole : ¬(Bytes.ofFields (r.fields commentSize)).size < fixedSize := by
    rw [size_fields]
    exact Nat.lt_irrefl _
  rw [parse, if_neg hwhole, expectSignature_ok (r.le_signature commentSize), hdisk, hdirectoryDisk,
    hdiskEntries, htotal, hsize, hoffset, hcomment]
  simp only [UInt16.ofNat_toNat, UInt32.ofNat_toNat]
  rfl

end EndRecord

end Unpack.Zip
