import Unpack.Proofs.Zip.Records
import Unpack.Proofs.Zip.Stores
import Unpack.Zip.Archive
import Unpack.Zip.Builder

namespace Unpack.Zip

open Source (Reliable Frames)

namespace Ending

variable {bytes comment : ByteArray} {position : Nat} {ending : Ending}

theorem le_append_right (front tail : ByteArray) (start count : Nat) :
    Bytes.le (front ++ tail) (front.size + start) count = Bytes.le tail start count := by
  have hfront : front.size = front.data.toList.length := rfl
  rw [Bytes.le_eq_littleEndian, Bytes.le_eq_littleEndian, ByteArray.data_append,
    Array.toList_append, hfront, List.drop_length_add_append]

-- Bytes in front do not matter to a record.
theorem ofPosition_append (front tail : ByteArray) (position : Nat) :
    ofPosition (front ++ tail) (front.size + position) = ofPosition tail position := by
  have hrecord : (front ++ tail).extract (front.size + position)
      (front.size + position + EndRecord.fixedSize) =
        tail.extract position (position + EndRecord.fixedSize) := by
    rw [Nat.add_assoc, ByteArray.extract_append_size_add]
  rw [ofPosition, ofPosition, le_append_right, hrecord]
  cases EndRecord.parse (tail.extract position (position + EndRecord.fixedSize)) with
  | error fault => rfl
  | ok record =>
      simp only [Nat.add_assoc, ByteArray.extract_append_size_add, ByteArray.size_append,
        Nat.add_le_add_iff_left, Nat.add_sub_add_left]

-- What is parsed begins with the signature.
theorem signature_of_parse {piece : ByteArray} {record : EndRecord}
    (h : EndRecord.parse piece = .ok record) : Bytes.le piece 0 4 = EndRecord.signature := by
  rw [EndRecord.parse] at h
  split at h
  · cases h
  · by_contra hother
    rw [expectSignature, if_neg hother] at h
    cases h

theorem le_extract {count stop : Nat} (hfits : position + count ≤ stop) :
    Bytes.le (bytes.extract position stop) 0 count = Bytes.le bytes position count := by
  rw [Bytes.le_eq_littleEndian, Bytes.le_eq_littleEndian, Bytes.toList_extract, List.drop_zero,
    List.take_take, Nat.min_eq_left (by omega)]

-- A record begins where its fixed part is parsed and its comment fits.
theorem ofPosition_eq_some_iff : ofPosition bytes position = some ending ↔
    ∃ record,
      EndRecord.parse (bytes.extract position (position + EndRecord.fixedSize)) = .ok record ∧
      position + EndRecord.fixedSize + record.commentSize.toNat ≤ bytes.size ∧
      ending = ⟨record, bytes.extract (position + EndRecord.fixedSize)
        (position + EndRecord.fixedSize + record.commentSize.toNat),
        bytes.size - (position + EndRecord.fixedSize + record.commentSize.toNat)⟩ := by
  have hmagic : ∀ {record},
      EndRecord.parse (bytes.extract position (position + EndRecord.fixedSize)) = .ok record →
        Bytes.le bytes position 4 = EndRecord.signature := fun hparse =>
    (le_extract (Nat.add_le_add_left (by decide) position)).symm.trans (signature_of_parse hparse)
  rw [ofPosition]
  generalize EndRecord.parse (bytes.extract position (position + EndRecord.fixedSize)) = parsed
    at hmagic
  constructor
  · intro h
    cases parsed with
    | error fault =>
        rw [ite_self] at h
        cases h
    | ok record =>
        rw [if_neg (not_not.mpr (hmagic rfl))] at h
        dsimp only at h
        split at h
        · next hfits => exact ⟨record, rfl, hfits, (Option.some.inj h).symm⟩
        · cases h
  · rintro ⟨record, rfl, hfits, rfl⟩
    rw [if_neg (not_not.mpr (hmagic rfl))]
    exact if_pos hfits

-- A record and the comment that it announces lie within the bytes.
theorem fits_of_ofPosition (h : ofPosition bytes position = some ending) :
    position + EndRecord.fixedSize + ending.comment.size + ending.excess = bytes.size := by
  obtain ⟨record, -, hfits, rfl⟩ := ofPosition_eq_some_iff.mp h
  simp only [ByteArray.size_extract]
  omega

-- The last record of some bytes is the one that is looked for.
theorem lastUpTo_eq (hhere : ofPosition bytes position = some ending)
    (hlater : ∀ later, position < later → ofPosition bytes later = none) {last : Nat}
    (hlast : position ≤ last) : lastUpTo bytes last = some ending := by
  induction last, hlast using Nat.le_induction with
  | base =>
      cases position with
      | zero => exact hhere
      | succ position => rw [lastUpTo, hhere]
  | succ last hlast ih => rw [lastUpTo, hlater _ (Nat.lt_succ_of_le hlast), ih]

-- What lies within the bytes is read.
theorem readFrom_eq {n : Nat} (hfits : position + n ≤ bytes.size) :
    readFrom bytes position n = (.ok (bytes.extract position (position + n)), bytes) := by
  have hsize : (bytes.extract position (position + n)).data.toList.length = n := by
    rw [Bits.Reader.length_toList, Bytes.size_piece]
    omega
  have hvalid : (Cursor.mk bytes position).store = bytes := rfl
  obtain ⟨next, hread, hnext, -⟩ := (Cursor.reliable bytes).readExactly hvalid ""
    (Bytes.suffix_eq_append bytes position n)
  rw [hsize] at hread
  rw [readFrom, hread]
  exact Prod.ext rfl hnext

-- A record at the very end that announces no comment is the last one.
theorem eq_of_parse_end (hhere : ofPosition bytes position = some ending)
    (hlater : ∀ later, position < later → ofPosition bytes later = none) {record : EndRecord}
    (hparse : EndRecord.parse (bytes.extract (bytes.size - EndRecord.fixedSize)
      (bytes.size - EndRecord.fixedSize + EndRecord.fixedSize)) = .ok record)
    (hnone : record.commentSize = 0) : ending = ⟨record, ByteArray.empty, 0⟩ := by
  have hfits := fits_of_ofPosition hhere
  have hstop : bytes.size - EndRecord.fixedSize + EndRecord.fixedSize = bytes.size := by omega
  have hsize : record.commentSize.toNat = 0 := congrArg UInt16.toNat hnone
  have hend : ofPosition bytes (bytes.size - EndRecord.fixedSize) =
      some ⟨record, ByteArray.empty, 0⟩ := by
    refine ofPosition_eq_some_iff.mpr ⟨record, hparse, ?_, ?_⟩
    · omega
    · rw [hsize, Nat.add_zero, hstop, ByteArray.extract_same, Nat.sub_self]
  have hlast : ¬position < bytes.size - EndRecord.fixedSize := by
    intro hless
    rw [hlater _ hless] at hend
    cases hend
  have hsame : bytes.size - EndRecord.fixedSize = position := by omega
  rw [hsame, hhere] at hend
  exact Option.some.inj hend

-- The last record is found among the last bytes, if it begins there.
theorem lastUpTo_extract (hhere : ofPosition bytes position = some ending)
    (hlater : ∀ later, position < later → ofPosition bytes later = none) {start : Nat}
    (hstart : start ≤ position) :
    lastUpTo (bytes.extract start bytes.size)
      ((bytes.extract start bytes.size).size - EndRecord.fixedSize) = some ending := by
  have hfits := fits_of_ofPosition hhere
  have hsplit : bytes.extract 0 start ++ bytes.extract start bytes.size = bytes := by
    rw [ByteArray.extract_append_extract, Nat.min_eq_left (Nat.zero_le _),
      Nat.max_eq_right (by omega), ByteArray.extract_zero_size]
  have hfront : (bytes.extract 0 start).size = start := by
    rw [ByteArray.size_extract]
    omega
  have hshift : ∀ later, ofPosition bytes (start + later) =
      ofPosition (bytes.extract start bytes.size) later := by
    intro later
    have happend := ofPosition_append (bytes.extract 0 start) (bytes.extract start bytes.size) later
    rwa [hsplit, hfront] at happend
  obtain ⟨back, rfl⟩ := Nat.exists_eq_add_of_le hstart
  rw [hshift] at hhere
  have hreach := fits_of_ofPosition hhere
  refine lastUpTo_eq hhere (fun later hless => ?_) (by omega)
  rw [← hshift]
  exact hlater _ (Nat.add_lt_add_left hless start)

-- The last record of an archive is found if it is not too far from the end.
theorem find_eq (hhere : ofPosition bytes position = some ending)
    (hlater : ∀ later, position < later → ofPosition bytes later = none)
    (hspan : bytes.size ≤ position + span) : find bytes = (.ok ending, bytes) := by
  have hfits := fits_of_ofPosition hhere
  have hsize : RandomAccess.size bytes = bytes.size := rfl
  have hwhole : ¬bytes.size < EndRecord.fixedSize := by omega
  rw [find, hsize, if_neg hwhole, readFrom_eq (by omega)]
  dsimp only
  split
  · next hparse => rw [eq_of_parse_end hhere hlater hparse rfl]
  · -- the longest comment lets the scan come so far
    have hstart : bytes.size - min span bytes.size ≤ position := by omega
    have hstop : bytes.size - min span bytes.size + min span bytes.size = bytes.size := by omega
    rw [readFrom_eq (Nat.le_of_eq hstop), hstop]
    dsimp only
    rw [lastUpTo_extract hhere hlater hstart]

-- No record begins where none has room.
theorem ofPosition_of_short (h : bytes.size < position + EndRecord.fixedSize) :
    ofPosition bytes position = none := by
  apply Option.eq_none_iff_forall_ne_some.mpr
  intro ending hending
  have hfits := fits_of_ofPosition hending
  omega

-- A written record stands where it was written.
theorem ofPosition_toBytes (record : EndRecord) (hfits : comment.size ≤ 0xFFFF)
    (front : ByteArray) :
    ofPosition (front ++ record.toBytes comment) front.size =
      some ⟨{ record with commentSize := UInt16.ofNat comment.size }, comment, 0⟩ := by
  have hfixed := record.size_fields comment.size
  have hbytes : record.toBytes comment =
      Bytes.ofFields (record.fields comment.size) ++ comment := rfl
  have hcount : (UInt16.ofNat comment.size).toNat = comment.size :=
    UInt16.toNat_ofNat_of_lt' (Nat.lt_succ_of_le hfits)
  have hrecord : (Bytes.ofFields (record.fields comment.size) ++ comment).extract 0
      EndRecord.fixedSize = Bytes.ofFields (record.fields comment.size) := by
    rw [← hfixed, ByteArray.extract_append_size_left, ByteArray.extract_zero_size]
  have hthere := ofPosition_append front (record.toBytes comment) 0
  rw [Nat.add_zero] at hthere
  rw [hthere, hbytes]
  refine ofPosition_eq_some_iff.mpr
    ⟨{ record with commentSize := UInt16.ofNat comment.size }, ?_, ?_, ?_⟩
  · rw [Nat.zero_add, hrecord]
    exact record.parse_fields hfits
  · dsimp only
    rw [hcount, ByteArray.size_append, hfixed, Nat.zero_add]
  · dsimp only
    rw [hcount, Nat.zero_add, ByteArray.size_append, hfixed, Nat.sub_self,
      ByteArray.extract_append_eq_right hfixed.symm (congrArg (· + comment.size) hfixed.symm)]

end Ending

section Directory

variable {σ : Type} [Source σ] {valid : σ → Prop} {rest : σ → List UInt8}

-- The records of a directory are read back one after the other.
theorem readRecords_frames (hreliable : Reliable valid rest) (entries : List Entry)
    (h : ∀ e ∈ entries, e.Recordable) (got : Array Entry) :
    Frames valid rest (readRecords entries.length got : Reading σ (Array Entry))
      (entries.flatMap fun e => (CentralRecord.toBytes e).data.toList)
      (got ++ entries.toArray) := by
  induction entries generalizing got with
  | nil =>
      have hsame : got ++ [].toArray = got := Array.append_empty
      rw [hsame]
      exact Frames.pure got
  | cons e entries ih =>
      have hmore := ih (fun e he => h e (List.mem_cons_of_mem _ he)) (got.push e)
      have hsame : got.push e ++ entries.toArray = got ++ (e :: entries).toArray := by
        apply Array.toList_inj.mp
        simp
      rw [hsame] at hmore
      exact (CentralRecord.readAll_frames hreliable (h e List.mem_cons_self)).bind hmore

end Directory

namespace Builder

variable {b : Builder} {bytes : ByteArray}

-- What the 32-bit layout can say of an archive.
structure Fits (b : Builder) : Prop where
  entries : b.entries.size ≤ 0xFFFF
  comment : b.comment.utf8ByteSize ≤ 0xFFFF
  out : b.out.size ≤ 0xFFFFFFFF
  directory : (directory b.entries).size ≤ 0xFFFFFFFF

def ending (b : Builder) : EndRecord where
  disk := 0
  directoryDisk := 0
  diskEntries := UInt16.ofNat b.entries.size
  totalEntries := UInt16.ofNat b.entries.size
  directorySize := UInt32.ofNat (directory b.entries).size
  directoryOffset := UInt32.ofNat b.out.size
  commentSize := UInt16.ofNat b.comment.utf8ByteSize

-- The entries with their data, and the directory behind them.
def content (b : Builder) : ByteArray :=
  b.out ++ directory b.entries

def whole (b : Builder) : ByteArray :=
  b.content ++ b.ending.toBytes b.comment.toUTF8

theorem checkBound_eq_ok_iff {quantity : BoundedQuantity} {value : Nat} :
    checkBound quantity value = .ok () ↔ value ≤ 0xFFFFFFFF := by
  rw [checkBound]
  split <;> simp [*]

theorem checkBound_bind {α : Type} {quantity : BoundedQuantity} {value : Nat}
    {next : Except Fault α} {a : α} :
    ((checkBound quantity value).bind fun _ => next) = .ok a ↔
      value ≤ 0xFFFFFFFF ∧ next = .ok a := by
  rw [checkBound]
  by_cases hfits : value ≤ 0xFFFFFFFF
  · rw [if_pos hfits]
    exact (and_iff_right hfits).symm
  · rw [if_neg hfits]
    exact iff_of_false nofun fun h => hfits h.1

-- An archive is finished unless the layout is too narrow for it.
theorem finish_eq_ok_iff : b.finish = .ok bytes ↔ b.Fits ∧ b.whole = bytes := by
  rw [finish]
  by_cases hentries : 0xFFFF < b.entries.size
  · rw [if_pos hentries]
    exact iff_of_false nofun fun h => Nat.not_le_of_lt hentries h.1.entries
  by_cases hcomment : 0xFFFF < b.comment.utf8ByteSize
  · rw [if_neg hentries, if_pos hcomment]
    exact iff_of_false nofun fun h => Nat.not_le_of_lt hcomment h.1.comment
  rw [if_neg hentries, if_neg hcomment]
  refine checkBound_bind.trans ((and_congr_right fun _ => checkBound_bind).trans ⟨?_, ?_⟩)
  · rintro ⟨hout, hdirectory, hwhole⟩
    exact ⟨⟨Nat.not_lt.mp hentries, Nat.not_lt.mp hcomment, hout, hdirectory⟩, Except.ok.inj hwhole⟩
  · rintro ⟨hfits, hwhole⟩
    exact ⟨hfits.out, hfits.directory, congrArg Except.ok hwhole⟩

theorem toList_directory (entries : Array Entry) :
    (directory entries).data.toList =
      entries.toList.flatMap fun e => (CentralRecord.toBytes e).data.toList := by
  have hbehind : ∀ (entries : List Entry) (out : ByteArray),
      (entries.foldl (fun out e => out ++ CentralRecord.toBytes e) out).data.toList =
        out.data.toList ++ entries.flatMap fun e => (CentralRecord.toBytes e).data.toList := by
    intro entries
    induction entries with
    | nil => simp
    | cons e entries ih =>
        intro out
        rw [List.foldl_cons, ih, ByteArray.data_append, Array.toList_append, List.flatMap_cons,
          List.append_assoc]
  rw [directory, ← Array.foldl_toList]
  exact hbehind entries.toList ByteArray.empty

-- The end record points to the directory.
theorem readDirectory_whole (hfits : b.Fits) (hrecordable : ∀ e ∈ b.entries, e.Recordable)
    (commentSize : UInt16) :
    readDirectory b.whole { b.ending with commentSize := commentSize } =
      (.ok b.entries, b.whole) := by
  have hcount : (UInt16.ofNat b.entries.size).toNat = b.entries.toList.length :=
    UInt16.toNat_ofNat_of_lt' (Nat.lt_succ_of_le hfits.entries)
  have hoffset : (UInt32.ofNat b.out.size).toNat = b.out.size :=
    UInt32.toNat_ofNat_of_lt' (Nat.lt_succ_of_le hfits.out)
  have hsize : (UInt32.ofNat (directory b.entries).size).toNat = (directory b.entries).size :=
    UInt32.toNat_ofNat_of_lt' (Nat.lt_succ_of_le hfits.directory)
  have hdisk : ¬({ b.ending with commentSize := commentSize } : EndRecord).spansDisks = true := by
    simp [EndRecord.spansDisks, ending]
  have hrest : (Bytes.suffix b.whole b.out.size).take (directory b.entries).size =
      (b.entries.toList.flatMap fun e => (CentralRecord.toBytes e).data.toList) ++ [] := by
    have hout : b.out.size = b.out.data.toList.length := rfl
    have hdirectory : (directory b.entries).size = (directory b.entries).data.toList.length := rfl
    rw [Bytes.suffix, whole, content, ByteArray.append_assoc, ByteArray.data_append,
      ByteArray.data_append, Array.toList_append, Array.toList_append, hout, List.drop_left,
      hdirectory, List.take_left, toList_directory, List.append_nil]
  have hframes := readRecords_frames (Section.reliable b.whole) b.entries.toList
    (fun e he => hrecordable e (Array.mem_toList_iff.mp he)) #[]
  obtain ⟨next, hread, hnext, -⟩ :=
    hframes.takes ⟨⟨b.whole, b.out.size⟩, (directory b.entries).size⟩ [] rfl hrest
  rw [readDirectory, if_neg hdisk]
  dsimp only [ending]
  rw [hcount, hoffset, hsize, hread]
  refine Prod.ext ?_ hnext
  simp

theorem size_whole (b : Builder) :
    b.whole.size = b.content.size + EndRecord.fixedSize + b.comment.utf8ByteSize := by
  have hending : b.ending.toBytes b.comment.toUTF8 =
      Bytes.ofFields (b.ending.fields b.comment.toUTF8.size) ++ b.comment.toUTF8 := rfl
  have hcomment : b.comment.toUTF8.size = b.comment.utf8ByteSize := rfl
  rw [whole, hending, ByteArray.size_append, ByteArray.size_append, EndRecord.size_fields, hcomment,
    Nat.add_assoc]

-- The end record stands behind the content, with the comment behind it.
theorem ofPosition_whole (hfits : b.Fits) : Ending.ofPosition b.whole b.content.size = some
    ⟨{ b.ending with commentSize := UInt16.ofNat b.comment.toUTF8.size }, b.comment.toUTF8, 0⟩ :=
  Ending.ofPosition_toBytes b.ending hfits.comment b.content

-- The search for the end record comes so far.
theorem size_whole_le (hfits : b.Fits) : b.whole.size ≤ b.content.size + Ending.span := by
  have hcomment := hfits.comment
  rw [size_whole, Ending.span]
  omega

-- No end record is seen behind the one that was written.
def EndsOnce (b : Builder) : Prop :=
  ∀ position, b.content.size < position → Ending.ofPosition b.whole position = none

-- Without a comment nothing has room behind the end record.
theorem endsOnce_of_bare (hbare : b.comment = "") : b.EndsOnce := by
  intro position hposition
  apply Ending.ofPosition_of_short
  have hcomment : b.comment.utf8ByteSize = 0 := by
    rw [hbare]
    rfl
  rw [size_whole, hcomment]
  omega

-- A finished archive is opened, with its entries and its comment, if its end
-- record is not taken for another.
theorem ofStore_whole (hfits : b.Fits) (hrecordable : ∀ e ∈ b.entries, e.Recordable)
    (honce : b.EndsOnce) (verifyCrc : Bool) :
    Archive.ofStore b.whole verifyCrc = .ok ⟨some b.whole, b.entries, b.comment, 0, verifyCrc⟩ := by
  rw [Archive.ofStore, Ending.find_eq (ofPosition_whole hfits) honce (size_whole_le hfits)]
  dsimp only
  rw [Archive.ofEnding, readDirectory_whole hfits hrecordable]
  dsimp only
  rw [Text.ofUtf8_toUTF8]

end Builder

end Unpack.Zip
