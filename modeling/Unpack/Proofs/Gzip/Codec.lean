import Unpack.Gzip.Header
import Unpack.Proofs.Bytes.Fields
import Unpack.Proofs.Checksum.Crc32
import Unpack.Proofs.Source.Reliable

namespace Unpack.Gzip.Header

open Source (Reliable Frames)

-- The header without its optional parts and reserved flags.
def bare (h : Header) : Header :=
  { empty with
    flags := h.flags &&& ~~~reserved
    mtime := h.mtime
    extraFlags := h.extraFlags
    os := h.os }

theorem announces_bare (h : Header) (part : Part) : h.bare.announces part = h.announces part := by
  have hflag : ~~~reserved &&& part.flag = part.flag := by cases part <;> decide
  have hmask : (h.flags &&& ~~~reserved) &&& part.flag = h.flags &&& part.flag := by
    rw [UInt8.and_assoc, hflag]
  rw [announces, announces, bare, hmask]

theorem ofFixed_fixedBytes (h : Header) : ofFixed h.fixedBytes = .ok h.bare := by
  have hlist : h.fixedBytes.data.toList =
      [] ++ (magic.data.toList ++ h.fixedBytes.data.toList.drop 2) := rfl
  have hmagic : h.fixedBytes.extract 0 2 = magic := Bytes.extract_eq _ _ hlist rfl rfl
  have hmethod : Bytes.octet h.fixedBytes 2 = method.toNat := rfl
  have hflags : (Bytes.octet h.fixedBytes 3).toUInt8 = h.flags &&& ~~~reserved :=
    UInt8.ofNat_toNat
  have hextraFlags : (Bytes.octet h.fixedBytes 8).toUInt8 = h.extraFlags := UInt8.ofNat_toNat
  have hos : (Bytes.octet h.fixedBytes 9).toUInt8 = h.os := UInt8.ofNat_toNat
  have hmtime : Bytes.le h.fixedBytes 4 4 = h.mtime.toNat := by
    have hdigits : (h.fixedBytes.data.toList.drop 4).take 4 = Bytes.digits 4 h.mtime.toNat := rfl
    rw [Bytes.le_eq_littleEndian, hdigits, Bytes.littleEndian_digits]
    exact Nat.mod_eq_of_lt h.mtime.toNat_lt
  have hreserved : h.flags &&& ~~~reserved &&& reserved = 0 := by
    have hnone : ~~~reserved &&& reserved = 0 := by decide
    rw [UInt8.and_assoc, hnone, UInt8.and_zero]
  rw [ofFixed, hmagic, hmethod, hflags, hextraFlags, hos, hmtime, UInt32.ofNat_toNat]
  simp only [hreserved, if_true]
  rfl

-- No text ends before its last character.
structure NulFree (h : Header) : Prop where
  filename : ∀ text ∈ h.filename, '\x00' ∉ text.toList
  comment : ∀ text ∈ h.comment, '\x00' ∉ text.toList

-- No text that is written does.
structure Delimited (h : Header) : Prop where
  filename : h.announces .filename = true → ∀ text ∈ h.filename, '\x00' ∉ text.toList
  comment : h.announces .comment = true → ∀ text ∈ h.comment, '\x00' ∉ text.toList

theorem NulFree.delimited {h : Header} (hnul : h.NulFree) : h.Delimited :=
  ⟨fun _ => hnul.filename, fun _ => hnul.comment⟩

theorem zero_not_mem_toLatin1 {text : String} (htext : '\x00' ∉ text.toList) :
    (0 : UInt8) ∉ (Text.toLatin1 text).data.toList := by
  intro hzero
  obtain ⟨c, hmem, hbyte⟩ := List.mem_map.mp hzero
  have hsmall : c.toNat < 256 := by
    by_contra hlarge
    rw [Text.latin1Byte, if_neg hlarge] at hbyte
    cases hbyte
  have hnul : c.toNat % 256 = 0 := by
    rw [Text.latin1Byte, if_pos hsmall] at hbyte
    exact congrArg UInt8.toNat hbyte
  rw [Nat.mod_eq_of_lt hsmall] at hnul
  have hchar : c = '\x00' := Char.ext (UInt32.toNat_inj.mp hnul)
  exact htext (hchar ▸ hmem)

-- The pieces have the checksum of these bytes.
def Sums (seen : List ByteArray) (bytes : ByteArray) : Prop :=
  seen.foldl Crc32.update .empty = Crc32.empty.update bytes

theorem Sums.add {seen : List ByteArray} {front : ByteArray} (h : Sums seen front)
    (piece : ByteArray) : Sums (seen ++ [piece]) (front ++ piece) := by
  rw [Sums] at h ⊢
  rw [List.foldl_append, h, Crc32.update_append]
  rfl

theorem Sums.crc16_eq {seen : List ByteArray} {bytes : ByteArray} (h : Sums seen bytes) :
    crc16 seen = crc16 [bytes] := by
  rw [crc16, h]
  rfl

section Reading

variable {σ : Type} [Source σ] {valid : σ → Prop} {rest : σ → List UInt8} {h : Header}
  {seen : List ByteArray} {bytes : ByteArray}

theorem part_frames (hreliable : Reliable valid rest) (reading : String) (bytes : ByteArray) :
    Frames valid rest (part reading bytes.size : Reading σ ByteArray) bytes.data.toList bytes :=
  hreliable.frames _ rfl

theorem octet_ne_zero {byte : UInt8} (hbyte : 0 ≠ byte) :
    Bytes.octet ⟨[byte].toArray⟩ 0 ≠ 0 := by
  intro hnone
  have hsame : byte.toNat = (0 : UInt8).toNat := hnone
  exact hbyte (UInt8.toNat_inj.mp hsame).symm

-- A text is read up to its zero byte.
theorem readText_ok (hreliable : Reliable valid rest) {text : List UInt8} (hzero : 0 ∉ text)
    (reading : String) (rounds : Nat) (hrounds : text.length < rounds) (got : ByteArray) {source : σ}
    {back : List UInt8} (hvalid : valid source) (hrest : rest source = text ++ 0 :: back) :
    ∃ next, readText reading rounds got source = (.ok (got ++ ⟨text.toArray⟩), next) ∧ valid next ∧
      rest next = back := by
  induction text generalizing rounds got source with
  | nil =>
      obtain ⟨rounds, rfl⟩ := Nat.exists_eq_succ_of_ne_zero (Nat.ne_zero_of_lt hrounds)
      obtain ⟨next, hread, hnext⟩ := hreliable.readExactly hvalid reading
        (show rest source = [0] ++ back from hrest)
      have hgot : got ++ ⟨#[]⟩ = got := ByteArray.append_empty
      have hoctet : Bytes.octet ⟨[0].toArray⟩ 0 = 0 := rfl
      refine ⟨next, ?_, hnext⟩
      rw [readText]
      dsimp only [List.length_singleton] at hread
      rw [hread]
      dsimp only
      rw [if_pos hoctet, hgot]
  | cons byte text ih =>
      obtain ⟨rounds, rfl⟩ := Nat.exists_eq_succ_of_ne_zero (Nat.ne_zero_of_lt hrounds)
      obtain ⟨next, hread, hnext, hmore⟩ := hreliable.readExactly hvalid reading
        (show rest source = [byte] ++ (text ++ 0 :: back) from hrest)
      obtain ⟨hbyte, hlater⟩ := not_or.mp (List.mem_cons.not.mp hzero)
      obtain ⟨last, htext, hlast⟩ := ih hlater rounds (Nat.lt_of_succ_lt_succ hrounds)
        (got ++ ⟨[byte].toArray⟩) hnext hmore
      refine ⟨last, ?_, hlast⟩
      rw [readText]
      dsimp only [List.length_singleton] at hread
      rw [hread]
      dsimp only
      rw [if_neg (octet_ne_zero hbyte), htext, ByteArray.append_assoc]
      rfl

-- Without a zero byte there is no end of the text.
theorem readText_cut (hreliable : Reliable valid rest) {text : List UInt8} (hzero : 0 ∉ text)
    (reading : String) (rounds : Nat) (got : ByteArray) {source : σ} (hvalid : valid source)
    (hrest : rest source = text) :
    ∃ next, readText reading rounds got source = (.error (.unexpectedEnd reading), next) := by
  induction text generalizing rounds got source with
  | nil =>
      cases rounds with
      | zero => exact ⟨source, rfl⟩
      | succ rounds =>
          have hnone : (rest source).length < 1 := by rw [hrest]; exact Nat.one_pos
          obtain ⟨next, hread⟩ := hreliable.cut hvalid reading hnone
          refine ⟨next, ?_⟩
          rw [readText, hread]
  | cons byte text ih =>
      cases rounds with
      | zero => exact ⟨source, rfl⟩
      | succ rounds =>
          obtain ⟨next, hread, hnext, hmore⟩ := hreliable.readExactly hvalid reading
            (show rest source = [byte] ++ text from hrest)
          obtain ⟨hbyte, hlater⟩ := not_or.mp (List.mem_cons.not.mp hzero)
          obtain ⟨last, htext⟩ := ih hlater rounds (got ++ ⟨[byte].toArray⟩) hnext hmore
          refine ⟨last, ?_⟩
          rw [readText]
          dsimp only [List.length_singleton] at hread
          rw [hread]
          dsimp only
          rw [if_neg (octet_ne_zero hbyte), htext]

theorem textPart_frames (hreliable : Reliable valid rest) (reading : String) {text : ByteArray}
    (hzero : 0 ∉ text.data.toList) :
    Frames valid rest (textPart reading : Reading σ ByteArray) (text.push 0).data.toList text := by
  rw [ByteArray.data_push, Array.toList_push]
  refine ⟨fun source back hvalid hrest => ?_, fun source n hvalid hn hrest => ?_⟩
  · rw [List.append_assoc, List.singleton_append] at hrest
    have hbound := hreliable.steady.length_rest_le_left hvalid
    rw [hrest, List.length_append, List.length_cons] at hbound
    have hread := readText_ok hreliable hzero ("GZIP header " ++ reading) (Source.left source + 1)
      (by omega) ByteArray.empty hvalid hrest
    rwa [ByteArray.empty_append] at hread
  · rw [List.length_append, List.length_singleton] at hn
    rw [List.take_append_of_le_length (Nat.le_of_lt_succ hn)] at hrest
    have hnone : 0 ∉ text.data.toList.take n := fun hmem => hzero (List.mem_of_mem_take hmem)
    obtain ⟨next, hread⟩ := readText_cut hreliable hnone ("GZIP header " ++ reading)
      (Source.left source + 1) ByteArray.empty hvalid hrest
    exact ⟨_, next, hread⟩

-- What is read of a text that was written.
def recordedText (announced : Bool) (text : Option String) : Option String :=
  if announced then some (Text.ofLatin1 (Text.toLatin1 (text.getD ""))) else none

def recordedExtra (h : Header) : Option ByteArray :=
  if h.announces .extra then some (h.extra.getD ByteArray.empty) else none

theorem getD_nulFree {text : Option String} (htext : ∀ t ∈ text, '\x00' ∉ t.toList) :
    '\x00' ∉ (text.getD "").toList := by
  cases text with
  | none => exact List.not_mem_nil
  | some t => exact htext t rfl

theorem readExtra_frames (hreliable : Reliable valid rest) (h₁ : Header)
    (hsame : h₁.announces .extra = h.announces .extra) (hnone : h₁.extra = none) {extra : ByteArray}
    (hextra : h.extraBytes = .ok extra) (hseen : Sums seen bytes) :
    ∃ seen', Sums seen' (bytes ++ extra) ∧
      Frames valid rest (readExtra h₁ seen : Reading σ _) extra.data.toList
        ({ h₁ with extra := h.recordedExtra }, seen') := by
  rw [extraBytes] at hextra
  rw [readExtra, hsame, recordedExtra]
  by_cases hannounced : h.announces .extra = true
  · rw [if_pos hannounced] at hextra ⊢
    rw [if_pos hannounced]
    generalize h.extra.getD ByteArray.empty = field at hextra
    dsimp only at hextra
    by_cases hfits : field.size ≤ 0xFFFF
    · rw [if_pos hfits] at hextra
      cases hextra
      have hsize : Bytes.le (Bytes.putLe ByteArray.empty 2 field.size) 0 2 = field.size :=
        (Bytes.le_putLe 2 field.size).trans (Nat.mod_eq_of_lt (Nat.lt_succ_of_le hfits))
      have hlength := part_frames hreliable "extra length" (Bytes.putLe ByteArray.empty 2 field.size)
      have hfield := part_frames hreliable "extra field" field
      refine ⟨_, ByteArray.append_assoc ▸ (hseen.add _).add field, ?_⟩
      rw [ByteArray.data_append, Array.toList_append]
      refine hlength.bind ?_
      rw [hsize]
      exact hfield.map rfl
    · rw [if_neg hfits] at hextra
      cases hextra
  · rw [if_neg hannounced] at hextra ⊢
    rw [if_neg hannounced, ← hnone]
    cases hextra
    exact ⟨seen, ByteArray.append_empty.symm ▸ hseen, Frames.pure _⟩

-- A text that is announced is read as it was written, and `put` where it belongs.
theorem textBytes_frames (hreliable : Reliable valid rest) (reading : String) {text : Option String}
    (put : Option String → Header) (announced : Bool)
    (htext : announced = true → ∀ t ∈ text, '\x00' ∉ t.toList) (hseen : Sums seen bytes) :
    ∃ seen', Sums seen' (bytes ++ textBytes announced text) ∧
      Frames valid rest
        (if announced then do
            let bytes ← textPart reading
            return (put (some (Text.ofLatin1 bytes)), seen ++ [bytes.push 0])
          else return (put none, seen) : Reading σ (Header × List ByteArray))
        (textBytes announced text).data.toList (put (recordedText announced text), seen') := by
  cases announced with
  | false => exact ⟨seen, ByteArray.append_empty.symm ▸ hseen, Frames.pure _⟩
  | true =>
      have hframes :=
        textPart_frames hreliable reading (zero_not_mem_toLatin1 (getD_nulFree (htext rfl)))
      exact ⟨_, hseen.add _, hframes.map rfl⟩

theorem readFilename_frames (hreliable : Reliable valid rest) (hends : h.Delimited) (h₁ : Header)
    (hsame : h₁.announces .filename = h.announces .filename) (hnone : h₁.filename = none)
    (hseen : Sums seen bytes) :
    ∃ seen', Sums seen' (bytes ++ textBytes (h.announces .filename) h.filename) ∧
      Frames valid rest (readFilename h₁ seen : Reading σ _)
        (textBytes (h.announces .filename) h.filename).data.toList
        ({ h₁ with filename := recordedText (h.announces .filename) h.filename }, seen') := by
  have hframes := textBytes_frames hreliable "filename"
    (fun text => { h₁ with filename := text }) (h.announces .filename) hends.filename hseen
  have hput : { h₁ with filename := none } = h₁ := by rw [← hnone]
  rw [hput, ← hsame] at hframes
  rw [readFilename, ← hsame]
  exact hframes

theorem readComment_frames (hreliable : Reliable valid rest) (hends : h.Delimited) (h₁ : Header)
    (hsame : h₁.announces .comment = h.announces .comment) (hnone : h₁.comment = none)
    (hseen : Sums seen bytes) :
    ∃ seen', Sums seen' (bytes ++ textBytes (h.announces .comment) h.comment) ∧
      Frames valid rest (readComment h₁ seen : Reading σ _)
        (textBytes (h.announces .comment) h.comment).data.toList
        ({ h₁ with comment := recordedText (h.announces .comment) h.comment }, seen') := by
  have hframes := textBytes_frames hreliable "comment"
    (fun text => { h₁ with comment := text }) (h.announces .comment) hends.comment hseen
  have hput : { h₁ with comment := none } = h₁ := by rw [← hnone]
  rw [hput, ← hsame] at hframes
  rw [readComment, ← hsame]
  exact hframes

-- The checksum is written behind all the bytes it covers.
def crcBytes (h : Header) (covered : ByteArray) : ByteArray :=
  if h.announces .headerCrc then Bytes.putLe ByteArray.empty 2 (crc16 [covered]).toNat
  else ByteArray.empty

def recordedCrc (h : Header) (covered : ByteArray) : Option UInt16 :=
  if h.announces .headerCrc then some (crc16 [covered]) else none

theorem readCrc_frames (hreliable : Reliable valid rest) (h₁ : Header)
    (hsame : h₁.announces .headerCrc = h.announces .headerCrc) (hnone : h₁.headerCrc = none)
    (hseen : Sums seen bytes) :
    Frames valid rest (readCrc h₁ seen : Reading σ _) (h.crcBytes bytes).data.toList
      { h₁ with headerCrc := h.recordedCrc bytes } := by
  rw [readCrc, hsame, hseen.crc16_eq, crcBytes, recordedCrc]
  generalize crc16 [bytes] = crc
  by_cases hannounced : h.announces .headerCrc = true
  · rw [if_pos hannounced, if_pos hannounced, if_pos hannounced]
    have hvalue : Bytes.le (Bytes.putLe ByteArray.empty 2 crc.toNat) 0 2 = crc.toNat :=
      (Bytes.le_putLe _ _).trans (Nat.mod_eq_of_lt crc.toNat_lt)
    have hbytes := part_frames hreliable "CRC" (Bytes.putLe ByteArray.empty 2 crc.toNat)
    rw [← List.append_nil (ByteArray.data _).toList]
    refine hbytes.bind ?_
    dsimp only
    rw [hvalue, UInt16.ofNat_toNat, if_pos rfl]
    exact Frames.pure _
  · rw [if_neg hannounced, if_neg hannounced, if_neg hannounced, ← hnone]
    exact Frames.pure _

-- All bytes in front of the checksum.
def coveredBytes (h : Header) (extra : ByteArray) : ByteArray :=
  h.fixedBytes ++ extra ++ textBytes (h.announces .filename) h.filename
    ++ textBytes (h.announces .comment) h.comment

theorem toBytes_eq_ok_iff {out : ByteArray} :
    h.toBytes = .ok out ↔ ∃ extra, h.extraBytes = .ok extra ∧
      out = h.coveredBytes extra ++ h.crcBytes (h.coveredBytes extra) := by
  have hcrc : ∀ covered, (if h.announces .headerCrc then Bytes.putLe covered 2 (crc16 [covered]).toNat
      else covered) = covered ++ h.crcBytes covered := by
    intro covered
    rw [crcBytes]
    split
    · exact Bytes.putLe_eq_append _ _ _
    · exact ByteArray.append_empty.symm
  rw [toBytes]
  cases h.extraBytes with
  | error fault => exact ⟨nofun, fun ⟨_, hextra, _⟩ => nomatch hextra⟩
  | ok extra =>
      constructor
      · intro hout
        cases hout
        exact ⟨extra, rfl, hcrc _⟩
      · rintro ⟨_, hextra, rfl⟩
        cases hextra
        exact congrArg Except.ok (hcrc _)

-- What reading makes of a header that was written.
def recorded (h : Header) (covered : ByteArray) : Header :=
  { h.bare with
    extra := h.recordedExtra
    filename := recordedText (h.announces .filename) h.filename
    comment := recordedText (h.announces .comment) h.comment
    headerCrc := h.recordedCrc covered }

-- A header that is written is read back, and from not a byte more or less.
theorem readAll_frames (hreliable : Reliable valid rest) (hends : h.Delimited) {extra : ByteArray}
    (hextra : h.extraBytes = .ok extra) :
    Frames valid rest (readAll : Reading σ Header)
      (h.coveredBytes extra ++ h.crcBytes (h.coveredBytes extra)).data.toList
      (h.recorded (h.coveredBytes extra)) := by
  let withExtra : Header := { h.bare with extra := h.recordedExtra }
  let withFilename : Header :=
    { withExtra with filename := recordedText (h.announces .filename) h.filename }
  let withComment : Header :=
    { withFilename with comment := recordedText (h.announces .comment) h.comment }
  have hfirst : Sums [h.fixedBytes] h.fixedBytes := rfl
  obtain ⟨seen₁, hseen₁, hframes₁⟩ :=
    readExtra_frames hreliable h.bare (h.announces_bare _) rfl hextra hfirst
  obtain ⟨seen₂, hseen₂, hframes₂⟩ :=
    readFilename_frames hreliable hends withExtra (h.announces_bare _) rfl hseen₁
  obtain ⟨seen₃, hseen₃, hframes₃⟩ :=
    readComment_frames hreliable hends withFilename (h.announces_bare _) rfl hseen₂
  have hcrc := readCrc_frames hreliable withComment (h.announces_bare _) rfl hseen₃
  rw [coveredBytes]
  generalize h.crcBytes _ = behind at hcrc ⊢
  simp only [ByteArray.data_append, Array.toList_append, List.append_assoc]
  rw [readAll]
  refine (part_frames hreliable "fixed fields" h.fixedBytes).bind ?_
  refine Frames.check (ofFixed_fixedBytes h) ?_
  exact hframes₁.bind (hframes₂.bind (hframes₃.bind hcrc))

end Reading

end Unpack.Gzip.Header
