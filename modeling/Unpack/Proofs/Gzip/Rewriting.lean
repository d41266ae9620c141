import Unpack.Proofs.Gzip.Codec
import Unpack.Proofs.Source.Gives
import Unpack.Proofs.Text.Latin1

namespace Unpack.Gzip.Header

open Source (Steady Reliable Gives bind_eq_ok check_eq_ok)

variable {σ : Type} [Source σ] {valid : σ → Prop} {rest : σ → List UInt8} {source next : σ}
  {h h' : Header} {seen seen' : List ByteArray} {bytes : ByteArray}

theorem exists_ten {list : List UInt8} (hlength : list.length = 10) :
    ∃ b₀ b₁ b₂ b₃ b₄ b₅ b₆ b₇ b₈ b₉, list = [b₀, b₁, b₂, b₃, b₄, b₅, b₆, b₇, b₈, b₉] := by
  match list, hlength with
  | [b₀, b₁, b₂, b₃, b₄, b₅, b₆, b₇, b₈, b₉], _ =>
      exact ⟨b₀, b₁, b₂, b₃, b₄, b₅, b₆, b₇, b₈, b₉, rfl⟩

theorem unreserved_eq {flags : UInt8} (hflags : flags &&& reserved = 0) :
    flags &&& ~~~reserved = flags := by
  apply UInt8.toBitVec_inj.mp
  ext i hi
  have hbit : (flags &&& reserved).toBitVec[i] = (0 : UInt8).toBitVec[i] := by rw [hflags]
  simp only [UInt8.toBitVec_and, UInt8.toBitVec_not, BitVec.getElem_and, BitVec.getElem_not,
    UInt8.toBitVec_zero, BitVec.getElem_zero] at hbit ⊢
  cases hflag : flags.toBitVec[i]
  · rfl
  · rw [hflag, Bool.true_and] at hbit
    rw [hbit]
    rfl

-- Ten bytes are the fixed fields that are found in them.
theorem fixedBytes_eq {fixed : ByteArray} (hsize : fixed.size = 10)
    (hmagic : fixed.extract 0 2 = magic) (hmethod : Bytes.octet fixed 2 = method.toNat)
    (hflags : h.flags &&& ~~~reserved = (Bytes.octet fixed 3).toUInt8)
    (hmtime : h.mtime = UInt32.ofNat (Bytes.le fixed 4 4))
    (hextraFlags : h.extraFlags = (Bytes.octet fixed 8).toUInt8)
    (hos : h.os = (Bytes.octet fixed 9).toUInt8) : h.fixedBytes = fixed := by
  obtain ⟨b₀, b₁, b₂, b₃, b₄, b₅, b₆, b₇, b₈, b₉, hfixed⟩ := exists_ten hsize
  have hoctet : ∀ (i : Nat) (byte : UInt8) (back : List UInt8),
      [b₀, b₁, b₂, b₃, b₄, b₅, b₆, b₇, b₈, b₉].drop i = byte :: back →
        (Bytes.octet fixed i).toUInt8 = byte := by
    intro i byte back hdrop
    rw [Bytes.octet_eq (hfixed ▸ hdrop)]
    exact UInt8.ofNat_toNat
  have hstart : magic.data.toList = [b₀, b₁] := by
    rw [← hmagic, Bytes.toList_extract, hfixed]
    rfl
  have hthird : method = b₂ := by
    rw [← hoctet 2 _ _ rfl, hmethod]
    rfl
  have hdigits : Bytes.digits 4 h.mtime.toNat = [b₄, b₅, b₆, b₇] := by
    have hlt : Bytes.le fixed 4 4 < 256 ^ 4 := Bytes.le_lt fixed 4 4
    rw [hmtime, UInt32.toNat_ofNat_of_lt' hlt, Bytes.digits_le fixed (by omega), hfixed]
    rfl
  apply ByteArray.ext
  apply Array.toList_inj.mp
  rw [fixedBytes]
  simp only [ByteArray.data_push, Array.toList_push, Bytes.toList_putLe, hflags, hdigits,
    hextraFlags, hos]
  rw [hstart, hthird, hfixed, hoctet 3 _ _ rfl, hoctet 8 _ _ rfl, hoctet 9 _ _ rfl]
  rfl

-- The fixed fields that are read are written as they were.
theorem ofFixed_eq_ok {fixed : ByteArray} (hsize : fixed.size = 10)
    (hread : ofFixed fixed = .ok h) : h.bare = h ∧ h.fixedBytes = fixed := by
  rw [ofFixed] at hread
  by_cases hmagic : fixed.extract 0 2 = magic
  case neg =>
    rw [if_neg hmagic] at hread
    cases hread
  by_cases hmethod : Bytes.octet fixed 2 = method.toNat
  case neg =>
    rw [if_pos hmagic, if_neg hmethod] at hread
    cases hread
  by_cases hflags : (Bytes.octet fixed 3).toUInt8 &&& reserved = 0
  case neg =>
    rw [if_pos hmagic, if_pos hmethod, if_neg hflags] at hread
    cases hread
  rw [if_pos hmagic, if_pos hmethod, if_pos hflags] at hread
  cases hread
  have hunreserved := unreserved_eq hflags
  refine ⟨?_, fixedBytes_eq hsize hmagic hmethod hunreserved rfl rfl rfl⟩
  simp only [bare, hunreserved]

-- A text that was read ended with its zero byte.
theorem readText_of_ok (hsteady : Steady valid rest) {reading : String} {rounds : Nat}
    {got text : ByteArray} (hvalid : valid source)
    (hread : readText reading rounds got source = (.ok text, next)) :
    ∃ taken, text = got ++ taken ∧ 0 ∉ taken.data.toList ∧
      Gives valid rest source next (taken.push 0).data.toList := by
  induction rounds generalizing got source with
  | zero => cases hread
  | succ rounds ih =>
      rw [readText] at hread
      generalize hfirst : Source.readExactly reading source 1 = result at hread
      obtain ⟨answer, middle⟩ := result
      cases answer with
      | error fault => cases hread
      | ok piece =>
          obtain ⟨hsize, hgives⟩ := hsteady.gives_of_readExactly hvalid hfirst
          obtain ⟨byte, hpiece⟩ := List.length_eq_one_iff.mp hsize
          have hoctet : Bytes.octet piece 0 = byte.toNat := Bytes.octet_eq hpiece
          rw [hpiece] at hgives
          dsimp only at hread
          rw [hoctet] at hread
          by_cases hzero : byte.toNat = 0
          · rw [if_pos hzero] at hread
            cases hread
            have hbyte : byte = 0 := UInt8.toNat_inj.mp hzero
            exact ⟨ByteArray.empty, ByteArray.append_empty.symm, List.not_mem_nil, hbyte ▸ hgives⟩
          · rw [if_neg hzero] at hread
            obtain ⟨taken, rfl, hends, hlater⟩ := ih hgives.valid hread
            refine ⟨piece ++ taken, ByteArray.append_assoc, ?_, ?_⟩
            · rw [ByteArray.data_append, Array.toList_append, hpiece, List.singleton_append,
                List.mem_cons]
              exact not_or.mpr ⟨fun hnone => hzero (congrArg UInt8.toNat hnone).symm, hends⟩
            · have hall := hgives.trans hlater
              simp only [ByteArray.data_push, ByteArray.data_append, Array.toList_push,
                Array.toList_append, hpiece, List.append_assoc] at hall ⊢
              exact hall

theorem textPart_of_ok (hsteady : Steady valid rest) {reading : String} {text : ByteArray}
    (hvalid : valid source) (hread : textPart reading source = (.ok text, next)) :
    0 ∉ text.data.toList ∧ Gives valid rest source next (text.push 0).data.toList := by
  obtain ⟨taken, htext, hends, hgives⟩ := readText_of_ok hsteady hvalid hread
  rw [ByteArray.empty_append] at htext
  rw [htext]
  exact ⟨hends, hgives⟩

theorem part_of_ok (hsteady : Steady valid rest) {reading : String} {n : Nat} {piece : ByteArray}
    (hvalid : valid source) (hread : part reading n source = (.ok piece, next)) :
    piece.size = n ∧ Gives valid rest source next piece.data.toList :=
  hsteady.gives_of_readExactly hvalid hread

-- An extra field that was read is written in the same bytes.
theorem readExtra_of_ok (hsteady : Steady valid rest) (hvalid : valid source)
    (hseen : Sums seen bytes) (hread : readExtra h seen source = (.ok (h', seen'), next))
    (hnone : h.extra = none) :
    ∃ field extra, h' = { h with extra := field } ∧ h'.recordedExtra = field ∧
      h'.extraBytes = .ok extra ∧ Sums seen' (bytes ++ extra) ∧
      Gives valid rest source next extra.data.toList := by
  rw [readExtra] at hread
  by_cases hannounced : h.announces .extra = true
  · rw [if_pos hannounced] at hread
    obtain ⟨size, middle, hsize, hread⟩ := bind_eq_ok hread
    obtain ⟨field, last, hfield, hread⟩ := bind_eq_ok hread
    cases hread
    obtain ⟨htwo, hfirst⟩ := part_of_ok hsteady hvalid hsize
    obtain ⟨hlength, hsecond⟩ := part_of_ok hsteady hfirst.valid hfield
    have hsame : Bytes.putLe ByteArray.empty 2 field.size = size := by
      rw [hlength, ← htwo]
      exact Bytes.putLe_le size
    have hfits : field.size ≤ 0xFFFF := by
      have := Bytes.le_lt size 0 2
      omega
    refine ⟨some field, size ++ field, rfl, if_pos hannounced, ?_, ?_, ?_⟩
    · rw [extraBytes, if_pos (by exact hannounced)]
      dsimp only [Option.getD_some]
      rw [if_pos hfits, hsame]
    · exact ByteArray.append_assoc ▸ (hseen.add size).add field
    · rw [ByteArray.data_append, Array.toList_append]
      exact hfirst.trans hsecond
  · rw [if_neg hannounced] at hread
    cases hread
    refine ⟨none, ByteArray.empty, by rw [← hnone], if_neg hannounced, if_neg hannounced, ?_, ?_⟩
    · rw [ByteArray.append_empty]
      exact hseen
    · exact .refl hvalid

-- So is a text, whatever becomes of it in the header.
theorem textBytes_of_ok (hsteady : Steady valid rest) (hvalid : valid source) {reading : String}
    (put : Option String → Header) (announced : Bool) (hseen : Sums seen bytes)
    (hread : (if announced then do
        let bytes ← textPart reading
        return (put (some (Text.ofLatin1 bytes)), seen ++ [bytes.push 0])
      else return (put none, seen) : Reading σ (Header × List ByteArray)) source =
        (.ok (h', seen'), next)) :
    ∃ text, h' = put text ∧ recordedText announced text = text ∧
      (∀ t ∈ text, '\x00' ∉ t.toList) ∧ Sums seen' (bytes ++ textBytes announced text) ∧
      Gives valid rest source next (textBytes announced text).data.toList := by
  cases announced with
  | false =>
      cases hread
      refine ⟨none, rfl, rfl, nofun, ?_, .refl hvalid⟩
      rw [textBytes, if_neg Bool.false_ne_true, ByteArray.append_empty]
      exact hseen
  | true =>
      rw [if_pos rfl] at hread
      obtain ⟨text, last, htext, hread⟩ := bind_eq_ok hread
      cases hread
      obtain ⟨hends, hgives⟩ := textPart_of_ok hsteady hvalid htext
      have hback : Text.toLatin1 (Text.ofLatin1 text) = text := Text.toLatin1_ofLatin1 text
      refine ⟨some (Text.ofLatin1 text), rfl, ?_, ?_, ?_, ?_⟩
      · rw [recordedText, if_pos rfl, Option.getD_some, hback]
      · rintro _ ⟨⟩
        exact Text.nul_mem_ofLatin1.not.mpr hends
      · rw [textBytes, if_pos rfl, Option.getD_some, hback]
        exact hseen.add _
      · rw [textBytes, if_pos rfl, Option.getD_some, hback]
        exact hgives

theorem readFilename_of_ok (hsteady : Steady valid rest) (hvalid : valid source)
    (hseen : Sums seen bytes) (hread : readFilename h seen source = (.ok (h', seen'), next))
    (hnone : h.filename = none) :
    ∃ text, h' = { h with filename := text } ∧
      recordedText (h.announces .filename) text = text ∧ (∀ t ∈ text, '\x00' ∉ t.toList) ∧
      Sums seen' (bytes ++ textBytes (h.announces .filename) text) ∧
      Gives valid rest source next (textBytes (h.announces .filename) text).data.toList := by
  have hput : { h with filename := none } = h := by rw [← hnone]
  apply textBytes_of_ok hsteady hvalid (fun text => { h with filename := text }) _ hseen
  rw [hput]
  exact hread

theorem readComment_of_ok (hsteady : Steady valid rest) (hvalid : valid source)
    (hseen : Sums seen bytes) (hread : readComment h seen source = (.ok (h', seen'), next))
    (hnone : h.comment = none) :
    ∃ text, h' = { h with comment := text } ∧
      recordedText (h.announces .comment) text = text ∧ (∀ t ∈ text, '\x00' ∉ t.toList) ∧
      Sums seen' (bytes ++ textBytes (h.announces .comment) text) ∧
      Gives valid rest source next (textBytes (h.announces .comment) text).data.toList := by
  have hput : { h with comment := none } = h := by rw [← hnone]
  apply textBytes_of_ok hsteady hvalid (fun text => { h with comment := text }) _ hseen
  rw [hput]
  exact hread

-- The checksum that was read is the one that is computed.
theorem readCrc_of_ok (hsteady : Steady valid rest) (hvalid : valid source)
    (hseen : Sums seen bytes) (hread : readCrc h seen source = (.ok h', next))
    (hnone : h.headerCrc = none) :
    h' = { h with headerCrc := h.recordedCrc bytes } ∧
      Gives valid rest source next (h.crcBytes bytes).data.toList := by
  rw [readCrc, hseen.crc16_eq] at hread
  rw [crcBytes, recordedCrc]
  generalize crc16 [bytes] = computed at hread ⊢
  by_cases hannounced : h.announces .headerCrc = true
  · rw [if_pos hannounced] at hread
    rw [if_pos hannounced, if_pos hannounced]
    obtain ⟨piece, last, hpiece, hread⟩ := bind_eq_ok hread
    obtain ⟨htwo, hgives⟩ := part_of_ok hsteady hvalid hpiece
    by_cases hright : UInt16.ofNat (Bytes.le piece 0 2) = computed
    · dsimp only at hread
      rw [if_pos hright] at hread
      cases hread
      have hsame : Bytes.putLe ByteArray.empty 2 computed.toNat = piece := by
        have hlt : Bytes.le piece 0 2 < 256 ^ 2 := Bytes.le_lt piece 0 2
        rw [← hright, UInt16.toNat_ofNat_of_lt' hlt, ← htwo]
        exact Bytes.putLe_le piece
      rw [hsame, hright]
      exact ⟨rfl, hgives⟩
    · dsimp only at hread
      rw [if_neg hright] at hread
      cases hread
  · rw [if_neg hannounced] at hread
    rw [if_neg hannounced, if_neg hannounced, ← hnone]
    cases hread
    exact ⟨rfl, .refl hvalid⟩

theorem recorded_eq_self {covered : ByteArray} (hflags : h.flags &&& ~~~reserved = h.flags)
    (hextra : h.recordedExtra = h.extra)
    (hfilename : recordedText (h.announces .filename) h.filename = h.filename)
    (hcomment : recordedText (h.announces .comment) h.comment = h.comment)
    (hcrc : h.recordedCrc covered = h.headerCrc) : h.recorded covered = h := by
  rw [recorded, bare, hflags, hextra, hfilename, hcomment, hcrc]

-- A header that was read is what would be read of it once it is written, and
-- these are the bytes that it was read from.
theorem readAll_of_ok (hsteady : Steady valid rest) (hvalid : valid source)
    (hread : readAll source = (.ok h, next)) :
    ∃ extra, h.extraBytes = .ok extra ∧ h.NulFree ∧ h.recorded (h.coveredBytes extra) = h ∧
      Gives valid rest source next
        (h.coveredBytes extra ++ h.crcBytes (h.coveredBytes extra)).data.toList := by
  rw [readAll] at hread
  obtain ⟨fixed, source₁, hfixed, hread⟩ := bind_eq_ok hread
  obtain ⟨bare, hbare, hread⟩ := check_eq_ok hread
  obtain ⟨⟨withExtra, seen₁⟩, source₂, hreadExtra, hread⟩ := bind_eq_ok hread
  obtain ⟨⟨withFilename, seen₂⟩, source₃, hreadFilename, hread⟩ := bind_eq_ok hread
  obtain ⟨⟨withComment, seen₃⟩, source₄, hreadComment, hread⟩ := bind_eq_ok hread
  obtain ⟨hten, hgives₁⟩ := part_of_ok hsteady hvalid hfixed
  obtain ⟨hsame, hwritten⟩ := ofFixed_eq_ok hten hbare
  have hfirst : Sums [fixed] fixed := rfl
  -- The bare header has none of the parts, so each of them is put into an empty place.
  obtain ⟨field, extra, rfl, hfield, hextra, hseen₁, hgives₂⟩ := readExtra_of_ok hsteady
    hgives₁.valid hfirst hreadExtra (congrArg Header.extra hsame).symm
  obtain ⟨filename, rfl, hfilename, hfilenameEnds, hseen₂, hgives₃⟩ := readFilename_of_ok hsteady
    hgives₂.valid hseen₁ hreadFilename (congrArg Header.filename hsame).symm
  obtain ⟨comment, rfl, hcomment, hcommentEnds, hseen₃, hgives₄⟩ := readComment_of_ok hsteady
    hgives₃.valid hseen₂ hreadComment (congrArg Header.comment hsame).symm
  obtain ⟨rfl, hgives₅⟩ := readCrc_of_ok hsteady hgives₄.valid hseen₃ hread
    (congrArg Header.headerCrc hsame).symm
  subst hwritten
  refine ⟨extra, hextra, ⟨hfilenameEnds, hcommentEnds⟩, ?_, ?_⟩
  · exact recorded_eq_self (congrArg Header.flags hsame) hfield hfilename hcomment rfl
  · have hall := hgives₁.trans (hgives₂.trans (hgives₃.trans (hgives₄.trans hgives₅)))
    simp only [← Array.toList_append, ← ByteArray.data_append, ← ByteArray.append_assoc] at hall
    exact hall

-- Writing a header that was read gives back the bytes that it was read from,
-- whatever the source brings them in. All other sources that bring these bytes
-- bring the same header, and leave what follows.
theorem toBytes_of_read (hsteady : Steady valid rest) (hvalid : valid source)
    (hread : read source = (.ok h, next)) :
    ∃ bytes, h.toBytes = .ok bytes ∧ rest source = bytes.data.toList ++ rest next ∧
      ∀ {τ : Type} [Source τ] {valid' : τ → Prop} {rest' : τ → List UInt8} (other : τ)
        (back : List UInt8), Reliable valid' rest' → valid' other →
        rest' other = bytes.data.toList ++ back →
        ∃ last, read other = (.ok h, last) ∧ rest' last = back := by
  obtain ⟨extra, hextra, hnul, hsame, hgives⟩ := readAll_of_ok hsteady hvalid hread
  refine ⟨_, toBytes_eq_ok_iff.mpr ⟨extra, hextra, rfl⟩, hgives.split, ?_⟩
  intro τ _ valid' rest' other back hreliable hother hrest
  obtain ⟨last, hagain, -, hback⟩ :=
    (readAll_frames hreliable hnul.delimited hextra).takes other back hother hrest
  rw [hsame] at hagain
  exact ⟨last, hagain, hback⟩

theorem toBytes_of_read_full :
    let script : Script := ⟨[.chunk ⟨#[0x1f, 0x8b, 8, 0x1f, 1, 2]⟩ 0, .interruption,
      .chunk ⟨#[3, 0xfe, 2, 3, 2, 0, 0, 7, 0xe9, 0, 0, 0xaa, 0xa9, 0x4b]⟩ 0]⟩
    let bytes : ByteArray :=
      ⟨#[0x1f, 0x8b, 8, 0x1f, 1, 2, 3, 0xfe, 2, 3, 2, 0, 0, 7, 0xe9, 0, 0, 0xaa, 0xa9]⟩
    ∃ h next, read script = (.ok h, next) ∧ h.filename = some "é" ∧ h.toBytes = .ok bytes ∧
      ∃ last, read (Script.ofBytes (bytes.push 0x4c)) = (.ok h, last) ∧
        last.rest.data.toList = [0x4c] := by
  intro script bytes
  let h : Header := ⟨0x1f, 0xfe030201, 2, 3, some ⟨#[0, 7]⟩, some "é", some "", some 0xa9aa⟩
  let next : Script :=
    ⟨[.chunk ⟨#[3, 0xfe, 2, 3, 2, 0, 0, 7, 0xe9, 0, 0, 0xaa, 0xa9, 0x4b]⟩ 13]⟩
  have hread : read script = (.ok h, next) := by decide +kernel
  have hwhole : script.rest.data.toList = bytes.data.toList ++ next.rest.data.toList := by decide
  have hscript : script.FailsAt fun _ => False := by decide
  have hother : (Script.ofBytes (bytes.push 0x4c)).FailsAt fun _ => False := by decide
  obtain ⟨written, hwritten, hsplit, hothers⟩ :=
    toBytes_of_read (Script.FailsAt.steady _) hscript hread
  have hsame : written = bytes := by
    apply ByteArray.ext
    apply Array.toList_inj.mp
    exact (List.append_cancel_right (hwhole.symm.trans hsplit)).symm
  rw [hsame] at hwritten hothers
  have hfull : (Script.ofBytes (bytes.push 0x4c)).rest.data.toList =
      bytes.data.toList ++ [0x4c] := by decide
  have hlast := hothers _ [0x4c] Script.reliable hother hfull
  exact ⟨h, next, hread, rfl, hwritten, hlast⟩

end Unpack.Gzip.Header
