import Unpack.Proofs.Gzip.Rewriting

namespace Unpack

namespace Text

-- The zero character is one of ISO 8859-1 and stays.
theorem nul_mem_withinLatin1 {text : String} (hnul : '\x00' ∈ text.toList) :
    '\x00' ∈ (withinLatin1 text).toList := by
  rw [withinLatin1, String.toList_ofList]
  exact List.mem_map.mpr ⟨'\x00', hnul, rfl⟩

end Text

namespace Gzip.Header

open Source (Reliable)

variable {h h' : Header} {bytes : ByteArray}

-- The second header has the fixed fields of the first one, and the parts that
-- the first one announces.
structure Resembles (h h' : Header) : Prop where
  flags : h'.flags = h.flags &&& 0x1F
  mtime : h'.mtime = h.mtime
  extraFlags : h'.extraFlags = h.extraFlags
  os : h'.os = h.os
  extra : h'.extra = if h.announces .extra then some (h.extra.getD ByteArray.empty) else none
  filename : h'.filename =
    if h.announces .filename then some (Text.withinLatin1 (h.filename.getD "")) else none
  comment : h'.comment =
    if h.announces .comment then some (Text.withinLatin1 (h.comment.getD "")) else none
  headerCrc : h'.headerCrc.isSome = h.announces .headerCrc

-- Wherever these bytes come, whatever follows them, the header is read from them
-- and from nothing else.
def ReadsBack (h : Header) (bytes : ByteArray) : Prop :=
  ∀ {σ : Type} [Source σ] {valid : σ → Prop} {rest : σ → List UInt8} (source : σ)
    (back : List UInt8), Reliable valid rest → valid source →
    rest source = bytes.data.toList ++ back →
    ∃ h' next, read source = (.ok h', next) ∧ rest next = back ∧ h.Resembles h'

theorem recordedText_eq (announced : Bool) (text : Option String) :
    recordedText announced text =
      if announced then some (Text.withinLatin1 (text.getD "")) else none := by
  rw [recordedText, Text.ofLatin1_toLatin1]

theorem resembles_recorded (h : Header) (covered : ByteArray) :
    h.Resembles (h.recorded covered) where
  flags := by
    have hmask : ~~~reserved = 0x1F := by decide
    rw [← hmask]
    rfl
  mtime := rfl
  extraFlags := rfl
  os := rfl
  extra := rfl
  filename := recordedText_eq _ _
  comment := recordedText_eq _ _
  headerCrc := by
    show (h.recordedCrc covered).isSome = _
    rw [recordedCrc]
    cases h.announces .headerCrc <;> rfl

theorem Delimited.readsBack (hends : h.Delimited) (hwritten : h.toBytes = .ok bytes) :
    h.ReadsBack bytes := by
  obtain ⟨extra, hextra, rfl⟩ := toBytes_eq_ok_iff.mp hwritten
  intro σ _ valid rest source back hreliable hvalid hrest
  obtain ⟨next, hread, -, hback⟩ :=
    (readAll_frames hreliable hends hextra).takes source back hvalid hrest
  exact ⟨_, next, hread, hback, h.resembles_recorded _⟩

-- A text that resembles one without a zero character has none either.
theorem not_mem_of_recorded {announced : Bool} {text text' : Option String}
    (hsame : text' = if announced then some (Text.withinLatin1 (text.getD "")) else none)
    (hends : ∀ t ∈ text', '\x00' ∉ t.toList) :
    announced = true → ∀ t ∈ text, '\x00' ∉ t.toList := by
  rintro rfl t ht hnul
  obtain rfl : text = some t := ht
  exact hends _ hsame (Text.nul_mem_withinLatin1 hnul)

theorem Resembles.delimited (hsame : h.Resembles h') (hnul : h'.NulFree) : h.Delimited :=
  ⟨not_mem_of_recorded hsame.filename hnul.filename,
    not_mem_of_recorded hsame.comment hnul.comment⟩

-- A header that is read back was written without a zero character, since none is
-- ever read.
theorem ReadsBack.delimited (hback : h.ReadsBack bytes) (hsome : 0 < bytes.size) :
    h.Delimited := by
  have hvalid : (Script.ofBytes bytes).FailsAt fun _ => False := by
    refine ⟨fun delivery hdelivery => ?_, nofun⟩
    obtain rfl := List.mem_singleton.mp hdelivery
    exact hsome
  have hrest : (Script.ofBytes bytes).rest.data.toList = bytes.data.toList ++ [] := Script.rest_eq _
  obtain ⟨h', next, hread, -, hsame⟩ := hback _ [] Script.reliable hvalid hrest
  obtain ⟨-, -, hnul, -⟩ := readAll_of_ok (Script.FailsAt.steady _) hvalid hread
  exact hsame.delimited hnul

theorem size_pos_of_toBytes (hwritten : h.toBytes = .ok bytes) : 0 < bytes.size := by
  obtain ⟨extra, hextra, rfl⟩ := toBytes_eq_ok_iff.mp hwritten
  have hfixed : h.fixedBytes.size = 10 := rfl
  rw [coveredBytes]
  simp only [ByteArray.size_append]
  omega

theorem extraBytes_eq_error {fault : Fault} (hfails : h.extraBytes = .error fault) :
    fault = .invalidHeader .extraTooLong ∧ h.announces .extra = true ∧
      0xFFFF < (h.extra.getD ByteArray.empty).size := by
  rw [extraBytes] at hfails
  by_cases hannounced : h.announces .extra = true
  · rw [if_pos hannounced] at hfails
    dsimp only at hfails
    by_cases hfits : (h.extra.getD ByteArray.empty).size ≤ 0xFFFF
    · rw [if_pos hfits] at hfails
      cases hfails
    · rw [if_neg hfits] at hfails
      cases hfails
      exact ⟨rfl, hannounced, Nat.lt_of_not_le hfits⟩
  · rw [if_neg hannounced] at hfails
    cases hfails

-- A header is written unless its extra field is too long. What is written is read
-- back exactly when no text that is announced holds the zero character.
theorem readsBack_iff_delimited (h : Header) :
    (h.toBytes = .error (.invalidHeader .extraTooLong) ∧ h.announces .extra = true ∧
      0xFFFF < (h.extra.getD ByteArray.empty).size) ∨
    ∃ bytes, h.toBytes = .ok bytes ∧ (h.ReadsBack bytes ↔ h.Delimited) := by
  cases hextra : h.extraBytes with
  | error fault =>
      obtain ⟨rfl, hannounced, hlong⟩ := extraBytes_eq_error hextra
      have hrefused : h.toBytes = .error (.invalidHeader .extraTooLong) := by
        rw [toBytes, hextra]
        rfl
      exact .inl ⟨hrefused, hannounced, hlong⟩
  | ok extra =>
      have hwritten := toBytes_eq_ok_iff.mpr ⟨extra, hextra, rfl⟩
      refine .inr ⟨_, hwritten, fun hback => hback.delimited (size_pos_of_toBytes hwritten), ?_⟩
      exact fun hends => hends.readsBack hwritten

-- A zero character ends the name early, and the rest of it is left in front of the
-- compressed data.
theorem not_readsBack_named :
    let h : Header := named "a\x00b"
    let bytes : ByteArray := ⟨#[0x1f, 0x8b, 8, 8, 0, 0, 0, 0, 0, 0xff, 0x61, 0, 0x62, 0]⟩
    h.toBytes = .ok bytes ∧
      read (Script.ofBytes bytes) = (.ok (named "a"), ⟨[.chunk bytes 12]⟩) ∧
      ¬h.ReadsBack bytes := by
  intro h bytes
  refine ⟨by decide +kernel, by decide +kernel, fun hback => ?_⟩
  have hends := (hback.delimited (by decide)).filename (by decide) _ rfl
  exact hends (by decide)

end Gzip.Header

end Unpack
