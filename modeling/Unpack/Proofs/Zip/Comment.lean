import Unpack.Proofs.Zip.RoundTrip

namespace Unpack.Zip

-- Some end record is the last one.
theorem Ending.exists_last {bytes : ByteArray} {position : Nat} {ending : Ending}
    (h : ofPosition bytes position = some ending) :
    ∃ last found, position ≤ last ∧ ofPosition bytes last = some found ∧
      ∀ later, last < later → ofPosition bytes later = none := by
  by_cases hlater : ∃ later, position < later ∧ ofPosition bytes later ≠ none
  · obtain ⟨later, hless, hsome⟩ := hlater
    obtain ⟨next, hnext⟩ := Option.ne_none_iff_exists'.mp hsome
    have hfits := fits_of_ofPosition hnext
    obtain ⟨last, found, hle, hfound, hnone⟩ := exists_last hnext
    exact ⟨last, found, Nat.le_trans (Nat.le_of_lt hless) hle, hfound, hnone⟩
  · refine ⟨position, ending, Nat.le_refl _, h, fun later hless => ?_⟩
    by_contra hsome
    exact hlater ⟨later, hless, hsome⟩
termination_by bytes.size - position

namespace Builder

variable {b : Builder} {items : List Item}

-- The comment that is found is the one that was written exactly if no other end
-- record is seen behind the written one.
theorem find_comment_iff (hfits : b.Fits) :
    (∃ ending, (Ending.find b.whole).1 = .ok ending ∧ ending.comment = b.comment.toUTF8) ↔
      b.EndsOnce := by
  constructor
  · rintro ⟨ending, hfind, hcomment⟩ position hposition
    by_contra hsome
    obtain ⟨other, hother⟩ := Option.ne_none_iff_exists'.mp hsome
    obtain ⟨last, found, hle, hfound, hnone⟩ := Ending.exists_last hother
    have hspan := size_whole_le hfits
    rw [Ending.find_eq hfound hnone (by omega)] at hfind
    cases hfind
    -- behind a later record there is less room than the comment takes
    have hreach := Ending.fits_of_ofPosition hfound
    have hsize : b.comment.toUTF8.size = b.comment.utf8ByteSize := rfl
    rw [hcomment, size_whole, hsize] at hreach
    omega
  · intro honce
    exact ⟨_, congrArg Prod.fst
      (Ending.find_eq (ofPosition_whole hfits) honce (size_whole_le hfits)), rfl⟩

-- The same archive without a comment.
def bare (b : Builder) : Builder := { b with comment := "" }

theorem Fits.bare (h : b.Fits) : b.bare.Fits :=
  ⟨h.entries, Nat.zero_le _, h.out, h.directory⟩

-- With the comment or without it, an entry is read as the data of its item.
theorem Holds.readWhole_bare (h : b.Holds items) (verifyCrc : Bool) {e : Entry}
    (he : e ∈ b.entries) :
    (Archive.readWhole ⟨some b.whole, b.entries, b.comment, 0, verifyCrc⟩ e).1 =
      (Archive.readWhole ⟨some b.bare.whole, b.entries, "", 0, verifyCrc⟩ e).1 := by
  obtain ⟨item, hfiled⟩ := h.filed he
  have hbare : Filed b.bare.out e item := hfiled
  rw [Archive.readWhole_filed (filed_whole hfiled), Archive.readWhole_filed (filed_whole hbare)]

-- A comment comes back as it was set, and everything else is read as without
-- it, unless the comment makes another end record out of the bytes behind the
-- written one. Then it is not even found.
theorem comment_found_iff (calls : List Call) (modified : Int) (verifyCrc : Bool)
    {bytes : ByteArray} (hfinish : (afterCalls calls (start modified)).finish = .ok bytes) :
    ((∃ ending, (Ending.find bytes).1 = .ok ending ∧
        ending.comment = (afterCalls calls (start modified)).comment.toUTF8) ↔
      (afterCalls calls (start modified)).EndsOnce) ∧
    ((afterCalls calls (start modified)).EndsOnce → ∃ a plain other,
      Archive.ofStore bytes verifyCrc = .ok a ∧
      a.comment = (afterCalls calls (start modified)).comment ∧
      (afterCalls calls (start modified)).bare.finish = .ok plain ∧
      Archive.ofStore plain verifyCrc = .ok other ∧
      a.entries = other.entries ∧
      ∀ e ∈ a.entries, (a.readWhole e).1 = (other.readWhole e).1) := by
  have hholds := (start_holds modified).afterCalls calls
  generalize additions calls (start modified) = items at hholds
  generalize afterCalls calls (start modified) = b at hfinish hholds ⊢
  obtain ⟨hfits, rfl⟩ := finish_eq_ok_iff.mp hfinish
  refine ⟨find_comment_iff hfits, fun honce => ?_⟩
  have hopen := ofStore_whole hfits hholds.recordable honce verifyCrc
  have hplain := ofStore_whole hfits.bare hholds.recordable (endsOnce_of_bare rfl) verifyCrc
  exact ⟨_, b.bare.whole, _, hopen, rfl, finish_eq_ok_iff.mpr ⟨hfits.bare, rfl⟩, hplain, rfl,
    fun e he => hholds.readWhole_bare verifyCrc he⟩

theorem comment_found_release :
    ∃ bytes a, (afterCalls [.directory "a", .comment "release 1.0"] (start 315532800)).finish =
        .ok bytes ∧
      Archive.ofStore bytes true = .ok a ∧ a.comment = "release 1.0" := by
  let b := afterCalls [.directory "a", .comment "release 1.0"] (start 315532800)
  have hfits : b.Fits :=
    ⟨by decide +kernel, by decide +kernel, by decide +kernel, by decide +kernel⟩
  have hcontent : b.content.size = 80 := by decide +kernel
  have hwhole : b.whole.size = 113 := by decide +kernel
  have hscan : ∀ position < 92, 80 < position →
      (Ending.ofPosition b.whole position).isNone = true := by decide +kernel
  have honce : b.EndsOnce := by
    intro position hposition
    rw [hcontent] at hposition
    by_cases hroom : position < 92
    · exact Option.isNone_iff_eq_none.mp (hscan position hroom hposition)
    · apply Ending.ofPosition_of_short
      rw [hwhole, EndRecord.fixedSize]
      omega
  have hfinish : b.finish = .ok b.whole := finish_eq_ok_iff.mpr ⟨hfits, rfl⟩
  obtain ⟨a, plain, other, hopen, hcomment, -⟩ :=
    (comment_found_iff _ 315532800 true hfinish).2 honce
  have hrelease : b.comment = "release 1.0" := by decide +kernel
  exact ⟨b.whole, a, hfinish, hopen, hcomment.trans hrelease⟩

theorem exists_of_map_eq_ok {answer : Except Fault (Archive ByteArray)} {entries : Array Entry}
    {comment : String} (h : answer.map (fun a => (a.entries, a.comment)) = .ok (entries, comment)) :
    ∃ a, answer = .ok a ∧ a.entries = entries ∧ a.comment = comment := by
  cases answer with
  | error fault => cases h
  | ok a =>
      have hread := Except.ok.inj h
      exact ⟨a, rfl, congrArg Prod.fst hread, congrArg Prod.snd hread⟩

-- This comment is an end record of its own, of an archive without any entries.
theorem comment_taken_for_ending :
    let b := afterCalls [.directory "a", .comment ("PK\x05\x06".pushn '\x00' 18)] (start 315532800)
    b.comment.utf8ByteSize = 22 ∧
      (∃ bytes a, b.finish = .ok bytes ∧ Archive.ofStore bytes true = .ok a ∧
        a.entries = #[] ∧ a.comment = "") ∧
      ∃ bytes a, b.bare.finish = .ok bytes ∧ Archive.ofStore bytes true = .ok a ∧
        a.entries = b.entries ∧ b.entries.size = 1 := by
  intro b
  have hfits : b.Fits :=
    ⟨by decide +kernel, by decide +kernel, by decide +kernel, by decide +kernel⟩
  have hopen : (Archive.ofStore b.whole true).map (fun a => (a.entries, a.comment)) =
      .ok (#[], "") := by decide +kernel
  have hbare : (Archive.ofStore b.bare.whole true).map (fun a => (a.entries, a.comment)) =
      .ok (b.entries, "") := by decide +kernel
  obtain ⟨a, ha, hentries, hcomment⟩ := exists_of_map_eq_ok hopen
  obtain ⟨other, hother, hothers, -⟩ := exists_of_map_eq_ok hbare
  exact ⟨by decide +kernel,
    ⟨b.whole, a, finish_eq_ok_iff.mpr ⟨hfits, rfl⟩, ha, hentries, hcomment⟩,
    b.bare.whole, other, finish_eq_ok_iff.mpr ⟨hfits.bare, rfl⟩, hother, hothers, by decide +kernel⟩

end Builder

end Unpack.Zip
