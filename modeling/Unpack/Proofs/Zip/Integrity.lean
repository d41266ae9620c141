import Unpack.Proofs.Bits.Reader
import Unpack.Proofs.Checksum.Crc32
import Unpack.Proofs.Zip.Session

namespace Unpack.Zip

-- The bytes of an answer, if it has any.
def given : Except Fault ByteArray → List UInt8
  | .ok bytes => bytes.data.toList
  | .error _ => []

namespace EntryStream

-- A stream of an entry that has handed out these bytes. Once they are too many,
-- size and checksum no longer go together, but the end is never announced.
structure Accounts {σ : Type} (e : Entry) (verify : Bool) (handed : List UInt8)
    (s : EntryStream σ) : Prop where
  expectedSize : s.expectedSize = e.size
  expectedCrc : s.expectedCrc = e.crc
  verifyCrc : s.verifyCrc = verify
  bounded : handed.length ≤ e.size
  counted : s.size ≤ e.size →
    s.size = handed.length ∧ s.crc = Crc32.empty.update ⟨handed.toArray⟩
  checked : s.verified = true → s.size = e.size ∧ (verify = true → s.crc.value = e.crc)

variable {σ : Type} {e : Entry} {verify : Bool} {handed : List UInt8} {s : EntryStream σ}

theorem Accounts.attach (h : s.Accounts e verify handed) (store : Option σ) :
    (s.attach store).Accounts e verify handed :=
  ⟨h.expectedSize, h.expectedCrc, h.verifyCrc, h.bounded, h.counted, h.checked⟩

-- What has been handed out when the end is announced.
theorem Accounts.whole (h : s.Accounts e verify handed) (hverified : s.verified = true) :
    handed.length = e.size ∧ (verify = true → Crc32.of ⟨handed.toArray⟩ = e.crc) := by
  obtain ⟨hsize, hcrc⟩ := h.checked hverified
  obtain ⟨hlength, hupdate⟩ := h.counted (Nat.le_of_eq hsize)
  refine ⟨hlength.symm.trans hsize, fun hverify => ?_⟩
  rw [← hcrc hverify, hupdate]
  rfl

variable [RandomAccess σ]

-- A read keeps the account.
theorem Accounts.read (h : s.Accounts e verify handed) (n : Nat) :
    (s.read n).2.Accounts e verify (handed ++ given (s.read n).1) := by
  have hsame : s.Accounts e verify (handed ++ []) := by rwa [List.append_nil]
  rw [EntryStream.read]
  split
  · exact hsame
  · rename_i hgoes
    have hunverified : s.verified = false := by simpa using fun h => hgoes (Or.inr h)
    split
    · exact hsame
    · obtain ⟨body, name, expectedCrc, expectedSize, verifyCrc, crc, size, verified⟩ := s
      obtain ⟨hsize, hcrc, hverify, hbounded, hcounted, hchecked⟩ := h
      dsimp only at hsize hcrc hverify hcounted hunverified ⊢
      subst hsize hcrc hverify hunverified
      obtain ⟨answer, body⟩ := body.read n
      cases answer with
      | error fault => exact ⟨rfl, rfl, rfl, hsame.bounded, hsame.counted, Bool.noConfusion⟩
      | ok bytes =>
          dsimp only
          split
          · rename_i hnone
            have hnil : bytes.data.toList = [] := List.eq_nil_of_length_eq_zero hnone
            generalize hflaw : flaw _ = outcome
            cases outcome with
            | some fault =>
                exact ⟨rfl, rfl, rfl, hsame.bounded, hsame.counted, Bool.noConfusion⟩
            | none =>
                have hsound := (flaw_eq_none_iff _).mp hflaw
                dsimp only [given]
                rw [hnil]
                exact ⟨rfl, rfl, rfl, hsame.bounded, hsame.counted, fun _ => hsound⟩
          · split
            · rename_i hsome hover
              exact ⟨rfl, rfl, rfl, hsame.bounded, fun hle => absurd hle (Nat.not_le.mpr hover), Bool.noConfusion⟩
            · rename_i hsome hfits
              obtain ⟨hlength, hupdate⟩ := hcounted (by omega)
              have hmore : (handed ++ bytes.data.toList).length = size + bytes.size := by
                rw [List.length_append, Bits.Reader.length_toList, hlength]
              refine ⟨rfl, rfl, rfl, ?_, fun _ => ⟨hmore.symm, ?_⟩, Bool.noConfusion⟩
              · show (handed ++ bytes.data.toList).length ≤ e.size
                omega
              · dsimp only [given]
                rw [hupdate]
                simp only [Crc32.update_eq_foldl, List.foldl_append]

end EntryStream

namespace Session

variable {σ : Type} [RandomAccess σ] {s : Session σ} {place : Nat} {e : Entry} {verify : Bool}
  {handed : List UInt8}

-- The bytes that a call brings from the stream of a place.
def brought (place : Nat) : Call → Except Fault (Option ByteArray) → List UInt8
  | .read other _, .ok (some bytes) => if other = place then bytes.data.toList else []
  | _, _ => []

-- All the bytes that calls bring from the stream of a place.
def returned (place : Nat) : List Call → Session σ → List UInt8
  | [], _ => []
  | call :: calls, s =>
      brought place call (s.perform call).1 ++ returned place calls (s.perform call).2

-- The stream of a place, if there is one, has handed out these bytes.
structure Accounts (s : Session σ) (place : Nat) (e : Entry) (verify : Bool) (handed : List UInt8) :
    Prop where
  bounded : handed.length ≤ e.size
  stream : ∀ stream, s.streams place = some stream → stream.Accounts e verify handed

theorem accounts_start (s : Session σ) (place : Nat) (e : Entry) :
    (s.perform (.start place e)).2.Accounts place e s.archive.verifyCrc [] := by
  refine ⟨Nat.zero_le _, fun stream hstream => ?_⟩
  rw [streams_perform_start] at hstream
  cases hopen : (s.archive.openStream e).1 with
  | error fault =>
      rw [hopen] at hstream
      cases hstream
  | ok opened =>
      rw [hopen] at hstream
      cases hstream
      obtain ⟨body, rfl⟩ := Archive.openStream_eq_ok hopen
      exact ⟨rfl, rfl, rfl, Nat.zero_le _, fun _ => ⟨rfl, (Crc32.update_eq_foldl .empty ⟨#[]⟩).symm⟩,
        nofun⟩

theorem Accounts.perform (h : s.Accounts place e verify handed) {call : Call}
    (hsame : ∀ other, call ≠ .start place other) :
    (s.perform call).2.Accounts place e verify (handed ++ brought place call (s.perform call).1) := by
  by_cases hplace : call.place? = some place
  · cases call with
    | start other e =>
        obtain rfl : other = place := Option.some.inj hplace
        exact absurd rfl (hsame e)
    | read other n =>
        obtain rfl : other = place := Option.some.inj hplace
        cases hstream : s.streams other with
        | none =>
            rw [perform_read_of_none hstream]
            exact ⟨by simpa [brought] using h.bounded, fun stream h => by simp [hstream] at h⟩
        | some stream =>
            have hread := ((h.stream stream hstream).attach s.archive.store).read n
            rw [perform_read_of_some hstream]
            generalize (stream.attach s.archive.store).read n = result at hread
            obtain ⟨answer, next⟩ := result
            have hbrought : brought other (.read other n) (answer.map some) = given answer := by
              cases answer <;> simp [brought, given, Except.map]
            dsimp only
            rw [hbrought]
            refine ⟨hread.bounded, fun last hlast => ?_⟩
            dsimp only at hlast
            rw [Function.update_self] at hlast
            cases hlast
            exact hread
    | close => cases hplace
  · have hnone : brought place call (s.perform call).1 = [] := by
      cases call with
      | start other e => rfl
      | read other n =>
          have hne : other ≠ place := fun heq => hplace (congrArg some heq)
          unfold brought
          split <;> simp_all
      | close => rfl
    rw [hnone, List.append_nil]
    refine ⟨h.bounded, fun stream hstream => h.stream stream ?_⟩
    rwa [streams_perform_of_ne hplace] at hstream

theorem Accounts.after (h : s.Accounts place e verify handed) {calls : List Call}
    (hsame : ∀ other, .start place other ∉ calls) :
    (s.after calls).Accounts place e verify (handed ++ returned place calls s) := by
  induction calls generalizing s handed with
  | nil => rwa [returned, List.append_nil]
  | cons call calls ih =>
      rw [returned, ← List.append_assoc]
      refine ih (h.perform fun other heq => ?_) fun other hmem => ?_
      · exact hsame other (heq ▸ List.mem_cons_self)
      · exact hsame other (List.mem_cons_of_mem _ hmem)

-- However an entry reads, whatever its stream is read with, whatever fails in
-- between and whatever other calls come in between: no more bytes are brought
-- than the entry announces, and when the end is told they are as many as it
-- announces and, unless that is not to be verified, have the checksum announced.
theorem returned_sound (s : Session σ) (place : Nat) (e : Entry) (calls : List Call)
    (hsame : ∀ other, .start place other ∉ calls) :
    let opened := (s.perform (.start place e)).2
    (returned place calls opened).length ≤ e.size ∧
      (opened.Announces place calls →
        (returned place calls opened).length = e.size ∧
          (s.archive.verifyCrc = true →
            Crc32.of ⟨(returned place calls opened).toArray⟩ = e.crc)) := by
  intro opened
  have haccounts := (s.accounts_start place e).after hsame
  rw [List.nil_append] at haccounts
  refine ⟨haccounts.bounded, fun hannounces => ?_⟩
  obtain ⟨stream, hstream, hverified⟩ :=
    (verified_iff_announces (s.not_verified_start place e) calls).mpr hannounces
  exact (haccounts.stream stream hstream).whole hverified

theorem returned_sound_stored :
    let store : ByteArray := ⟨#[0x50, 0x4b, 3, 4, 10, 0, 0, 0, 0, 0, 0, 0, 0x21, 0, 0x8b, 0x9e, 0xd9,
      0xd3, 1, 0, 0, 0, 1, 0, 0, 0, 1, 0, 0, 0, 0x61, 0x41]⟩
    let e : Entry := { Entry.file "a" 1 with crc := 0xd3d99e8b }
    let calls : List Call := [.start 1 { e with size := 0 }, .read 1 4, .read 0 4, .read 0 4, .close]
    let opened := ((ofArchive ⟨some store, #[e], "", 0, true⟩).perform (.start 0 e)).2
    (∀ other, .start 0 other ∉ calls) ∧ opened.Announces 0 calls ∧
      (returned 0 calls opened).length = 1 ∧
      Crc32.of ⟨(returned 0 calls opened).toArray⟩ = 0xd3d99e8b := by
  intro store e calls opened
  have hsame : ∀ other, .start 0 other ∉ calls := by simp [calls]
  have hannounces : opened.Announces 0 calls :=
    ⟨[.start 1 { e with size := 0 }, .read 1 4, .read 0 4], 4, .empty, [.close], rfl, by decide,
      by decide +kernel, rfl, by simp⟩
  obtain ⟨hlength, hcrc⟩ :=
    (returned_sound (ofArchive ⟨some store, #[e], "", 0, true⟩) 0 e calls hsame).2 hannounces
  exact ⟨hsame, hannounces, hlength, hcrc rfl⟩

end Session

end Unpack.Zip
