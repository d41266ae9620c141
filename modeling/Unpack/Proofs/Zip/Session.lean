import Mathlib.Data.List.Induction
import Mathlib.Logic.Function.Basic
import Unpack.Zip.Archive

namespace Unpack.Zip

namespace EntryStream

variable {σ : Type}

theorem flaw_eq_none_iff (s : EntryStream σ) : s.flaw = none ↔
    s.size = s.expectedSize ∧ (s.verifyCrc = true → s.crc.value = s.expectedCrc) := by
  unfold flaw
  split
  · simp_all
  · split <;> simp_all

variable [RandomAccess σ]

-- The end is reached and checked when a read for bytes answers with none.
theorem verified_read_iff (s : EntryStream σ) (n : Nat) : (s.read n).2.verified = true ↔
    s.verified = true ∨ 0 < n ∧ ∃ bytes, (s.read n).1 = .ok bytes ∧ bytes.size = 0 := by
  rw [EntryStream.read]
  split
  · rename_i hidle
    constructor
    · exact Or.inl
    · rintro (hverified | ⟨hn, -⟩)
      · exact hverified
      · exact hidle.resolve_left (Nat.ne_of_gt hn)
  · rename_i hgoes
    have hn : 0 < n := Nat.pos_of_ne_zero fun h => hgoes (Or.inl h)
    split
    · simp
    · obtain ⟨body, name, expectedCrc, expectedSize, verifyCrc, crc, size, verified⟩ := s
      dsimp only
      obtain ⟨answer, body⟩ := body.read n
      cases answer with
      | error fault => simp
      | ok bytes =>
          dsimp only
          split
          · generalize flaw _ = outcome
            cases outcome <;> simp_all
          · split <;> simp_all

end EntryStream

namespace Archive

variable {σ : Type} [RandomAccess σ] {a : Archive σ} {e : Entry}

-- A stream begins with nothing read.
theorem openStream_eq_ok {s : EntryStream σ} (h : (a.openStream e).1 = .ok s) :
    ∃ body, s = ⟨body, e.name, e.crc, e.size, a.verifyCrc, .empty, 0, false⟩ := by
  obtain ⟨store, entries, comment, excess, verifyCrc⟩ := a
  cases store with
  | none => cases h
  | some store =>
      rw [openStream] at h
      dsimp only at h
      generalize LocalRecord.read (Cursor.mk store e.offset) = result at h
      obtain ⟨outcome, cursor⟩ := result
      cases outcome with
      | error fault => cases h
      | ok found =>
          dsimp only at h
          cases hcheck : checkLocal e found with
          | error fault => rw [hcheck] at h; cases h
          | ok _ =>
              cases hbody : body e cursor.store (e.offset + found.length) with
              | error fault => rw [hcheck, hbody] at h; cases h
              | ok body =>
                  rw [hcheck, hbody] at h
                  cases h
                  exact ⟨body, rfl⟩

end Archive

-- An archive and the streams opened from it, each in a place of its own.
structure Session (σ : Type) where
  archive : Archive σ
  streams : Nat → Option (EntryStream σ)

namespace Session

-- What is asked of an archive and its streams: a stream is opened for a place,
-- where it stands instead of the one before, or read from, or all is closed.
inductive Call where
  | start (place : Nat) (e : Entry)
  | read (place n : Nat)
  | close

def Call.place? : Call → Option Nat
  | .start place _ => some place
  | .read place _ => some place
  | .close => none

-- No stream is open yet.
def ofArchive {σ : Type} (archive : Archive σ) : Session σ :=
  ⟨archive, fun _ => none⟩

variable {σ : Type} [RandomAccess σ]

-- Only a read from a stream answers with bytes. Where no stream stands there is
-- nothing to read from.
def perform (s : Session σ) : Call → Except Fault (Option ByteArray) × Session σ
  | .start place e =>
      let (answer, archive) := s.archive.openStream e
      (answer.map fun _ => none, ⟨archive, Function.update s.streams place answer.toOption⟩)
  | .read place n =>
      match s.streams place with
      | none => (.ok none, s)
      | some stream =>
          let (answer, stream, archive) := s.archive.read stream n
          (answer.map some, ⟨archive, Function.update s.streams place (some stream)⟩)
  | .close => (.ok none, { s with archive := s.archive.close })

def after (calls : List Call) (s : Session σ) : Session σ :=
  calls.foldl (fun s call => (s.perform call).2) s

-- What a call is answered that comes after others.
def answer (s : Session σ) (calls : List Call) (call : Call) : Except Fault (Option ByteArray) :=
  ((s.after calls).perform call).1

-- Since it was opened, a read for bytes from the stream of a place has brought
-- none, which is how the stream tells its end.
def Announces (s : Session σ) (place : Nat) (calls : List Call) : Prop :=
  ∃ front n bytes back, calls = front ++ .read place n :: back ∧ 0 < n ∧
    s.answer front (.read place n) = .ok (some bytes) ∧ bytes.size = 0 ∧
    ∀ e, .start place e ∉ back

-- The stream of a place has checked its end.
def Verified (s : Session σ) (place : Nat) : Prop :=
  ∃ stream, s.streams place = some stream ∧ stream.verified = true

variable {s : Session σ} {place : Nat}

theorem after_append (front back : List Call) (s : Session σ) :
    s.after (front ++ back) = (s.after front).after back :=
  List.foldl_append

theorem after_concat (calls : List Call) (call : Call) (s : Session σ) :
    s.after (calls ++ [call]) = ((s.after calls).perform call).2 :=
  after_append calls [call] s

-- A stream is what it was unless its place is called.
theorem streams_perform_of_ne {call : Call} (h : call.place? ≠ some place) :
    (s.perform call).2.streams place = s.streams place := by
  cases call with
  | start other e => exact Function.update_of_ne (fun heq => h (congrArg some heq.symm)) _ _
  | read other n =>
      rw [perform]
      split
      · rfl
      · exact Function.update_of_ne (fun heq => h (congrArg some heq.symm)) _ _
  | close => rfl

theorem streams_perform_start (s : Session σ) (place : Nat) (e : Entry) :
    (s.perform (.start place e)).2.streams place = (s.archive.openStream e).1.toOption :=
  Function.update_self _ _ _

theorem perform_read_of_none (h : s.streams place = none) (n : Nat) :
    s.perform (.read place n) = (.ok none, s) := by
  rw [perform, h]

theorem perform_read_of_some {stream : EntryStream σ} (h : s.streams place = some stream) (n : Nat) :
    s.perform (.read place n) = (((stream.attach s.archive.store).read n).1.map some,
      ⟨(s.archive.read stream n).2.2,
        Function.update s.streams place (some ((stream.attach s.archive.store).read n).2)⟩) := by
  rw [perform, h]
  rfl

omit [RandomAccess σ] in
theorem not_verified_ofArchive (a : Archive σ) (place : Nat) : ¬(ofArchive a).Verified place := by
  rintro ⟨stream, hstream, -⟩
  cases hstream

-- What is opened has yet to be read.
theorem not_verified_start (s : Session σ) (place : Nat) (e : Entry) :
    ¬(s.perform (.start place e)).2.Verified place := by
  rintro ⟨stream, hstream, hverified⟩
  rw [streams_perform_start] at hstream
  cases hopen : (s.archive.openStream e).1 with
  | error fault =>
      rw [hopen] at hstream
      cases hstream
  | ok opened =>
      rw [hopen] at hstream
      cases hstream
      obtain ⟨body, rfl⟩ := Archive.openStream_eq_ok hopen
      cases hverified

theorem verified_perform_read (s : Session σ) (place n : Nat) :
    (s.perform (.read place n)).2.Verified place ↔ s.Verified place ∨
      0 < n ∧ ∃ bytes, (s.perform (.read place n)).1 = .ok (some bytes) ∧ bytes.size = 0 := by
  cases hstream : s.streams place with
  | none =>
      rw [perform_read_of_none hstream]
      simp
  | some stream =>
      have hread := (stream.attach s.archive.store).verified_read_iff n
      rw [perform_read_of_some hstream]
      generalize (stream.attach s.archive.store).read n = result at hread
      obtain ⟨answer, next⟩ := result
      have hnext : Verified ⟨(s.archive.read stream n).2.2,
          Function.update s.streams place (some next)⟩ place ↔ next.verified = true := by
        simp [Verified]
      have hbefore : s.Verified place ↔ (stream.attach s.archive.store).verified = true := by
        simp [Verified, hstream, EntryStream.attach]
      have hanswer : ∀ bytes, answer.map some = .ok (some bytes) ↔ answer = .ok bytes := by
        intro bytes
        cases answer <;> simp [Except.map]
      simp only [hnext, hbefore, hread, hanswer]

-- Only the last call can tell the end anew, and only opening can undo it.
theorem announces_concat (s : Session σ) (place : Nat) (calls : List Call) (call : Call) :
    s.Announces place (calls ++ [call]) ↔
      s.Announces place calls ∧ (∀ e, call ≠ .start place e) ∨
      ∃ n bytes, call = .read place n ∧ 0 < n ∧ s.answer calls call = .ok (some bytes) ∧
        bytes.size = 0 := by
  constructor
  · rintro ⟨front, n, bytes, back, hcalls, hn, hanswer, hnone, hlast⟩
    rcases List.eq_nil_or_concat back with rfl | ⟨back, last, rfl⟩
    · obtain ⟨rfl, hcall⟩ := List.append_inj' hcalls rfl
      cases hcall
      exact Or.inr ⟨n, bytes, rfl, hn, hanswer, hnone⟩
    · rw [List.concat_eq_append, ← List.cons_append, ← List.append_assoc] at hcalls
      obtain ⟨rfl, hcall⟩ := List.append_inj' hcalls rfl
      cases hcall
      rw [List.concat_eq_append] at hlast
      refine Or.inl ⟨⟨front, n, bytes, back, rfl, hn, hanswer, hnone, fun e he => ?_⟩, fun e he => ?_⟩
      · exact hlast e (List.mem_append_left _ he)
      · exact hlast e (List.mem_append_right _ (List.mem_singleton.mpr he.symm))
  · rintro (⟨⟨front, n, bytes, back, rfl, hn, hanswer, hnone, hlast⟩, hcall⟩ |
      ⟨n, bytes, rfl, hn, hanswer, hnone⟩)
    · refine ⟨front, n, bytes, back ++ [call], by simp, hn, hanswer, hnone, fun e he => ?_⟩
      rcases List.mem_append.mp he with hearly | hlate
      · exact hlast e hearly
      · exact hcall e (List.mem_singleton.mp hlate).symm
    · exact ⟨calls, n, bytes, [], rfl, hn, hanswer, hnone, fun e => List.not_mem_nil⟩

-- A stream has checked its end when it has told it.
theorem verified_iff_announces (hfresh : ¬s.Verified place) (calls : List Call) :
    (s.after calls).Verified place ↔ s.Announces place calls := by
  induction calls using List.reverseRecOn with
  | nil =>
      refine iff_of_false hfresh ?_
      rintro ⟨front, n, bytes, back, hcalls, -⟩
      exact List.cons_ne_nil _ _ (List.append_eq_nil_iff.mp hcalls.symm).2
  | append_singleton calls call ih =>
      rw [after_concat, announces_concat, ← ih]
      by_cases hplace : call.place? = some place
      · cases call with
        | start other e =>
            obtain rfl : other = place := Option.some.inj hplace
            refine iff_of_false (not_verified_start _ _ _) ?_
            rintro (⟨-, hcall⟩ | ⟨n, bytes, hcall, -⟩)
            · exact hcall e rfl
            · cases hcall
        | read other n =>
            obtain rfl : other = place := Option.some.inj hplace
            rw [verified_perform_read]
            simp [answer]
        | close => cases hplace
      · have hother : ∀ e, call ≠ .start place e := fun e h => hplace (h ▸ rfl)
        rw [Verified, streams_perform_of_ne hplace]
        constructor
        · exact fun h => Or.inl ⟨h, hother⟩
        · rintro (⟨h, -⟩ | ⟨n, bytes, rfl, -⟩)
          · exact h
          · exact absurd rfl hplace

end Session

end Unpack.Zip
