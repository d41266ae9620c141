import Unpack.Proofs.Gzip.RoundTrip
import Unpack.Proofs.Sink

namespace Unpack.Gzip.Writer

open Deflate (StoredBlocks)
open Sink (Appends settled_eq_ok bind_settled_eq_ok)

variable {κ ω : Type} [Sink ω] {written : ω → List UInt8} {data : List UInt8} {w w' : Writer κ ω}

section Step

theorem Sums.deliver (h : Sums data w) : Sums data (deliver w).2 := by
  obtain ⟨out, encoder, crc, size, pending⟩ := w
  rw [Writer.deliver]
  by_cases hnone : pending.size = 0
  · rw [if_pos hnone]
    exact h
  · rw [if_neg hnone]
    obtain ⟨answer, next⟩ := Sink.write out pending
    cases answer with
    | error fault => exact ⟨h.crc, h.size⟩
    | ok done => exact ⟨h.crc, h.size⟩

theorem deliver_extends (happends : Appends written) (h : deliver w = (.ok (), w')) :
    ∃ more, written w'.out = written w.out ++ more := by
  obtain ⟨out, encoder, crc, size, pending⟩ := w
  rw [deliver] at h
  by_cases hnone : pending.size = 0
  · rw [if_pos hnone] at h
    cases h
    exact ⟨[], (List.append_nil _).symm⟩
  · rw [if_neg hnone] at h
    generalize hwrite : Sink.write out pending = result at h
    obtain ⟨answer, next⟩ := result
    cases answer with
    | error fault => cases h
    | ok done =>
        cases h
        exact ⟨_, happends.write _ _ _ hwrite⟩

variable [Encoder κ]

-- Neither encoder nor sink touches checksum and size, whether they fail or not.
theorem Sums.push (h : Sums data w) (offered : ByteArray) (mode : Flush) :
    Sums data (push offered mode w).2 := by
  obtain ⟨out, encoder, crc, size, pending⟩ := w
  rw [Writer.push]
  obtain ⟨answer, next⟩ := Encoder.encode encoder offered mode
  cases answer with
  | error fault => exact ⟨h.crc, h.size⟩
  | ok bytes =>
      have hpending : Sums data (⟨out, next, crc, size, pending ++ bytes⟩ : Writer κ ω) :=
        ⟨h.crc, h.size⟩
      exact hpending.deliver

theorem push_extends (happends : Appends written) {offered : ByteArray} {mode : Flush}
    (h : push offered mode w = (.ok (), w')) : ∃ more, written w'.out = written w.out ++ more := by
  obtain ⟨out, encoder, crc, size, pending⟩ := w
  rw [push] at h
  generalize Encoder.encode encoder offered mode = result at h
  obtain ⟨answer, next⟩ := result
  cases answer with
  | error fault => cases h
  | ok bytes =>
      dsimp only at h
      obtain ⟨more, hmore⟩ := deliver_extends happends h
      exact ⟨more, hmore⟩

-- Every call counts what it is given, whether it succeeds or not.
theorem Sums.perform (h : Sums data w) (call : Call) :
    Sums (data ++ call.data.data.toList) (w.perform call).2 := by
  cases call with
  | write offered => exact (h.write offered).push offered .keep
  | flush =>
      have hsame : data ++ Call.flush.data.data.toList = data := List.append_nil data
      have hpushed := h.push ByteArray.empty .sync
      rw [hsame, Writer.perform, Writer.flush]
      generalize Writer.push ByteArray.empty .sync w = result at hpushed
      obtain ⟨answer, next⟩ := result
      cases answer with
      | error fault => exact hpushed
      | ok done => exact ⟨hpushed.crc, hpushed.size⟩

theorem finish_eq_ok {final : ω} (hfinish : w.finish = .ok final) :
    ∃ next checked sized, Writer.push ByteArray.empty .finish w = (.ok (), next) ∧
      Sink.write next.out (Bytes.putLe ByteArray.empty 4 next.crc.value.toNat) = (.ok (), checked) ∧
      Sink.write checked (Bytes.putLe ByteArray.empty 4 next.size) = (.ok (), sized) ∧
      Sink.flush sized = (.ok (), final) := by
  rw [Writer.finish] at hfinish
  obtain ⟨next, hpush, hfinish⟩ := bind_settled_eq_ok hfinish
  obtain ⟨checked, hcrc, hfinish⟩ := bind_settled_eq_ok hfinish
  obtain ⟨sized, hsize, hfinish⟩ := bind_settled_eq_ok hfinish
  exact ⟨next, checked, sized, hpush, hcrc, hsize, settled_eq_ok hfinish⟩

-- A member that is finished ends with the trailer.
theorem Sums.finish (h : Sums data w) (happends : Appends written) {final : ω}
    (hfinish : w.finish = .ok final) :
    ∃ body trailer, written final = written w.out ++ (body ++ trailer) ∧ trailer.length = 8 ∧
      HasTrailer data trailer := by
  obtain ⟨next, checked, sized, hpush, hcrc, hsize, hflush⟩ := finish_eq_ok hfinish
  have hpushed := h.push ByteArray.empty .finish
  rw [hpush] at hpushed
  obtain ⟨body, hbody⟩ := push_extends happends hpush
  refine ⟨body, _, ?_, ?_, hpushed.hasTrailer⟩
  · rw [happends.flush _ _ hflush, happends.write _ _ _ hsize, happends.write _ _ _ hcrc, hbody,
      Bytes.toList_putLe, Bytes.toList_putLe]
    simp only [List.append_assoc]
    rfl
  · rw [List.length_append, Bytes.length_digits, Bytes.length_digits]

end Step

section Run

variable [Encoder κ]

def performAll (w : Writer κ ω) : List Call → Writer κ ω
  | [] => w
  | call :: calls => performAll (w.perform call).2 calls

-- The data of the calls that succeed, and of those that fail.
def accepted (w : Writer κ ω) : List Call → List UInt8
  | [] => []
  | call :: calls =>
      match w.perform call with
      | (.ok (), w) => call.data.data.toList ++ accepted w calls
      | (.error _, w) => accepted w calls

def refused (w : Writer κ ω) : List Call → List UInt8
  | [] => []
  | call :: calls =>
      match w.perform call with
      | (.ok (), w) => refused w calls
      | (.error _, w) => call.data.data.toList ++ refused w calls

theorem Sums.performAll (h : Sums data w) (calls : List Call) :
    Sums (data ++ content calls) (w.performAll calls) := by
  induction calls generalizing w data with
  | nil =>
      have hsame : data ++ content [] = data := List.append_nil data
      rw [hsame]
      exact h
  | cons call calls ih =>
      have hlater := ih (h.perform call)
      rw [List.append_assoc] at hlater
      exact hlater

theorem length_accepted_add_refused (w : Writer κ ω) (calls : List Call) :
    (w.accepted calls).length + (w.refused calls).length = (content calls).length := by
  induction calls generalizing w with
  | nil => rfl
  | cons call calls ih =>
      have hlength : (content (call :: calls)).length =
          call.data.data.toList.length + (content calls).length := List.length_append
      rw [accepted, refused, hlength]
      obtain ⟨answer, next⟩ := w.perform call
      have hlater := ih next
      cases answer with
      | error fault =>
          dsimp only
          rw [List.length_append]
          omega
      | ok done =>
          dsimp only
          rw [List.length_append]
          omega

theorem accepted_of_refused {calls : List Call} (h : w.refused calls = []) :
    w.accepted calls = content calls := by
  induction calls generalizing w with
  | nil => rfl
  | cons call calls ih =>
      have hcontent : content (call :: calls) = call.data.data.toList ++ content calls := rfl
      rw [refused] at h
      rw [accepted, hcontent]
      generalize w.perform call = result at h
      obtain ⟨answer, next⟩ := result
      cases answer with
      | error fault =>
          obtain ⟨hnone, hlater⟩ := List.append_eq_nil_iff.mp h
          rw [hnone, List.nil_append]
          exact ih hlater
      | ok done => exact congrArg _ (ih h)

end Run

-- The counted size is that of the data, and a member that is finished ends with its
-- checksum and size.
structure Describes [Encoder κ] (written : ω → List UInt8) (data : List UInt8) (w : Writer κ ω) :
    Prop where
  size : w.size = data.length
  finish : ∀ final, w.finish = .ok final →
    ∃ body trailer, written final = written w.out ++ (body ++ trailer) ∧ trailer.length = 8 ∧
      HasTrailer data trailer

variable [Encoder κ]

theorem Sums.describes (h : Sums data w) (happends : Appends written) : w.Describes written data :=
  ⟨h.size, fun _ hfinish => h.finish happends hfinish⟩

omit [Encoder κ] in
theorem startOn_sums {out : ω} {header : Header} {encoder : κ}
    (hstart : startOn out header encoder = .ok w) : Sums [] w := by
  rw [startOn] at hstart
  cases hbytes : header.toBytes with
  | error fault =>
      rw [hbytes] at hstart
      cases hstart
  | ok bytes =>
      rw [hbytes] at hstart
      obtain ⟨next, -, hstart⟩ := bind_settled_eq_ok hstart
      cases hstart
      exact ⟨(Crc32.update_empty _).symm, rfl⟩

-- Whatever the sink and the encoder do, size and trailer are those of all data that
-- was offered. So they are those of the data that was accepted just where no data
-- was refused.
theorem describes_accepted_iff (happends : Appends written) {out : ω} {header : Header}
    {encoder : κ} (hstart : startOn out header encoder = .ok w) (calls : List Call) :
    (w.performAll calls).Describes written (content calls) ∧
      ((w.performAll calls).Describes written (w.accepted calls) ↔ w.refused calls = []) := by
  have hsums := startOn_sums hstart
  have hall := (hsums.performAll calls).describes happends
  rw [List.nil_append] at hall
  refine ⟨hall, fun haccepted => ?_, fun hnone => ?_⟩
  · have hlength := length_accepted_add_refused w calls
    have hsame := haccepted.size.symm.trans hall.size
    exact List.length_eq_zero_iff.mp (by omega)
  · rw [accepted_of_refused hnone]
    exact hall

theorem describes_accepted_iff_flushed :
    let calls : List Call := [.write ⟨#[0x41]⟩, .flush, .write ⟨#[0x42]⟩]
    ∃ w, start Header.empty StoredBlocks.empty = .ok w ∧ w.refused calls = [] ∧
      (w.performAll calls).Describes (fun out => out.data.toList) [0x41, 0x42] := by
  intro calls
  let w : Writer StoredBlocks := ⟨⟨#[0x1f, 0x8b, 8, 0, 0, 0, 0, 0, 0, 0xff]⟩, StoredBlocks.empty,
    .empty, 0, ByteArray.empty⟩
  have hstart : start Header.empty StoredBlocks.empty = .ok w := rfl
  have hnone : w.refused calls = [] := by decide +kernel
  have hall : w.accepted calls = [0x41, 0x42] := by decide +kernel
  have haccepted := (describes_accepted_iff Sink.appends_memory hstart calls).2.mpr hnone
  rw [hall] at haccepted
  exact ⟨w, hstart, hnone, haccepted⟩

-- Data that a finished encoder refuses is counted all the same.
theorem not_describes_refused :
    let finished : StoredBlocks := (StoredBlocks.empty.encode ByteArray.empty .finish).2
    let calls : List Call := [.write ⟨#[0x61]⟩]
    ∃ w, start Header.empty finished = .ok w ∧ w.accepted calls = [] ∧
      (w.performAll calls).size = 1 ∧ (w.performAll calls).finish = .ok
        ⟨#[0x1f, 0x8b, 8, 0, 0, 0, 0, 0, 0, 0xff, 0x43, 0xbe, 0xb7, 0xe8, 1, 0, 0, 0]⟩ ∧
      ¬(w.performAll calls).Describes (fun out => out.data.toList) (w.accepted calls) := by
  intro finished calls
  let w : Writer StoredBlocks := ⟨⟨#[0x1f, 0x8b, 8, 0, 0, 0, 0, 0, 0, 0xff]⟩, finished, .empty, 0,
    ByteArray.empty⟩
  have hstart : start Header.empty finished = .ok w := rfl
  have haccepted : w.accepted calls = [] := by decide +kernel
  refine ⟨w, hstart, haccepted, by decide +kernel, by decide +kernel, fun hdescribes => ?_⟩
  rw [haccepted] at hdescribes
  exact absurd hdescribes.size (by decide +kernel)

end Unpack.Gzip.Writer
