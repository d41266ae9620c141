import Unpack.Gzip.Writer
import Unpack.Proofs.Deflate.ReliableStream
import Unpack.Proofs.Deflate.StoredBlocks
import Unpack.Proofs.Gzip.Codec
import Unpack.Proofs.Gzip.Member
import Unpack.Proofs.Source.Collect

namespace Unpack.Gzip

open Deflate (StoredBlocks)
open Deflate.Reference (blocksToEnd ending inflate)
open Deflate.StoredBlocks (Chunk Covers covers_nil ready_empty)
open Source (Reliable Hands answer gathered)

namespace Writer

-- What is asked of a writer before it ends the member.
inductive Call where
  | write (data : ByteArray)
  | flush

def Call.data : Call → ByteArray
  | .write data => data
  | .flush => ByteArray.empty

def content (calls : List Call) : List UInt8 :=
  calls.flatMap fun call => call.data.data.toList

def perform {κ ω : Type} [Encoder κ] [Sink ω] (w : Writer κ ω) :
    Call → Except Fault Unit × Writer κ ω
  | .write data => w.write data
  | .flush => w.flush

-- The calls in turn and then the end, unless one of them fails.
def session {κ : Type} [Encoder κ] : List Call → Writer κ → Except Fault ByteArray
  | [], w => w.finish
  | call :: calls, w =>
      match w.perform call with
      | (.error fault, _) => .error fault
      | (.ok (), w) => session calls w

-- A whole member of stored blocks, call by call.
def member (header : Header) (calls : List Call) : Except Fault ByteArray := do
  let w ← start header StoredBlocks.empty
  session calls w

-- Checksum and size are those of all that was written.
structure Sums {κ ω : Type} (written : List UInt8) (w : Writer κ ω) : Prop where
  crc : w.crc = Crc32.empty.update ⟨written.toArray⟩
  size : w.size = written.length

section Sums

variable {κ ω : Type} {written : List UInt8} {w : Writer κ ω}

theorem Sums.write (h : Sums written w) (data : ByteArray) :
    Sums (written ++ data.data.toList)
      { w with crc := w.crc.update data, size := w.size + data.size } := by
  refine ⟨?_, ?_⟩
  · rw [h.crc]
    simp only [Crc32.update_eq_foldl, List.foldl_append]
  · rw [h.size, List.length_append, Bits.Reader.length_toList]

theorem Sums.hasTrailer (h : Sums written w) :
    HasTrailer written (Bytes.digits 4 w.crc.value.toNat ++ Bytes.digits 4 w.size) := by
  have hfirst : (Bytes.digits 4 w.crc.value.toNat ++ Bytes.digits 4 w.size).take 4 =
      Bytes.digits 4 w.crc.value.toNat := List.take_left' (Bytes.length_digits _ _)
  have hsecond : ((Bytes.digits 4 w.crc.value.toNat ++ Bytes.digits 4 w.size).drop 4).take 4 =
      Bytes.digits 4 w.size := by
    rw [List.drop_left' (Bytes.length_digits _ _),
      List.take_of_length_le (Nat.le_of_eq (Bytes.length_digits _ _))]
  refine ⟨?_, ?_, ?_⟩
  · rw [List.length_append, Bytes.length_digits, Bytes.length_digits]
    exact Nat.le_refl 8
  · rw [hfirst, Bytes.littleEndian_digits, h.crc]
    exact Nat.mod_eq_of_lt (Crc32.of ⟨written.toArray⟩).toNat_lt
  · rw [hsecond, Bytes.littleEndian_digits, h.size]
    rfl

end Sums

variable {front written : List UInt8} {w : Writer StoredBlocks}

-- Behind the front, the bytes so far bring all that was written and is not
-- held back.
structure Carries (front written : List UInt8) (w : Writer StoredBlocks) : Prop where
  ready : w.encoder.Ready
  covers : ∃ emitted body, w.out.data.toList = front ++ emitted ∧
    Covers emitted body (blocksToEnd .raw) ∧ written = body ++ w.encoder.pending.data.toList
  delivered : w.pending = ByteArray.empty

-- Memory takes at once what the encoder gives.
theorem push_eq (hdelivered : w.pending = ByteArray.empty) {data bytes : ByteArray} {mode : Flush}
    {e' : StoredBlocks} (hencode : Encoder.encode w.encoder data mode = (.ok bytes, e')) :
    push data mode w = (.ok (), { w with out := w.out ++ bytes, encoder := e' }) := by
  obtain ⟨out, encoder, crc, size, pending⟩ := w
  obtain rfl : pending = ByteArray.empty := hdelivered
  dsimp only at hencode ⊢
  rw [push, hencode]
  dsimp only
  rw [ByteArray.empty_append, deliver]
  by_cases hnone : bytes.size = 0
  · rw [if_pos hnone, ByteArray.size_eq_zero_iff.mp hnone, ByteArray.append_empty]
  · rw [if_neg hnone]
    rfl

theorem Carries.push (h : Carries front written w) (chunk : Chunk) :
    ∃ w', push chunk.data chunk.mode w = (.ok (), w') ∧
      Carries front (written ++ chunk.data.data.toList) w' ∧ w'.crc = w.crc ∧ w'.size = w.size := by
  obtain ⟨hready, ⟨emitted, body, hout, hcovers, rfl⟩, hdelivered⟩ := h
  obtain ⟨bytes, e', hencode, hnext, moreBody, hmore, hbody⟩ := hready.encode_chunk chunk
  refine ⟨_, push_eq hdelivered hencode, ⟨hnext, ⟨_, _, ?_, hcovers.append hmore, ?_⟩, hdelivered⟩,
    rfl, rfl⟩
  · rw [ByteArray.data_append, Array.toList_append, hout, List.append_assoc]
  · rw [List.append_assoc, hbody, List.append_assoc]

theorem Carries.perform (h : Carries front written w) (hsums : Sums written w) (call : Call) :
    ∃ w', w.perform call = (.ok (), w') ∧ Carries front (written ++ call.data.data.toList) w' ∧
      Sums (written ++ call.data.data.toList) w' := by
  cases call with
  | write data =>
      have hcounted : Carries front written
          { w with crc := w.crc.update data, size := w.size + data.size } :=
        ⟨h.ready, h.covers, h.delivered⟩
      obtain ⟨w', hpush, hcarries, hcrc, hsize⟩ := hcounted.push ⟨data, false⟩
      have hnext := hsums.write data
      exact ⟨w', hpush, hcarries, hcrc.trans hnext.crc, hsize.trans hnext.size⟩
  | flush =>
      obtain ⟨w', hpush, hcarries, hcrc, hsize⟩ := h.push ⟨ByteArray.empty, true⟩
      have hcall : w.perform .flush = (.ok (), w') := by
        have hsync : Writer.push ByteArray.empty .sync w = (.ok (), w') := hpush
        rw [Writer.perform, Writer.flush, hsync]
        rfl
      have hsame : written ++ Call.flush.data.data.toList = written := List.append_nil written
      rw [hsame]
      exact ⟨w', hcall, hsame ▸ hcarries, hcrc.trans hsums.crc, hsize.trans hsums.size⟩

-- The bytes of a member behind its header: a whole stream and its trailer.
def Completes (front written : List UInt8) (member : ByteArray) : Prop :=
  ∃ whole trailer, member.data.toList = front ++ (whole ++ trailer) ∧
    inflate [] (Bits.ofBytes whole) = some (written, []) ∧ HasTrailer written trailer

theorem Carries.finish (h : Carries front written w) (hsums : Sums written w) :
    ∃ member, w.finish = .ok member ∧ Completes front written member := by
  obtain ⟨hready, ⟨emitted, body, hout, hcovers, rfl⟩, hdelivered⟩ := h
  have hencodes := hready.encode ByteArray.empty .finish
  have hcall : Encoder.encode w.encoder ByteArray.empty .finish =
      w.encoder.encode ByteArray.empty .finish := rfl
  generalize w.encoder.encode ByteArray.empty .finish = result at hencodes hcall
  cases hencodes with
  | finish last e' hlast hnone hfinished =>
      have hall := (hcovers.append hlast).inflate
      have hpending : w.encoder.pending.data.toList ++ ByteArray.empty.data.toList =
          w.encoder.pending.data.toList := List.append_nil _
      rw [hpending] at hall
      have hfinish : w.finish = .ok (w.out ++ last ++
          Bytes.putLe ByteArray.empty 4 w.crc.value.toNat ++
          Bytes.putLe ByteArray.empty 4 w.size) := by
        rw [Writer.finish, push_eq hdelivered hcall]
        rfl
      have hnil : ByteArray.empty.data.toList = [] := rfl
      refine ⟨_, hfinish, _, _, ?_, hall, hsums.hasTrailer⟩
      simp only [Bytes.toList_putLe, ByteArray.data_append, Array.toList_append, hout, hnil,
        List.nil_append, List.append_assoc]

theorem Carries.session (h : Carries front written w) (hsums : Sums written w) (calls : List Call) :
    ∃ member, session calls w = .ok member ∧ Completes front (written ++ content calls) member := by
  induction calls generalizing w written with
  | nil =>
      have hsame : written ++ content [] = written := List.append_nil written
      rw [hsame]
      exact h.finish hsums
  | cons call calls ih =>
      obtain ⟨w', hcall, hcarries, hnext⟩ := h.perform hsums call
      obtain ⟨member, hsession, hcompletes⟩ := ih hcarries hnext
      refine ⟨member, ?_, ?_⟩
      · rw [Writer.session, hcall]
        exact hsession
      · rw [List.append_assoc] at hcompletes
        exact hcompletes

theorem member_completes {header : Header} {front : ByteArray} (hfront : header.toBytes = .ok front)
    (calls : List Call) :
    ∃ bytes, member header calls = .ok bytes ∧
      Completes front.data.toList (content calls) bytes := by
  have hcarries : Carries front.data.toList []
      ⟨front, StoredBlocks.empty, .empty, 0, ByteArray.empty⟩ :=
    ⟨ready_empty, ⟨[], [], (List.append_nil _).symm, covers_nil, rfl⟩, rfl⟩
  obtain ⟨bytes, hsession, hcompletes⟩ :=
    hcarries.session ⟨(Crc32.update_eq_foldl .empty ⟨#[]⟩).symm, rfl⟩ calls
  refine ⟨bytes, ?_, hcompletes⟩
  have hstart : start header StoredBlocks.empty =
      .ok ⟨ByteArray.empty ++ front, StoredBlocks.empty, .empty, 0, ByteArray.empty⟩ := by
    rw [start, startOn, hfront]
    rfl
  rw [ByteArray.empty_append] at hstart
  rw [member, hstart]
  exact hsession

end Writer

namespace Member

variable {σ : Type} [Source σ] {valid : σ → Prop} {rest : σ → List UInt8}
  {whole out tail owed : List UInt8} {m : Member σ}

-- What is not handed out yet, while the stream comes or once it is checked.
inductive Owes (valid : σ → Prop) (rest : σ → List UInt8) (whole out tail : List UInt8) :
    List UInt8 → Member σ → Prop where
  | streaming (handed owed : List UInt8) (m : Member σ) (hsplit : handed ++ owed = out)
      (hstream : m.stream.Holds valid rest (whole ++ tail) handed) (hsums : Sums handed m) :
      Owes valid rest whole out tail owed m
  | checked (m : Member σ) (hverified : m.verified = true) : Owes valid rest whole out tail [] m

-- On a reliable source nothing but the right trailer ends the check.
theorem Awaits.verify_reliable {leftover : List UInt8} (h : Awaits valid out leftover m)
    (hreliable : Reliable valid rest) (hright : HasTrailer out (leftover ++ rest m.stream.source)) :
    ∃ m' : Member σ, m.verify = (.ok ByteArray.empty, m') ∧ m'.verified = true := by
  have hattempt := h.verify hreliable.steady
  generalize m.verify = result at hattempt
  cases hattempt with
  | right m' hfound hverified => exact ⟨m', rfl, hverified⟩
  | wrong fault m' hwrong hformat hawaits hrest => exact absurd hright hwrong
  | broken fault m' taken hsplit hfew hawaits hless hbreaks =>
      exact absurd hbreaks (hreliable.unbroken _)

theorem hands (hreliable : Reliable valid rest)
    (hinflate : inflate [] (Bits.ofBytes whole) = some (out, [])) (htrailer : HasTrailer out tail) :
    Hands (Owes valid rest whole out tail) := by
  intro owed m n howes hn
  cases howes with
  | streaming handed owed m hsplit hstream hsums =>
      obtain ⟨bytes, r', hread, hfits, hholds, hprefix, hfinished⟩ :=
        hstream.read_reliable hreliable hinflate hn
      rw [read_eq hsums.unverified hn, hread]
      by_cases hnone : bytes.size = 0
      · have hempty : bytes = ByteArray.empty := ByteArray.size_eq_zero_iff.mp hnone
        have hsame : handed ++ ByteArray.empty.data.toList = handed := List.append_nil handed
        rw [hempty, hsame] at hholds
        obtain ⟨hall, hintact⟩ := hholds.finished_eq hinflate (hfinished hnone)
        have howed : owed = [] := List.append_right_eq_self.mp (hsplit.trans hall.symm)
        obtain ⟨fed, history, q, hstands⟩ := hholds
        have hawaits : Awaits valid out r'.decoder.unread.data.toList { m with stream := r' } :=
          ⟨hstands.valid, hfinished hnone, rfl, hall ▸ hsums.crc, hall ▸ hsums.size,
            hsums.unverified⟩
        obtain ⟨m', hverify, hverified⟩ :=
          hawaits.verify_reliable hreliable (hintact.symm ▸ htrailer)
        refine ⟨ByteArray.empty, [], m', ?_, howed, .checked m' hverified, Nat.zero_le _,
          fun _ => howed⟩
        dsimp only
        rw [if_pos hnone, hverify]
      · obtain ⟨later, hlater⟩ := hprefix
        rw [List.append_assoc] at hlater
        refine ⟨bytes, later, _, ?_, List.append_cancel_left (hsplit.trans hlater.symm),
          .streaming _ later _ ?_ hholds (hsums.update bytes r'), hfits, fun h => absurd h hnone⟩
        · dsimp only
          rw [if_neg hnone]
        · rw [List.append_assoc]
          exact hlater
  | checked m hverified =>
      exact ⟨ByteArray.empty, [], m, read_of_verified hverified, rfl, .checked m hverified,
        Nat.zero_le _, fun _ => rfl⟩

-- A member is opened behind its header.
theorem ofSource_ok (out : List UInt8) (hreliable : Reliable valid rest) {header : Header}
    (hnul : header.NulFree) {front : ByteArray} (hfront : header.toBytes = .ok front)
    {source : σ} (hvalid : valid source)
    (hrest : rest source = front.data.toList ++ (whole ++ tail)) :
    ∃ covered m next, ofSource source = (.ok m, next) ∧ m.header = header.recorded covered ∧
      Owes valid rest whole out tail out m := by
  obtain ⟨extra, hextra, rfl⟩ := Header.toBytes_eq_ok_iff.mp hfront
  obtain ⟨next, hread, hnext, hbehind⟩ :=
    (Header.readAll_frames hreliable hnul.delimited hextra).takes source _ hvalid hrest
  have hstream : (Deflate.DecodedStream.new next .raw).Holds valid rest (whole ++ tail) [] := by
    rw [← hbehind]
    exact Deflate.DecodedStream.new_holds hnext _
  refine ⟨header.coveredBytes extra,
    ⟨header.recorded _, .new next .raw, .empty, 0, false⟩, next, ?_, rfl,
    .streaming [] out _ rfl hstream ⟨(Crc32.update_eq_foldl .empty ⟨#[]⟩).symm, rfl, rfl⟩⟩
  rw [ofSource, Header.read, hread]

-- Whatever was written, in whatever pieces and with whatever flushes in between,
-- is read back up to the end of the member, with the fixed fields of its header.
-- It does not matter how the source cuts up the bytes, what follows the member
-- and how many bytes the reads ask for.
theorem read_written {header : Header} (hnul : header.NulFree) {front : ByteArray}
    (hfront : header.toBytes = .ok front) (calls : List Writer.Call) :
    ∃ member, Writer.member header calls = .ok member ∧
      ∀ {σ : Type} [Source σ] {valid : σ → Prop} {rest : σ → List UInt8} (source : σ)
        (tail : List UInt8), Reliable valid rest → valid source →
        rest source = member.data.toList ++ tail →
        ∃ m next, ofSource source = (.ok m, next) ∧
          m.header.flags = header.flags &&& 0x1F ∧ m.header.mtime = header.mtime ∧
          m.header.extraFlags = header.extraFlags ∧ m.header.os = header.os ∧
          ∀ sizes : Nat → Nat, (∀ call, 0 < sizes call) →
            (∀ call, ∃ bytes, answer sizes m call = .ok bytes) ∧
            ∃ last, gathered sizes m last = Writer.content calls ∧
              ∀ call, answer sizes m call = .ok ByteArray.empty ↔ last ≤ call := by
  obtain ⟨member, hmember, whole, trailer, hsplit, hinflate, htrailer⟩ :=
    Writer.member_completes hfront calls
  refine ⟨member, hmember, ?_⟩
  intro σ _ valid rest source tail hreliable hvalid hrest
  rw [hsplit, List.append_assoc, List.append_assoc] at hrest
  have hright := (hasTrailer_append htrailer.length tail).mpr htrailer
  obtain ⟨covered, m, next, hopen, hheader, howes⟩ :=
    ofSource_ok (Writer.content calls) hreliable hnul hfront hvalid hrest
  have hmask : ~~~Header.reserved = 0x1F := by decide
  refine ⟨m, next, hopen, ?_, ?_, ?_, ?_, fun sizes hsizes => ?_⟩
  · rw [hheader, ← hmask]
    rfl
  · rw [hheader]
    rfl
  · rw [hheader]
    rfl
  · rw [hheader]
    rfl
  · exact (hands hreliable hinflate hright).run hsizes howes

theorem read_written_named :
    let script : Script := ⟨[.chunk ⟨#[0x1f, 0x8b, 8, 8, 0, 0]⟩ 0, .interruption,
      .chunk ⟨#[0, 0, 0, 0xff, 0x61, 0, 0, 1, 0, 0xfe, 0xff, 0x41, 1, 1, 0, 0xfe, 0xff, 0x42, 7]⟩ 0,
      .interruption, .chunk ⟨#[0x4c, 0x69, 0x30, 2, 0, 0, 0, 0x1f, 0x8b]⟩ 0]⟩
    ∃ m next, ofSource script = (.ok m, next) ∧ m.header.flags = 8 ∧
      ∃ last, gathered (fun _ => 1) m last = [0x41, 0x42] ∧
        ∀ call, answer (fun _ => 1) m call = .ok ByteArray.empty ↔ last ≤ call := by
  intro script
  let header : Header := Header.named "a"
  let calls : List Writer.Call := [.write ⟨#[0x41]⟩, .flush, .write ⟨#[0x42]⟩]
  have hnul : header.NulFree := by
    refine ⟨fun text htext => ?_, fun text htext => by cases htext⟩
    cases htext
    decide
  have hfront : header.toBytes = .ok ⟨#[0x1f, 0x8b, 8, 8, 0, 0, 0, 0, 0, 0xff, 0x61, 0]⟩ := by
    decide +kernel
  have hbytes : Writer.member header calls = .ok ⟨#[0x1f, 0x8b, 8, 8, 0, 0, 0, 0, 0, 0xff, 0x61, 0,
      0, 1, 0, 0xfe, 0xff, 0x41, 1, 1, 0, 0xfe, 0xff, 0x42, 7, 0x4c, 0x69, 0x30, 2, 0, 0, 0]⟩ := by
    decide +kernel
  have hscript : script.FailsAt fun _ => False := by decide
  obtain ⟨member, hmember, hreads⟩ := read_written hnul hfront calls
  cases hbytes.symm.trans hmember
  obtain ⟨m, next, hopen, hflags, -, -, -, hruns⟩ :=
    hreads script [0x1f, 0x8b] Script.reliable hscript rfl
  have hname : Header.Part.filename.flag &&& 0x1F = 8 := by decide
  exact ⟨m, next, hopen, hflags.trans hname, (hruns _ fun _ => Nat.one_pos).2⟩

end Member

end Unpack.Gzip
