import Unpack.Deflate.StoredBlocks
import Unpack.Proofs.Bits.Writer
import Unpack.Proofs.Bytes.Fields
import Unpack.Proofs.Deflate.DecodedStream

namespace Unpack.Deflate.StoredBlocks

open Bits (Writer)
open Reference
open Decoder (Piece)

-- A stored block from a byte boundary on: the three bits of its head and
-- padding, its length and the complement of that, and its bytes.
def block (final : Bool) (payload : List UInt8) : List UInt8 :=
  final.toNat.toUInt8 :: (Bytes.digits 2 payload.length ++
    (Bytes.digits 2 (maxBlock - payload.length) ++ payload))

theorem length_block (final : Bool) (payload : List UInt8) :
    (block final payload).length = 5 + payload.length := by
  simp only [block, List.length_cons, List.length_append, Bytes.length_digits]
  omega

-- What is left to do behind a block.
def behind (final : Bool) : Decoding Unit :=
  if final then ending .raw else blocksToEnd .raw

-- The bytes that are left, behind some history.
def ahead (bytes : List UInt8) (consumed : Nat) (history : List UInt8) (preset : Nat) : State :=
  ⟨Bits.ofBytes bytes, consumed, history, preset⟩

variable {rest : List UInt8} {consumed preset : Nat} {history : List UInt8}

theorem leads_front (front back : List Bool) :
    Leads (number front.length) ⟨front ++ back, consumed, history, preset⟩
      (pure (Bits.value front)) ⟨back, consumed + front.length, history, preset⟩ := by
  have hnumber := leads_number front.length ⟨front ++ back, consumed, history, preset⟩ (by
    rw [List.length_append]
    exact Nat.le_add_right _ _)
  simpa only [State.skip, List.take_left, List.drop_left] using hnumber

theorem leads_digits (width value : Nat) :
    Leads (number (8 * width)) (ahead (Bytes.digits width value ++ rest) consumed history preset)
      (pure (value % 256 ^ width)) (ahead rest (consumed + 8 * width) history preset) := by
  have hnumber : Leads _ ⟨_, consumed, history, preset⟩ _ _ :=
    leads_front (Bits.ofBytes (Bytes.digits width value)) (Bits.ofBytes rest)
  rw [Bits.length_ofBytes, Bytes.length_digits, Bytes.value_ofBytes, Bytes.littleEndian_digits,
    ← Bits.ofBytes_append] at hnumber
  exact hnumber

-- The head of a stored block and the rest of its byte.
theorem leads_head (final : Bool) :
    Leads (blocksToEnd .raw) (ahead (final.toNat.toUInt8 :: rest) consumed history preset)
      (do storedLength; behind final) (ahead rest (consumed + 8) history preset) := by
  have hbits : Bits.ofBytes (final.toNat.toUInt8 :: rest) =
      [final, false, false] ++ ([false, false, false, false, false] ++ Bits.ofBytes rest) := by
    have hbyte : Bits.ofByte final.toNat.toUInt8 =
        [final, false, false] ++ [false, false, false, false, false] := by
      cases final <;> decide
    rw [Bits.ofBytes_cons, hbyte, List.append_assoc]
  have hhead : Leads (number 3) (ahead (final.toNat.toUInt8 :: rest) consumed history preset)
      (pure final.toNat)
      ⟨[false, false, false, false, false] ++ Bits.ofBytes rest, consumed + 3, history, preset⟩ := by
    have hvalue : Bits.value [final, false, false] = final.toNat := by
      cases final <;> rfl
    have hnumber : Leads _ ⟨_, consumed, history, preset⟩ _ _ :=
      leads_front [final, false, false] ([false, false, false, false, false] ++ Bits.ofBytes rest)
    rw [hvalue, ← hbits] at hnumber
    exact hnumber
  have halign : Leads align
      ⟨[false, false, false, false, false] ++ Bits.ofBytes rest, consumed + 3, history, preset⟩
      (pure ()) (ahead rest (consumed + 8) history preset) := by
    have hskip := leads_align
      ⟨[false, false, false, false, false] ++ Bits.ofBytes rest, consumed + 3, history, preset⟩
    have hfive : ([false, false, false, false, false] ++ Bits.ofBytes rest).length % 8 = 5 := by
      rw [List.length_append, Bits.length_ofBytes]
      exact Nat.add_mul_mod_self_left 5 8 _
    rwa [State.skip, hfive] at hskip
  have hstored : content (final.toNat / 2) = align >>= fun () => storedLength := by
    cases final <;> rfl
  have hlast : (if final.toNat % 2 = 1 then ending .raw else blocksToEnd .raw) = behind final := by
    cases final <;> rfl
  rw [blocksToEnd_eq_number]
  refine (hhead.bind_pure _).trans ?_
  rw [hstored, hlast, bind_assoc]
  exact halign.bind_pure _

-- Behind a stream so far, `emitted` brings `body` and leaves the rest to `next`.
def Covers (emitted body : List UInt8) (next : Decoding Unit) : Prop :=
  ∀ rest consumed history preset,
    Leads (blocksToEnd .raw) (ahead (emitted ++ rest) consumed history preset) next
      (ahead rest (consumed + 8 * emitted.length) (history ++ body) preset)

-- A stored block adds its bytes to the output, and decoding goes on behind it.
theorem covers_block (final : Bool) {payload : List UInt8} (hfits : payload.length ≤ maxBlock) :
    Covers (block final payload) payload (behind final) := by
  intro rest consumed history preset
  have hmax : maxBlock = 65535 := rfl
  have hlength : payload.length % 256 ^ 2 = payload.length := Nat.mod_eq_of_lt (by omega)
  have hcomplement : (maxBlock - payload.length) % 256 ^ 2 = maxBlock - payload.length :=
    Nat.mod_eq_of_lt (by omega)
  have hsum : payload.length + (maxBlock - payload.length) = 0xFFFF := by omega
  have hconsumed : consumed + 8 * (block final payload).length =
      consumed + 8 + 8 * 2 + 8 * 2 + 8 * payload.length := by
    rw [length_block]
    omega
  have hstored : Leads storedLength
      (ahead (Bytes.digits 2 payload.length ++
        (Bytes.digits 2 (maxBlock - payload.length) ++ (payload ++ rest)))
        (consumed + 8) history preset)
      (pure ()) (ahead rest (consumed + 8 + 8 * 2 + 8 * 2 + 8 * payload.length)
        (history ++ payload) preset) := by
    have hfirst : Leads (number (8 * 2)) (ahead (Bytes.digits 2 payload.length ++
        (Bytes.digits 2 (maxBlock - payload.length) ++ (payload ++ rest)))
        (consumed + 8) history preset) _ _ := leads_digits 2 payload.length
    have hsecond : Leads (number (8 * 2)) (ahead
        (Bytes.digits 2 (maxBlock - payload.length) ++ (payload ++ rest))
        (consumed + 8 + 8 * 2) history preset) _ _ := leads_digits 2 (maxBlock - payload.length)
    have hbytes := leads_bytes payload (Bits.ofBytes rest) 0
      (ahead (payload ++ rest) (consumed + 8 + 8 * 2 + 8 * 2) history preset)
      (Bits.ofBytes_append payload rest)
    rw [hlength] at hfirst
    rw [hcomplement] at hsecond
    have hchecked := hsecond.bind_pure fun complement =>
      if payload.length + complement = 0xFFFF then bytes payload.length
      else corrupted (.storedLength payload.length complement)
    rw [if_pos hsum] at hchecked
    exact (hfirst.bind_pure storedComplement).trans (hchecked.trans hbytes)
  rw [hconsumed, block, List.cons_append, List.append_assoc, List.append_assoc]
  exact (leads_head final).trans (hstored.bind_pure _)

theorem covers_nil : Covers [] [] (blocksToEnd .raw) := by
  intro rest consumed history preset
  rw [List.nil_append, List.append_nil]
  exact Leads.refl _ _

theorem Covers.append {emitted body more moreBody : List UInt8} {next : Decoding Unit}
    (h : Covers emitted body (blocksToEnd .raw)) (hmore : Covers more moreBody next) :
    Covers (emitted ++ more) (body ++ moreBody) next := by
  intro rest consumed history preset
  rw [List.length_append, Nat.mul_add, ← Nat.add_assoc, ← List.append_assoc history,
    List.append_assoc emitted]
  exact (h _ _ _ _).trans (hmore _ _ _ _)

-- All there is, on its own.
theorem Covers.eq {emitted body : List UInt8} {next : Decoding Unit}
    (h : Covers emitted body next) :
    blocksToEnd .raw (.start [] (Bits.ofBytes emitted)) =
      next (ahead [] (8 * emitted.length) body 0) := by
  have hall := (h [] 0 [] 0).eq
  rwa [List.append_nil, List.nil_append, Nat.zero_add] at hall

-- A stream that is ended is a whole one.
theorem Covers.inflate {emitted body : List UInt8} (h : Covers emitted body (ending .raw)) :
    inflate [] (Bits.ofBytes emitted) = some (body, []) :=
  inflate_eq_some_iff.mpr ⟨_, h.eq, rfl, rfl⟩

-- A stream that is not ended starves when all its bytes came out.
theorem Covers.verdict {emitted body : List UInt8} (h : Covers emitted body (blocksToEnd .raw)) :
    Decoder.verdict (stream .raw (.start [] (Bits.ofBytes emitted))) =
      .ok ⟨body, false, none, body.length, []⟩ := by
  have hstream : stream .raw = blocksToEnd .raw := rfl
  have hstarves : blocksToEnd .raw (ahead [] (8 * emitted.length) body 0) =
      .error .starved (ahead [] (8 * emitted.length) body 0) := by
    rw [blocksToEnd_eq_number]
    exact (starves_number 3 (ahead [] (8 * emitted.length) body 0) (Nat.succ_pos 2)).bind _
  rw [hstream, h.eq, hstarves]
  simp [Decoder.verdict, Decoder.verdict.ending, State.output, ahead, Bits.toBytes]

-- The writer stands at a byte boundary, and all its bytes were taken but some.
def Holds (bytes : List UInt8) (w : Writer) : Prop :=
  w.Shows (Bits.ofBytes bytes)

theorem Holds.putHead {written : List UInt8} {w : Writer} (h : Holds written w) (final : Bool) :
    Holds (written ++ [final.toNat.toUInt8]) ((w.put final.toNat 1).put 0 2).align := by
  have hfirst := Writer.Shows.put h final.toNat (show 1 ≤ 32 by decide)
  have hhead := (hfirst.put 0 (show 2 ≤ 32 by decide)).align
  have hlength : (Bits.ofBytes written ++ Bits.lowBits final.toNat 1 ++
      Bits.lowBits 0 2).length % 8 = 3 := by
    simp only [List.length_append, Bits.length_ofBytes, Bits.length_lowBits]
    omega
  have hbyte : Bits.ofByte final.toNat.toUInt8 =
      Bits.lowBits final.toNat 1 ++ (Bits.lowBits 0 2 ++ List.replicate 5 false) := by
    cases final <;> decide
  rw [Bits.padding, hlength, List.append_assoc, List.append_assoc] at hhead
  rw [Holds, Bits.ofBytes_append, Bits.ofBytes_singleton, hbyte]
  exact hhead

theorem Holds.putBytes {written : List UInt8} {w : Writer} (h : Holds written w.align)
    (data : ByteArray) : Holds (written ++ data.data.toList) (w.putBytes data) :=
  Writer.shows_putBytes h data

theorem Holds.align {written : List UInt8} {w : Writer} (h : Holds written w) :
    Holds written w.align := by
  have haligned := Writer.Shows.align h
  rwa [Bits.padding_of_whole (Bits.length_ofBytes_mod written), List.append_nil] at haligned

-- A block is written as it is laid out.
theorem Holds.putBlock {written : List UInt8} {e : StoredBlocks} (h : Holds written e.writer)
    {length : Nat} (hlength : length ≤ e.pending.size) (final : Bool) :
    Holds (written ++ block final (e.pending.data.toList.take length))
      (e.putBlock length final).writer := by
  have hpayload : (e.pending.data.toList.take length).length = length := by
    rw [List.length_take, Bits.Reader.length_toList, Nat.min_eq_left hlength]
  have hheader : (Bytes.putLe (Bytes.putLe ByteArray.empty 2 length) 2
      (maxBlock - length)).data.toList =
        Bytes.digits 2 length ++ Bytes.digits 2 (maxBlock - length) := by
    rw [Bytes.toList_putLe, Bytes.toList_putLe]
    rfl
  have hwritten := ((h.putHead final).putBytes
    (Bytes.putLe (Bytes.putLe ByteArray.empty 2 length) 2 (maxBlock - length))).align.putBytes
    (e.pending.extract 0 length)
  rw [hheader, Bytes.toList_extract, List.drop_zero, Nat.sub_zero] at hwritten
  rw [block, hpayload]
  simp only [List.append_assoc, List.singleton_append] at hwritten
  exact hwritten

-- What an encoder still holds back when `emitted` brings `body`.
structure Splits (e : StoredBlocks) (emitted body : List UInt8) (e' : StoredBlocks) : Prop where
  covers : Covers emitted body (blocksToEnd .raw)
  writer : ∀ written, Holds written e.writer → Holds (written ++ emitted) e'.writer
  pending : e.pending.data.toList = body ++ e'.pending.data.toList
  finished : e'.finished = e.finished

theorem toList_drop (bytes : ByteArray) (n : Nat) :
    (bytes.extract n bytes.size).data.toList = bytes.data.toList.drop n := by
  rw [Bytes.toList_extract, List.take_of_length_le]
  rw [List.length_drop, Bits.Reader.length_toList]

theorem putBlock_splits {e : StoredBlocks} {length : Nat} (hlength : length ≤ e.pending.size)
    (hfits : length ≤ maxBlock) :
    Splits e (block false (e.pending.data.toList.take length)) (e.pending.data.toList.take length)
      (e.putBlock length false) where
  covers := covers_block false (Nat.le_trans (List.length_take_le _ _) hfits)
  writer _ h := h.putBlock hlength false
  pending := by
    show _ = _ ++ (e.pending.extract length e.pending.size).data.toList
    rw [toList_drop, List.take_append_drop]
  finished := rfl

theorem putFullBlocks_succ (count : Nat) (e : StoredBlocks) :
    putFullBlocks (count + 1) e = putFullBlocks count (e.putBlock maxBlock false) := by
  -- As calls of one function, the sides would be compared argument by argument.
  delta putFullBlocks
  rfl

-- Full blocks go out as long as there are enough bytes for them.
theorem putFullBlocks_splits (count : Nat) {e : StoredBlocks}
    (hcount : count * maxBlock ≤ e.pending.size) :
    ∃ emitted body, Splits e emitted body (putFullBlocks count e) ∧
      body.length = count * maxBlock := by
  induction count generalizing e with
  | zero =>
      refine ⟨[], [], ⟨covers_nil, fun written h => ?_, rfl, rfl⟩, (Nat.zero_mul _).symm⟩
      rwa [List.append_nil]
  | succ count ih =>
      rw [Nat.succ_mul] at hcount ⊢
      have hfirst := putBlock_splits (show maxBlock ≤ e.pending.size by omega) (Nat.le_refl _)
      have hpending := congrArg List.length hfirst.pending
      simp only [List.length_append, List.length_take, Bits.Reader.length_toList] at hpending
      obtain ⟨emitted, body, hrest, hbody⟩ := ih (e := e.putBlock maxBlock false) (by omega)
      rw [putFullBlocks_succ]
      refine ⟨_, _, ⟨hfirst.covers.append hrest.covers, fun written h => ?_, ?_,
        hrest.finished.trans hfirst.finished⟩, ?_⟩
      · rw [← List.append_assoc]
        exact hrest.writer _ (hfirst.writer written h)
      · rw [List.append_assoc, ← hrest.pending]
        exact hfirst.pending
      · rw [List.length_append, List.length_take, Bits.Reader.length_toList, hbody]
        omega

-- All bytes written were taken, and no more is held back than a block takes.
structure Ready (e : StoredBlocks) : Prop where
  writer : Holds [] e.writer
  pending : e.pending.size ≤ maxBlock
  unfinished : e.finished = false

theorem ready_empty : empty.Ready := ⟨Writer.shows_empty, Nat.zero_le _, rfl⟩

-- Enough blocks go out for the rest to fit into one.
theorem fullBlocks_splits (e : StoredBlocks) :
    ∃ emitted body, Splits e emitted body (putFullBlocks e.fullBlocks e) ∧
      (putFullBlocks e.fullBlocks e).pending.size ≤ maxBlock := by
  have hmax : maxBlock = 65535 := rfl
  have hdivides := Nat.div_mul_le_self (e.pending.size - 1) maxBlock
  have hmod := Nat.div_add_mod' (e.pending.size - 1) maxBlock
  have hless := Nat.mod_lt (e.pending.size - 1) (show 0 < maxBlock by rw [hmax]; decide)
  have hcount : e.fullBlocks * maxBlock ≤ e.pending.size := Nat.le_trans hdivides (Nat.sub_le _ _)
  obtain ⟨emitted, body, hsplits, hbody⟩ := putFullBlocks_splits e.fullBlocks hcount
  refine ⟨emitted, body, hsplits, ?_⟩
  have hlength := congrArg List.length hsplits.pending
  rw [List.length_append, Bits.Reader.length_toList, Bits.Reader.length_toList, hbody] at hlength
  rw [fullBlocks] at hlength ⊢
  omega

-- What a call comes to while the stream is not ended. What it emits brings the
-- bytes that it does not hold back.
inductive Encodes (e : StoredBlocks) (data : ByteArray) :
    Flush → Except Fault ByteArray × StoredBlocks → Prop where
  | keep (out : ByteArray) (e' : StoredBlocks) (body : List UInt8) (hready : e'.Ready)
      (hcovers : Covers out.data.toList body (blocksToEnd .raw))
      (hbody : e.pending.data.toList ++ data.data.toList = body ++ e'.pending.data.toList) :
      Encodes e data .keep (.ok out, e')
  | sync (out : ByteArray) (e' : StoredBlocks) (hready : e'.Ready)
      (hcovers : Covers out.data.toList (e.pending.data.toList ++ data.data.toList)
        (blocksToEnd .raw))
      (hnone : e'.pending.size = 0) :
      Encodes e data .sync (.ok out, e')
  | finish (out : ByteArray) (e' : StoredBlocks)
      (hcovers : Covers out.data.toList (e.pending.data.toList ++ data.data.toList) (ending .raw))
      (hnone : e'.pending.size = 0) (hfinished : e'.finished = true) :
      Encodes e data .finish (.ok out, e')

-- A flush writes all that is pending as one block.
theorem putBlock_all {written : List UInt8} {e : StoredBlocks} (h : Holds written e.writer)
    (hfits : e.pending.size ≤ maxBlock) (final : Bool) :
    Holds (written ++ block final e.pending.data.toList)
        (e.putBlock e.pending.size final).writer ∧
      (e.putBlock e.pending.size final).pending.size = 0 ∧
      Covers (block final e.pending.data.toList) e.pending.data.toList (behind final) := by
  have hall : e.pending.data.toList.take e.pending.size = e.pending.data.toList :=
    List.take_of_length_le (Nat.le_refl _)
  have hblock := h.putBlock (Nat.le_refl _) final
  rw [hall] at hblock
  refine ⟨hblock, ?_, covers_block final hfits⟩
  show (e.pending.extract e.pending.size e.pending.size).size = 0
  rw [ByteArray.size_extract, Nat.min_self, Nat.sub_self]

theorem Holds.take {written : List UInt8} {w : Writer} (h : Holds written w) :
    w.take.1.data.toList = written ∧ Holds [] w.take.2 := by
  have hwhole := Bits.length_ofBytes_mod written
  obtain ⟨hbits, hbuffer⟩ := Writer.Shows.eq_ofBytes h hwhole
  have hheld := (Writer.Shows.held_eq h).trans hwhole
  exact ⟨(Bits.ofBytes_injective hbits).symm, Writer.shows_ofBytes rfl hbuffer hheld⟩

theorem Ready.encode {e : StoredBlocks} (h : e.Ready) (data : ByteArray) (mode : Flush) :
    Encodes e data mode (e.encode data mode) := by
  have hopen : ¬e.finished = true := by simp [h.unfinished]
  obtain ⟨emitted, body, hsplits, hfits⟩ :=
    fullBlocks_splits { e with pending := e.pending ++ data }
  have hwriter := hsplits.writer [] h.writer
  have hpending := hsplits.pending
  have hfinished := hsplits.finished.trans h.unfinished
  rw [ByteArray.data_append, Array.toList_append] at hpending
  have hcovers := hsplits.covers
  rw [StoredBlocks.encode, if_neg hopen]
  dsimp only
  generalize putFullBlocks _ _ = e₁ at *
  cases mode with
  | keep =>
      obtain ⟨hout, htaken⟩ := hwriter.take
      rw [List.nil_append] at hout
      exact .keep _ _ body ⟨htaken, hfits, hfinished⟩ (hout ▸ hcovers) hpending
  | sync =>
      obtain ⟨hblock, hnone, hlast⟩ := putBlock_all hwriter hfits false
      obtain ⟨hout, htaken⟩ := hblock.take
      rw [List.nil_append] at hout
      refine .sync _ _ ⟨htaken, ?_, hfinished⟩ ?_ hnone
      · exact (Nat.le_of_eq hnone).trans (Nat.zero_le _)
      · rw [hpending, StoredBlocks.flush, hout]
        exact hcovers.append hlast
  | finish =>
      obtain ⟨hblock, hnone, hlast⟩ := putBlock_all hwriter hfits true
      obtain ⟨hout, htaken⟩ := hblock.take
      rw [List.nil_append] at hout
      refine .finish _ _ ?_ hnone rfl
      rw [hpending, StoredBlocks.flush, hout]
      exact hcovers.append hlast

-- Data for an encoder that stays open, and whether all of it goes out at once.
structure Chunk where
  data : ByteArray
  synced : Bool

def Chunk.mode (chunk : Chunk) : Flush :=
  if chunk.synced then .sync else .keep

def joined (chunks : List Chunk) : List UInt8 :=
  chunks.flatMap fun chunk => chunk.data.data.toList

-- All that comes out for some chunks, up to the first call that fails.
def session : List Chunk → StoredBlocks → Except Fault ByteArray × StoredBlocks
  | [], e => (.ok ByteArray.empty, e)
  | chunk :: chunks, e =>
      match e.encode chunk.data chunk.mode with
      | (.error fault, e) => (.error fault, e)
      | (.ok out, e) =>
          match session chunks e with
          | (.error fault, e) => (.error fault, e)
          | (.ok more, e) => (.ok (out ++ more), e)

-- What a session emitted brings the data that it does not hold back.
structure Conveys (e : StoredBlocks) (data : List UInt8) (out : ByteArray) (e' : StoredBlocks) :
    Prop where
  ready : e'.Ready
  covers : ∃ body, Covers out.data.toList body (blocksToEnd .raw) ∧
    e.pending.data.toList ++ data = body ++ e'.pending.data.toList

theorem Ready.encode_chunk {e : StoredBlocks} (h : e.Ready) (chunk : Chunk) :
    ∃ out e', e.encode chunk.data chunk.mode = (.ok out, e') ∧
      Conveys e chunk.data.data.toList out e' := by
  have hencodes := h.encode chunk.data chunk.mode
  generalize e.encode chunk.data chunk.mode = result at hencodes ⊢
  generalize hmode : chunk.mode = mode at hencodes
  cases hencodes with
  | keep out e' body hready hcovers hbody => exact ⟨out, e', rfl, hready, body, hcovers, hbody⟩
  | sync out e' hready hcovers hnone =>
      have hnil : e'.pending.data.toList = [] := List.eq_nil_of_length_eq_zero hnone
      exact ⟨out, e', rfl, hready, _, hcovers, by rw [hnil, List.append_nil]⟩
  | finish out e' hcovers hnone hfinished =>
      rw [Chunk.mode] at hmode
      split at hmode <;> cases hmode

theorem Ready.session {e : StoredBlocks} (h : e.Ready) (chunks : List Chunk) :
    ∃ out e', session chunks e = (.ok out, e') ∧ Conveys e (joined chunks) out e' := by
  induction chunks generalizing e with
  | nil =>
      refine ⟨_, e, rfl, h, [], covers_nil, ?_⟩
      exact List.append_nil _
  | cons chunk chunks ih =>
      obtain ⟨out, e₁, hcall, hready, body, hcovers, hbody⟩ := h.encode_chunk chunk
      obtain ⟨more, e', hrest, hready', moreBody, hmore, hmoreBody⟩ := ih hready
      refine ⟨out ++ more, e', ?_, hready', body ++ moreBody, ?_, ?_⟩
      · rw [StoredBlocks.session, hcall]
        dsimp only
        rw [hrest]
      · rw [ByteArray.data_append, Array.toList_append]
        exact hcovers.append hmore
      · rw [joined, List.flatMap_cons, ← List.append_assoc, hbody, List.append_assoc]
        rw [joined] at hmoreBody
        rw [hmoreBody, List.append_assoc]

-- A finished encoder takes nothing more and stays as it is.
def refusal : Fault := .io ⟨.other, "stored stream already finished"⟩

theorem encode_of_finished {e : StoredBlocks} (h : e.finished = true) (data : ByteArray)
    (mode : Flush) :
    e.encode data mode = (if data.size = 0 then .ok ByteArray.empty else .error refusal, e) := by
  rw [StoredBlocks.encode, if_pos h]
  split <;> rfl

-- The encoder after some calls, whatever they answered.
def afterCalls (calls : List (ByteArray × Flush)) (e : StoredBlocks) : StoredBlocks :=
  calls.foldl (fun e call => (e.encode call.1 call.2).2) e

theorem afterCalls_of_finished {e : StoredBlocks} (h : e.finished = true)
    (calls : List (ByteArray × Flush)) : afterCalls calls e = e := by
  induction calls with
  | nil => rfl
  | cons call calls ih =>
      rw [afterCalls, List.foldl_cons, encode_of_finished h]
      exact ih

-- Whatever chunks come, none is refused and no more than a block is held back.
-- With one more chunk that is handed out at once, a decoder gets all data so far
-- and waits for more. With a last chunk the stream is a whole one with all the
-- data, and from then on the encoder refuses data and stays as it is until reset.
theorem session_inverse (chunks : List Chunk) :
    ∃ out e, session chunks empty = (.ok out, e) ∧ e.pending.size ≤ maxBlock ∧
      (∀ data, ∃ last e', e.encode data .sync = (.ok last, e') ∧
        ∀ pieces : List Piece, (∀ piece ∈ pieces, ∀ i, 0 < piece.sizes i) →
          Piece.joined pieces = (out ++ last).data.toList → ∃ enough, ∀ calls, enough ≤ calls →
            (Decoder.session calls pieces [] .raw).map Decoder.summary =
              some (.ok ⟨joined chunks ++ data.data.toList, false, none,
                (joined chunks ++ data.data.toList).length, []⟩)) ∧
      ∀ data, ∃ last e', e.encode data .finish = (.ok last, e') ∧
        DecodesWhole (out ++ last) ⟨(joined chunks ++ data.data.toList).toArray⟩ ∧
        e'.finished = true ∧ e'.pending.size = 0 ∧ Encoder.reset e' = empty ∧
        ∀ calls data mode, data.size ≠ 0 →
          (afterCalls calls e').encode data mode = (.error refusal, e') := by
  obtain ⟨out, e, hsession, hready, body, hcovers, hbody⟩ := ready_empty.session chunks
  have hempty : empty.pending.data.toList = [] := rfl
  rw [hempty, List.nil_append] at hbody
  refine ⟨out, e, hsession, hready.pending, fun data => ?_, fun data => ?_⟩
  · have hencodes := hready.encode data .sync
    generalize e.encode data .sync = result at hencodes ⊢
    cases hencodes with
    | sync last e' hready' hlast hnone =>
        refine ⟨last, e', rfl, fun pieces hsizes hpieces => ?_⟩
        have hall := hcovers.append hlast
        rw [← List.append_assoc, ← hbody, ← Array.toList_append, ← ByteArray.data_append,
          ← hpieces] at hall
        have hfresh : Leads (stream Settings.raw.format) (.start [] (Bits.ofBytes []))
            (stream Settings.raw.format) ((Decoder.new .raw).seen 0 []) := Leads.refl _ _
        have hverdict := Decoder.session_verdict hsizes
          ⟨Decoder.new_stands .raw, rfl, Decoder.new_halted .raw⟩ hfresh
        have hformat : Settings.raw.format = .raw := rfl
        rw [List.nil_append, hformat, hall.verdict] at hverdict
        exact hverdict
  · have hencodes := hready.encode data .finish
    generalize e.encode data .finish = result at hencodes ⊢
    cases hencodes with
    | finish last e' hlast hnone hfinished =>
        have hall := hcovers.append hlast
        rw [← List.append_assoc, ← hbody, ← Array.toList_append, ← ByteArray.data_append] at hall
        refine ⟨last, e', rfl, (decodesWhole_iff _ _).mpr hall.inflate, hfinished, hnone, rfl,
          fun calls data mode hsome => ?_⟩
        rw [afterCalls_of_finished hfinished, encode_of_finished hfinished, if_neg hsome]

theorem session_inverse_synced :
    let chunks : List Chunk := [⟨⟨#[0x41]⟩, false⟩, ⟨ByteArray.empty, true⟩, ⟨⟨#[0x42]⟩, false⟩]
    ∃ out e last e', session chunks empty = (.ok out, e) ∧ e.encode ⟨#[0x43]⟩ .sync = (.ok last, e') ∧
      ∃ enough, ∀ calls, enough ≤ calls →
        (Decoder.session calls [⟨out ++ last, fun _ => 1⟩] [] .raw).map Decoder.summary =
          some (.ok ⟨[0x41, 0x42, 0x43], false, none, 3, []⟩) := by
  intro chunks
  obtain ⟨out, e, hsession, -, hsync, -⟩ := session_inverse chunks
  obtain ⟨last, e', hcall, hdecodes⟩ := hsync ⟨#[0x43]⟩
  refine ⟨out, e, last, e', hsession, hcall, hdecodes _ (fun piece hpiece i => ?_) ?_⟩
  · rw [List.mem_singleton.mp hpiece]
    exact Nat.one_pos
  · rw [Piece.joined, List.flatMap_singleton]

end Unpack.Deflate.StoredBlocks
