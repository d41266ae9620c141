import Unpack.Proofs.Deflate.Fatal
import Unpack.Proofs.Deflate.Forward

namespace Unpack.Deflate.Decoder

open Bits (Reader)

variable {s : Decoder}

-- Everything that the calls feed, in order.
def supplies : List Call → List UInt8
  | [] => []
  | .feed data :: calls => data.data.toList ++ supplies calls
  | .read _ :: calls | .supplyDictionary _ :: calls => supplies calls

-- Everything that the calls hand out, in order. There is no answer once a read
-- has failed.
def returns (s : Decoder) : List Call → Option (List UInt8)
  | [] => some []
  | .read n :: calls =>
      match s.read n with
      | (.ok bytes, s) => (returns s calls).map (bytes.data.toList ++ ·)
      | (.error _, _) => none
  | .feed data :: calls => returns (s.feed data) calls
  | .supplyDictionary dictionary :: calls => returns (s.supplyDictionary dictionary).2 calls

-- What is left of the bytes in `fed` is what the decoder still has to read.
structure Received (s : Decoder) (fed : List UInt8) : Prop where
  supplied : s.supplied = fed.length
  bits : s.engine.input.bits = (Bits.ofBytes fed).drop s.engine.input.consumed
  total : s.engine.input.consumed + s.engine.input.bits.length = 8 * fed.length

theorem new_received (settings : Settings) : (new settings).Received [] :=
  ⟨rfl, rfl, rfl⟩

theorem Received.advances {fed : List UInt8} (h : s.Received fed) {next : Decoder}
    (hsupplied : next.supplied = s.supplied) (hinput : s.engine.input.Advances next.engine.input) :
    next.Received fed := by
  refine ⟨hsupplied.trans h.supplied, ?_, hinput.total.trans h.total⟩
  have hle := hinput.le
  rw [hinput.bits, h.bits, List.drop_drop]
  congr 1
  omega

theorem Received.feed {fed : List UInt8} (h : s.Received fed) (data : ByteArray) :
    (s.feed data).Received (fed ++ data.data.toList) := by
  have hsize := Reader.length_toList data
  have htotal := h.total
  have hbits : (s.feed data).engine.input.bits =
      s.engine.input.bits ++ Bits.ofBytes data.data.toList := Reader.bits_feed _ data
  have hconsumed : (s.feed data).engine.input.consumed = s.engine.input.consumed :=
    Reader.consumed_feed _ data
  refine ⟨?_, ?_, ?_⟩
  · show s.supplied + data.size = _
    rw [h.supplied, List.length_append, hsize]
  · rw [hbits, hconsumed, h.bits, Bits.ofBytes_append, List.drop_append_of_le_length]
    rw [Bits.length_ofBytes]
    omega
  · rw [hbits, hconsumed, List.length_append, List.length_append, Bits.length_ofBytes, hsize]
    omega

theorem Received.step {fed : List UInt8} (h : s.Received fed) : s.step.2.Received fed :=
  h.advances rfl (Engine.advances_step _ _ _)

theorem Received.read {fed : List UInt8} (h : s.Received fed) (n : Nat) :
    (s.read n).2.Received fed := by
  have hdrain : ∀ (s : Decoder) (n : Nat), s.Received fed → (s.drain n).2.Received fed :=
    fun s _ h => h.advances rfl (Reader.Advances.refl _)
  have hstep : ∀ s : Decoder, s.Received fed → s.engine.window.pending = 0 →
      s.step.2.Received fed ∧
        ∀ fault, s.step.1 = .error fault → fault.isFatal = true → s.step.2.Received fed :=
    fun _ h _ => ⟨h.step, fun _ _ _ => h.step⟩
  exact (run_rule (Q := fun s => s.Received fed) hdrain hstep h n s.rounds ByteArray.empty
    (Nat.zero_le n)).1

-- A dictionary may change the window and the phase, and nothing else.
theorem supplyDictionary_eq (s : Decoder) (dictionary : ByteArray) :
    ∃ phase w, (s.supplyDictionary dictionary).2 =
      ⟨s.settings, ⟨phase, s.engine.input, w, s.engine.last⟩, s.adler, s.supplied, s.produced⟩ := by
  rw [supplyDictionary]
  cases s.settings.format with
  | zlib =>
      dsimp only
      split
      · exact ⟨_, _, rfl⟩
      · split
        · split <;> exact ⟨_, _, rfl⟩
        · exact ⟨_, _, rfl⟩
  | raw =>
      dsimp only
      split
      · split
        · split <;> exact ⟨_, _, rfl⟩
        · exact ⟨_, _, rfl⟩
      · exact ⟨_, _, rfl⟩

theorem Received.supplyDictionary {fed : List UInt8} (h : s.Received fed) (dictionary : ByteArray) :
    (s.supplyDictionary dictionary).2.Received fed := by
  obtain ⟨phase, w, hnext⟩ := s.supplyDictionary_eq dictionary
  rw [hnext]
  exact h.advances rfl (.refl s.engine.input)

theorem Received.performAll {fed : List UInt8} (h : s.Received fed) (calls : List Call) :
    (s.performAll calls).Received (fed ++ supplies calls) := by
  induction calls generalizing s fed with
  | nil =>
      rw [supplies, List.append_nil]
      exact h
  | cons call calls ih =>
      cases call with
      | feed data =>
          rw [supplies, ← List.append_assoc]
          exact ih (h.feed data)
      | read n => exact ih (h.read n)
      | supplyDictionary dictionary => exact ih (h.supplyDictionary dictionary)

-- The bits that are not consumed tell how many bytes are, and which bytes are
-- left.
theorem Received.consumed_eq {fed : List UInt8} (h : s.Received fed) :
    s.consumed = (s.engine.input.consumed + 7) / 8 ∧ s.consumed + s.remaining = fed.length := by
  have hsupplied := h.supplied
  have htotal := h.total
  rw [Reader.length_bits] at htotal
  simp only [Decoder.consumed, remaining, Reader.availableBytes]
  omega

theorem Received.unread_eq {fed : List UInt8} (h : s.Received fed) :
    s.unread.size = s.remaining ∧
      s.unread.data.toList = fed.drop (fed.length - s.remaining) := by
  have hconsumed := h.consumed_eq
  have htotal := h.total
  have hunread : s.unread.data.toList = fed.drop (fed.length - s.remaining) := by
    rw [unread, ← Bits.toBytes_ofBytes s.engine.input.rest.data.toList, Reader.ofBytes_rest, h.bits,
      List.drop_drop, ← Bits.toBytes_ofBytes (fed.drop _), ← Bits.drop_ofBytes]
    congr 2
    rw [← h.bits]
    omega
  refine ⟨?_, hunread⟩
  rw [← Reader.length_toList, hunread, List.length_drop]
  omega

-- The bytes in `out` are all that the decoder has handed out.
structure Returned (format : Format) (s : Decoder) (out : List UInt8) : Prop where
  stream : s.settings.format = format
  produced : s.produced = out.length
  adler : format = .zlib → s.adler = out.foldl Adler32.addByte .empty

variable {format : Format} {out : List UInt8}

theorem new_returned (settings : Settings) : (new settings).Returned settings.format [] :=
  ⟨rfl, rfl, fun _ => rfl⟩

theorem Returned.drain (h : s.Returned format out) (n : Nat) :
    (s.drain n).2.Returned format (out ++ (s.drain n).1.data.toList) := by
  obtain ⟨hformat, hproduced, hadler⟩ := h
  obtain ⟨settings, ⟨phase, r, w, last⟩, adler, supplied, produced⟩ := s
  dsimp only at hformat hproduced hadler
  refine ⟨hformat, ?_, fun hzlib => ?_⟩
  · rw [List.length_append, ← hproduced]
    rfl
  · rw [List.foldl_append, ← hadler hzlib]
    rw [hzlib] at hformat
    simp only [Decoder.drain, hformat]
    refine Adler32.update_eq_foldl ?_ _
    rw [hadler hzlib]
    exact Adler32.reduced_foldl Adler32.reduced_empty out

theorem Returned.readRound {given : List UInt8} {partly : ByteArray}
    (h : s.Returned format (given ++ partly.data.toList)) (n : Nat) :
    (Decoder.readRound n (partly, s)).elim
      (fun t => t.2.Returned format (given ++ t.1.data.toList))
      (fun result => ∀ bytes, result.1 = .ok bytes →
        result.2.Returned format (given ++ bytes.data.toList)) := by
  have hdrained := h.drain (n - partly.size)
  rw [List.append_assoc, ← Array.toList_append, ← ByteArray.data_append] at hdrained
  rw [Decoder.readRound]
  generalize s.drain (n - partly.size) = drained at hdrained
  obtain ⟨new, s₁⟩ := drained
  dsimp only at hdrained ⊢
  split
  · rintro _ ⟨⟩
    exact hdrained
  · have hstepped : s₁.step.2.Returned format (given ++ (partly ++ new).data.toList) :=
      ⟨hdrained.stream, hdrained.produced, hdrained.adler⟩
    generalize s₁.step = result at hstepped
    obtain ⟨outcome, s₂⟩ := result
    cases outcome with
    | error fault => rintro _ ⟨⟩
    | ok moved =>
        dsimp only
        split
        · rintro _ ⟨⟩
          exact hstepped
        · exact hstepped

theorem Returned.run {given : List UInt8} {partly bytes : ByteArray} {last : Decoder} {n rounds : Nat}
    (h : s.Returned format (given ++ partly.data.toList))
    (hrun : run n rounds partly s = (.ok bytes, last)) :
    last.Returned format (given ++ bytes.data.toList) := by
  have hresult : ∀ bytes, (Decoder.run n rounds partly s).1 = .ok bytes →
      (Decoder.run n rounds partly s).2.Returned format (given ++ bytes.data.toList) := by
    refine Loop.run_rule
      (P := fun t : ByteArray × Decoder => t.2.Returned format (given ++ t.1.data.toList))
      (Q := fun result : Except Fault ByteArray × Decoder => ∀ bytes, result.1 = .ok bytes →
        result.2.Returned format (given ++ bytes.data.toList))
      (fun t ht => ht.readRound n) (fun t ht => ?_) rounds h
    rintro _ ⟨⟩
    exact ht
  rw [hrun] at hresult
  exact hresult bytes rfl

theorem Returned.performAll {given : List UInt8} (h : s.Returned format given) {calls : List Call}
    (hreturns : s.returns calls = some out) :
    (s.performAll calls).Returned format (given ++ out) := by
  induction calls generalizing s given out with
  | nil =>
      cases hreturns
      rw [List.append_nil]
      exact h
  | cons call calls ih =>
      cases call with
      | feed data => exact ih ⟨h.stream, h.produced, h.adler⟩ hreturns
      | read n =>
          have hread : ∀ {bytes last}, s.read n = (.ok bytes, last) →
              last.Returned format (given ++ bytes.data.toList) := by
            intro bytes last hresult
            have hstart : s.Returned format (given ++ ByteArray.empty.data.toList) :=
              (List.append_nil given).symm ▸ h
            exact hstart.run hresult
          rw [returns] at hreturns
          show ((s.read n).2.performAll calls).Returned format (given ++ out)
          generalize s.read n = result at hreturns hread
          obtain ⟨outcome, last⟩ := result
          cases outcome with
          | error fault => cases hreturns
          | ok bytes =>
              obtain ⟨rest, hrest, rfl⟩ := Option.map_eq_some_iff.mp hreturns
              rw [← List.append_assoc]
              exact ih (hread rfl) hrest
      | supplyDictionary dictionary =>
          obtain ⟨phase, w, hnext⟩ := s.supplyDictionary_eq dictionary
          have hafter : (s.supplyDictionary dictionary).2.Returned format given := by
            rw [hnext]
            exact ⟨h.stream, h.produced, h.adler⟩
          exact ih hafter hreturns

-- After any calls, the input consumed and the input left make up what was fed;
-- a byte counts as consumed as soon as one of its bits is. As long as no read
-- has failed, the output is counted and a zlib checksum covers it.
theorem accounting_exact (settings : Settings) (calls : List Call) :
    let s := (new settings).performAll calls
    let fed := supplies calls
    s.engine.input.bits = (Bits.ofBytes fed).drop s.engine.input.consumed ∧
      s.consumed = (s.engine.input.consumed + 7) / 8 ∧
      s.consumed + s.remaining = fed.length ∧
      s.unread.size = s.remaining ∧
      s.unread.data.toList = fed.drop (fed.length - s.remaining) ∧
      ∀ out, (new settings).returns calls = some out →
        s.produced = out.length ∧
          (settings.format = .zlib → s.adler.value = Adler32.of ⟨out.toArray⟩) := by
  intro s fed
  have hreceived : s.Received fed := (new_received settings).performAll calls
  obtain ⟨hconsumed, hremaining⟩ := hreceived.consumed_eq
  obtain ⟨hsize, hunread⟩ := hreceived.unread_eq
  refine ⟨hreceived.bits, hconsumed, hremaining, hsize, hunread, fun out hreturns => ?_⟩
  have hreturned : s.Returned settings.format out := (new_returned settings).performAll hreturns
  refine ⟨hreturned.produced, fun hzlib => ?_⟩
  rw [hreturned.adler hzlib, Adler32.of, Adler32.update_eq_foldl Adler32.reduced_empty]

-- The checksum follows the block in the input, and a byte that is not part of
-- the stream follows the checksum.
theorem accounting_exact_stored :
    let calls : List Call := [.feed ⟨#[0x78, 0x01, 0x01, 0x01, 0x00, 0xfe]⟩, .read 5,
      .feed ⟨#[0xff, 0x41, 0x00, 0x42, 0x00, 0x42, 0x99]⟩, .read 1, .read 7]
    (new .zlib).returns calls = some [0x41] ∧ ((new .zlib).performAll calls).produced = 1 ∧
      ((new .zlib).performAll calls).adler.value = Adler32.of ⟨#[0x41]⟩ ∧
      ((new .zlib).performAll calls).unread.data.toList = [0x99] := by
  intro calls
  have hreturns : (new .zlib).returns calls = some [0x41] := by decide +kernel
  have hremaining : ((new .zlib).performAll calls).remaining = 1 := by decide +kernel
  obtain ⟨-, -, -, -, hunread, houtput⟩ := accounting_exact .zlib calls
  obtain ⟨hproduced, hadler⟩ := houtput _ hreturns
  refine ⟨hreturns, hproduced, hadler rfl, ?_⟩
  rw [hunread, hremaining]
  rfl

end Unpack.Deflate.Decoder
