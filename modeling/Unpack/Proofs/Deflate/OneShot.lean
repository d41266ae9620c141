import Unpack.Proofs.Deflate.Sessions

namespace Unpack.Deflate.Decoder

open Bits (Reader)
open Engine (Halted)
open Reference

variable {s : Decoder} {preset : Nat} {history : List UInt8} {q : Decoding Unit}

theorem feed_empty_stands (h : s.Stands preset history q) :
    (s.feed ByteArray.empty).Stands preset history q ∧
      (s.feed ByteArray.empty).seen preset history = s.seen preset history := by
  refine ⟨h.feed _, ?_⟩
  rw [seen_feed]
  exact State.feed_nil _

-- What decoding everything at once comes to, `reading` what.
def outcome (reading : String) : EStateM.Result Stop State Unit → Except Fault (List UInt8)
  | .ok () t => .ok t.output
  | .error (.fault fault) _ => .error fault
  | .error (.awaits id) _ => .error (.dictionaryRequired id)
  | .error .starved _ => .error (.unexpectedEnd reading)

-- A halt that is neither the end nor a wait for a dictionary.
theorem starves_of_halted (h : s.engine.window.pending = 0 ∧ Halted q (s.seen preset history)
    s.engine.phase) (hfinished : s.isFinished = false) (hawaited : s.awaitedDictionary = none) :
    q (s.seen preset history) = .error .starved (s.seen preset history) := by
  obtain ⟨hempty, hhalted⟩ := h
  generalize hphase : s.engine.phase = phase at hhalted
  cases hhalted with
  | finished => simp [isFinished, hphase, hempty] at hfinished
  | awaiting id => simp [awaitedDictionary, hphase] at hawaited
  | starved phase hstarves => exact hstarves

-- What one call comes to when no more input follows.
inductive Chunk (s : Decoder) (preset : Nat) (history : List UInt8) (q : Decoding Unit) :
    Except Fault ByteArray × Decoder → Prop where
  | failed (fault : Fault) (s' : Decoder) (t : State)
      (hfails : q (s.seen preset history) = .error (.fault fault) t) :
      Chunk s preset history q (.error fault, s')
  | ended (bytes : ByteArray) (s' : Decoder) (t : State) (hfinished : s'.isFinished = true)
      (hends : q (s.seen preset history) = .ok () t)
      (houtput : t.output = s.given preset history ++ bytes.data.toList)
      (hunread : s'.unread.data.toList = Bits.toBytes (t.bits.drop (t.bits.length % 8))) :
      Chunk s preset history q (.ok bytes, s')
  | awaiting (bytes : ByteArray) (s' : Decoder) (longer : List UInt8) (id : UInt32)
      (hfinished : s'.isFinished = false) (hawaited : s'.awaitedDictionary = some id)
      (hstands : s'.Stands preset longer (dictionary 0 id))
      (hstops : q (s.seen preset history) = .error (.awaits id) (s'.seen preset longer))
      (hgiven : s'.given preset longer = s.given preset history ++ bytes.data.toList)
      (hsettings : s'.settings = s.settings) (hcapacity : s'.capacity + bytes.size ≤ s.capacity) :
      Chunk s preset history q (.ok bytes, s')
  | more (bytes : ByteArray) (s' : Decoder) (longer : List UInt8) (q' : Decoding Unit)
      (hfinished : s'.isFinished = false) (hawaited : s'.awaitedDictionary = none)
      (hstands : s'.Stands preset longer q')
      (hsame : q (s.seen preset history) = q' (s'.seen preset longer))
      (hgiven : s'.given preset longer = s.given preset history ++ bytes.data.toList)
      (hsettings : s'.settings = s.settings) (hcapacity : s'.capacity + bytes.size ≤ s.capacity)
      (hdry : bytes.size = 0 → q' (s'.seen preset longer) = .error .starved (s'.seen preset longer)) :
      Chunk s preset history q (.ok bytes, s')

theorem Stands.chunk (h : s.Stands preset history q) {n : Nat} (hn : 0 < n) :
    Chunk s preset history q (s.read n) := by
  have hread := h.read n
  generalize s.read n = result at hread
  cases hread with
  | failed fault s' t hleads => exact .failed fault s' t hleads.eq
  | returned new bytes s' longer q' hstands hleads hfollows hsettings hbytes hgiven hend =>
      have hnew : new = bytes.data.toList := hbytes.symm
      have hcapacity := h.capacity_le hstands hfollows hgiven
      rw [hnew] at hgiven hcapacity
      rw [Reader.length_toList] at hcapacity
      have hresidual := hstands.engine.residual
      cases hfinished : s'.isFinished with
      | true =>
          obtain ⟨hphase, hempty⟩ := phase_of_isFinished hfinished
          rw [hphase] at hresidual
          refine .ended bytes s' (s'.seen preset longer) hfinished ?_ ?_ (unread_eq s' preset longer)
          · rw [hleads.eq, residual_finished hresidual]
            rfl
          · rw [← (hstands.given_output hempty).1, hgiven]
      | false =>
          cases hawaited : s'.awaitedDictionary with
          | some id =>
              rw [phase_of_awaitedDictionary hawaited] at hresidual
              have hq := residual_dictionary hresidual
              subst hq
              exact .awaiting bytes s' longer id hfinished hawaited hstands hleads.eq hgiven
                hsettings hcapacity
          | none =>
              refine .more bytes s' longer q' hfinished hawaited hstands hleads.eq hgiven hsettings
                hcapacity fun hnone => ?_
              exact starves_of_halted (hend.resolve_left (by omega)) hfinished hawaited

-- Decoding all there is comes to what the reference decoder comes to, and
-- leaves what that leaves.
inductive Decoded (s : Decoder) (preset : Nat) (history : List UInt8) (q : Decoding Unit) :
    Except Fault ByteArray × Decoder → Prop where
  | failed (fault : Fault) (s' : Decoder)
      (hfails : outcome "compressed stream" (q (s.seen preset history)) = .error fault) :
      Decoded s preset history q (.error fault, s')
  | ended (out : ByteArray) (s' : Decoder) (t : State)
      (hends : q (s.seen preset history) = .ok () t) (hout : out.data.toList = t.output)
      (hunread : s'.unread.data.toList = Bits.toBytes (t.bits.drop (t.bits.length % 8))) :
      Decoded s preset history q (.ok out, s')

theorem Decoded.of_eq {s₁ : Decoder} {longer : List UInt8} {q₁ : Decoding Unit}
    {result : Except Fault ByteArray × Decoder} (h : Decoded s₁ preset longer q₁ result)
    (hsame : q (s.seen preset history) = q₁ (s₁.seen preset longer)) :
    Decoded s preset history q result := by
  cases h with
  | failed fault s' hfails => exact .failed fault s' (hsame ▸ hfails)
  | ended out s' t hends hout hunread => exact .ended out s' t (hsame.trans hends) hout hunread

theorem capacity_feed_empty (s : Decoder) : (s.feed ByteArray.empty).capacity = s.capacity := by
  have hbits := congrArg List.length (s.engine.input.bits_feed ByteArray.empty)
  rw [List.length_append, Reader.length_bits, Reader.length_bits, Bits.length_ofBytes,
    Reader.length_toList, ByteArray.size_empty, Nat.mul_zero, Nat.add_zero] at hbits
  have havailable : (s.feed ByteArray.empty).capacity =
      s.engine.window.pending + 258 * (s.engine.input.feed ByteArray.empty).available := rfl
  rw [havailable, hbits, capacity]

-- The same stream further on, and all that was handed out of it.
inductive Onward (s : Decoder) (preset : Nat) (history : List UInt8) (q : Decoding Unit) :
    ByteArray × Decoder → Prop where
  | onward (out : ByteArray) (s' : Decoder) (longer : List UInt8) (q' : Decoding Unit)
      (hstands : s'.Stands preset longer q')
      (hsame : q (s.seen preset history) = q' (s'.seen preset longer))
      (hout : out.data.toList = s'.given preset longer) : Onward s preset history q (out, s')

-- A round that goes on takes from the capacity.
theorem Stands.decodeRound (h : s.Stands preset history q) {out : ByteArray}
    (hout : out.data.toList = s.given preset history) :
    (decodeRound (out, s)).elim
      (fun t => Onward s preset history q t ∧ t.2.capacity < s.capacity)
      (Decoded s preset history q) := by
  obtain ⟨hstands, hseen⟩ := feed_empty_stands h
  have hgiven : (s.feed ByteArray.empty).given preset history = s.given preset history := rfl
  have hcapacity := capacity_feed_empty s
  have hchunk := hstands.chunk (show 0 < pieceSize by decide)
  have htotal : ∀ bytes : ByteArray,
      (out ++ bytes).data.toList = s.given preset history ++ bytes.data.toList := by
    intro bytes
    rw [ByteArray.data_append, Array.toList_append, hout]
  rw [Decoder.decodeRound, Decoder.decode]
  generalize (s.feed ByteArray.empty).read pieceSize = result at hchunk
  cases hchunk with
  | failed fault s' t hfails =>
      refine .failed fault s' ?_
      rw [← hseen, hfails]
      rfl
  | ended bytes s' t hfinished hends houtput hunread =>
      simp only [hfinished, if_true]
      exact .ended _ s' t (hseen ▸ hends) ((htotal bytes).trans houtput.symm) hunread
  | awaiting bytes s' longer id hfinished hawaited hstands' hstops hgiven' hsettings hless =>
      simp only [hfinished, Bool.false_eq_true, if_false, hawaited]
      refine .failed _ s' ?_
      rw [← hseen, hstops]
      rfl
  | more bytes s' longer q' hfinished hawaited hstands' hsame hgiven' hsettings hless hdry =>
      rw [hseen] at hsame
      have hrest : Sum.elim (fun t => Onward s preset history q t ∧ t.2.capacity < s.capacity)
          (Decoded s preset history q)
          (if bytes.size = 0 then .inr (.error (.unexpectedEnd "compressed stream"), s')
            else .inl (out ++ bytes, s')) := by
        by_cases hnone : bytes.size = 0
        · rw [if_pos hnone]
          refine .failed _ s' ?_
          rw [hsame, hdry hnone]
          rfl
        · rw [if_neg hnone]
          exact ⟨.onward _ s' longer q' hstands' hsame ((htotal bytes).trans hgiven'.symm),
            show s'.capacity < s.capacity by omega⟩
      simp only [hfinished, Bool.false_eq_true, if_false, hawaited]
      by_cases hfull : bytes.size = pieceSize ∧ pieceSize ≠ 0
      · simpa only [if_pos hfull] using hrest
      · simpa only [if_neg hfull] using hrest

theorem Stands.decodeRest (h : s.Stands preset history q) (rounds : Nat) (out : ByteArray)
    (hrounds : s.capacity < rounds) (hout : out.data.toList = s.given preset history) :
    Decoded s preset history q (decodeRest rounds out s) := by
  refine Loop.run_rule_of_measure (P := Onward s preset history q)
    (fun t : ByteArray × Decoder => t.2.capacity + 1) (fun t ht => ?_)
    (fun t _ hnone => absurd hnone (Nat.succ_ne_zero _)) hrounds (.onward out s history q h rfl hout)
  obtain ⟨bytes, s₁, longer, q₁, hstands, hsame, hbytes⟩ := ht
  have hround := hstands.decodeRound hbytes
  generalize Decoder.decodeRound (bytes, s₁) = result at hround
  cases result with
  | inl t =>
      obtain ⟨⟨all, s₂, longest, q₂, hstands', hnext, hall⟩, hless⟩ := hround
      exact ⟨.onward all s₂ longest q₂ hstands' (hsame.trans hnext) hall, Nat.succ_lt_succ hless⟩
  | inr result => exact hround.of_eq hsame

-- A decoder that handed out nothing yet decodes all there is.
theorem Stands.decodeAll (h : s.Stands preset history q) (hproduced : s.produced = 0)
    (data : ByteArray) : Decoded (s.feed data) preset history q (s.decodeAll data) := by
  refine (h.feed data).decodeRest _ _ (by omega) ?_
  have hnothing : (s.feed data).produced = 0 := hproduced
  rw [given, hnothing]
  rfl

-- What `decodeAll` answers, as lists.
theorem Decoded.outcome_eq {result : Except Fault ByteArray × Decoder}
    (h : Decoded s preset history q result) :
    result.1.map (·.data.toList) = outcome "compressed stream" (q (s.seen preset history)) := by
  cases h with
  | failed fault s' hfails => exact hfails.symm
  | ended out s' t hends hout hunread =>
      rw [hends]
      exact congrArg Except.ok hout

theorem outcome_eq_ok_iff {reading : String} {result : EStateM.Result Stop State Unit}
    {out : List UInt8} :
    outcome reading result = .ok out ↔ ∃ t, result = .ok () t ∧ t.output = out := by
  cases result with
  | ok a t => simp [outcome]
  | error stop t => cases stop <;> simp [outcome]

theorem outcome_eq_overflow_iff {reading : String} {p : Decoding Unit} {s : State} :
    outcome reading (p s) = .error .overflow ↔ Overflows p s := by
  rw [Overflows]
  cases p s with
  | ok a t => simp [outcome]
  | error stop t => cases stop <;> simp [outcome]

theorem map_toList_eq_error_iff {answer : Except Fault ByteArray} {fault : Fault} :
    answer.map (·.data.toList) = .error fault ↔ answer = .error fault := by
  cases answer <;> simp [Except.map]

theorem map_toList_eq_ok_iff {answer : Except Fault ByteArray} {out : ByteArray} :
    answer.map (·.data.toList) = .ok out.data.toList ↔ answer = .ok out := by
  cases answer with
  | error fault => simp [Except.map]
  | ok bytes => simp [Except.map, ByteArray.ext_iff, Array.ext_iff]

theorem Decoded.ok_iff {result : Except Fault ByteArray × Decoder}
    (h : Decoded s preset history q result) (out : ByteArray) :
    result.1 = .ok out ↔
      ∃ t, q (s.seen preset history) = .ok () t ∧ t.output = out.data.toList := by
  rw [← map_toList_eq_ok_iff, h.outcome_eq, outcome_eq_ok_iff]

theorem Decoded.overflow_iff {result : Except Fault ByteArray × Decoder}
    (h : Decoded s preset history q result) :
    result.1 = .error .overflow ↔ Overflows q (s.seen preset history) := by
  rw [← map_toList_eq_error_iff, h.outcome_eq, outcome_eq_overflow_iff]

theorem decodeAll_new_overflow_iff (settings : Settings) (data : ByteArray) :
    ((new settings).decodeAll data).1 = .error .overflow ↔
      settings.format.Crosses data.data.toList := by
  have hseen : ((new settings).feed data).seen 0 [] = .start [] (Bits.ofBytes data.data.toList) :=
    seen_feed _ _ _ _
  rw [((new_stands settings).decodeAll rfl data).overflow_iff, hseen]
  exact overflows_stream_iff _ _

-- A raw decoder takes any dictionary as long as nothing is decoded, and then
-- has the whole stream to do behind that dictionary.
theorem supplyDictionary_raw (early dictionary : ByteArray) :
    ∃ s, (raw.feed early).supplyDictionary dictionary = (.ok (), s) ∧
      s.Stands dictionary.size dictionary.data.toList (blocksToEnd .raw) ∧ s.produced = 0 ∧
      s.seen dictionary.size dictionary.data.toList =
        .start dictionary.data.toList (Bits.ofBytes early.data.toList) := by
  obtain ⟨w, hpreset, hpending⟩ : ∃ w, Window.empty.preset dictionary = (.ok (), w) ∧ w.pending = 0 :=
    ⟨_, if_pos rfl, rfl⟩
  have hshows := (Window.preset_shows Window.shows_empty dictionary).2
  rw [hpreset] at hshows
  have hconsumed : (raw.feed early).engine.input.consumed = 0 := Reader.consumed_feed _ _
  have hbits := Reader.bits_feed .empty early
  refine ⟨{ raw.feed early with engine := { (raw.feed early).engine with window := w } },
    ?_, ⟨⟨.block, hshows.self, ?_⟩, fun hzlib => ?_⟩, rfl, ?_⟩
  · have hraw : (raw.feed early).settings.format = .raw := rfl
    have hphase : (raw.feed early).engine.phase = .block := rfl
    have hwindow : (raw.feed early).engine.window = .empty := rfl
    simp only [supplyDictionary, hraw, hphase, if_pos hconsumed, hwindow, hpreset]
  · show dictionary.data.toList.length = dictionary.size + 0 + w.pending
    rw [hpending, Reader.length_toList, Nat.add_zero]
  · cases hzlib
  · show State.at _ _ ((Reader.empty).feed early) = _
    rw [State.at, hbits, Reader.consumed_feed]
    rfl

end Unpack.Deflate.Decoder

namespace Unpack.Deflate

-- Some front of the data is a whole raw stream behind a preset dictionary.
def Inflates (preset data out : List UInt8) : Prop :=
  ∃ front, front <+: data ∧ Reference.inflate preset (Bits.ofBytes front) = some (out, [])

section Raw

variable {s : Decoder} {dictionary early : List UInt8}
  (h : s.Stands dictionary.length dictionary (Reference.blocksToEnd .raw)) (hproduced : s.produced = 0)
  (hseen : s.seen dictionary.length dictionary = .start dictionary (Bits.ofBytes early))
  (data : ByteArray)

include hseen in
theorem seen_feed_raw : (s.feed data).seen dictionary.length dictionary =
    .start dictionary (Bits.ofBytes (early ++ data.data.toList)) := by
  rw [Decoder.seen_feed, hseen, Bits.ofBytes_append]
  rfl

include h hproduced hseen

theorem decodeAll_ok_iff (out : ByteArray) :
    (s.decodeAll data).1 = .ok out ↔
      Inflates dictionary (early ++ data.data.toList) out.data.toList := by
  rw [(h.decodeAll hproduced data).ok_iff, seen_feed_raw hseen, Inflates,
    ← Reference.inflate_ofBytes_iff]
  simp only [Reference.inflate_eq_some_iff]
  constructor
  · rintro ⟨t, ht, hout⟩
    exact ⟨_, t, ht, hout, rfl⟩
  · rintro ⟨_, t, ht, hout, _⟩
    exact ⟨t, ht, hout⟩

theorem decodeAll_overflow_iff :
    (s.decodeAll data).1 = .error .overflow ↔ Crosses dictionary (early ++ data.data.toList) := by
  rw [(h.decodeAll hproduced data).overflow_iff, seen_feed_raw hseen]
  exact overflows_iff_crosses .raw _ _ 0

end Raw

theorem decode_ok_iff (data out : ByteArray) :
    decode data = .ok out ↔ Inflates [] data.data.toList out.data.toList := by
  have hseen : (Decoder.new .raw).seen 0 [] = .start [] (Bits.ofBytes []) := rfl
  exact decodeAll_ok_iff (Decoder.new_stands .raw) rfl hseen data out

theorem decode_overflow_iff (data : ByteArray) :
    decode data = .error .overflow ↔ Crosses [] data.data.toList :=
  Decoder.decodeAll_new_overflow_iff .raw data

-- Decoding succeeds just where the reference decoder does, with the same
-- output, and is left without an answer just where lengths cross. Everything
-- else is refused. The same holds behind a dictionary that is supplied before
-- anything is decoded.
theorem decode_ok_iff_inflates (data : ByteArray) :
    ((∀ out, decode data = .ok out ↔ Inflates [] data.data.toList out.data.toList) ∧
      (decode data = .error .overflow ↔ Crosses [] data.data.toList)) ∧
    ∀ early dictionary, ∃ s, (Decoder.raw.feed early).supplyDictionary dictionary = (.ok (), s) ∧
      (∀ out, (s.decodeAll data).1 = .ok out ↔
        Inflates dictionary.data.toList (early.data.toList ++ data.data.toList) out.data.toList) ∧
      ((s.decodeAll data).1 = .error .overflow ↔
        Crosses dictionary.data.toList (early.data.toList ++ data.data.toList)) := by
  refine ⟨⟨decode_ok_iff data, decode_overflow_iff data⟩, fun early dictionary => ?_⟩
  obtain ⟨s, hanswer, hstands, hproduced, hseen⟩ :=
    Decoder.supplyDictionary_raw early dictionary
  exact ⟨s, hanswer, decodeAll_ok_iff hstands hproduced hseen data,
    decodeAll_overflow_iff hstands hproduced hseen data⟩

-- No front of the data is a stream, and still it is not refused.
theorem decode_unanswered :
    let data : ByteArray := ⟨#[0x05, 0xcc, 0x81, 0x81, 0x24, 0x49, 0x10, 0xc4, 0x20, 0xff, 0xad, 0x06,
      0x40, 0x91, 0xd5, 0xb3, 0xf7, 0x0f]⟩
    (∀ out, ¬Inflates [] data.data.toList out) ∧ decode data = .error .overflow := by
  intro data
  have hanswer : decode data = .error .overflow := (decode_overflow_iff data).mpr crosses_distances
  refine ⟨fun out hout => ?_, hanswer⟩
  cases hanswer.symm.trans ((decode_ok_iff data ⟨out.toArray⟩).mpr hout)

end Unpack.Deflate
