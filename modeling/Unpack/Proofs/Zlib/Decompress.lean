import Unpack.Proofs.Deflate.OneShot
import Unpack.Zlib

namespace Unpack.Deflate.Decoder

open Bits (Reader)
open Reference

-- The end of a dictionary, as far as a distance reaches.
def reachable (dictionary : List UInt8) : List UInt8 :=
  dictionary.drop (dictionary.length - Window.span)

theorem shows_settled (bytes : ByteArray) :
    (Window.settled bytes).Shows ⟨bytes.data.toList, (Window.settled bytes).pending⟩ :=
  ⟨List.suffix_refl _, Nat.min_le_left _ _, rfl⟩

-- An empty window keeps just that much of a dictionary.
theorem preset_reachable {w : Window} (hempty : w.kept.size = 0) (dictionary : ByteArray) :
    ∃ w', w.preset dictionary = (.ok (), w') ∧ w'.pending = 0 ∧
      w'.Shows ⟨reachable dictionary.data.toList, w'.pending⟩ := by
  have hkept : (dictionary.extract (dictionary.size - Window.span) dictionary.size).data.toList =
      reachable dictionary.data.toList := by
    rw [ByteArray.data_extract, Array.toList_extract, List.extract_eq_take_drop, reachable,
      ← Reader.length_toList, ← List.length_drop, List.take_length]
  have hshows := shows_settled (dictionary.extract (dictionary.size - Window.span) dictionary.size)
  rw [hkept] at hshows
  exact ⟨_, if_pos hempty, rfl, hshows⟩

variable {s : Decoder} {id : UInt32}

-- Behind the dictionary that it waits for, a decoder has the blocks to do.
theorem Stands.supplyDictionary (h : s.Stands 0 [] (dictionary 0 id))
    (hformat : s.settings.format = .zlib) (hawaited : s.awaitedDictionary = some id)
    {dictionary : ByteArray} (hmatches : Adler32.of dictionary = id) :
    ∃ s', s.supplyDictionary dictionary = (.ok (), s') ∧
      s'.Stands (reachable dictionary.data.toList).length (reachable dictionary.data.toList)
        (blocksToEnd .zlib) ∧
      s'.settings.format = .zlib ∧ s'.produced = 0 ∧ s'.capacity = s.capacity ∧
      s'.seen (reachable dictionary.data.toList).length (reachable dictionary.data.toList) =
        ⟨(s.seen 0 []).bits, (s.seen 0 []).consumed, reachable dictionary.data.toList,
          (reachable dictionary.data.toList).length⟩ := by
  have hlength : 0 = 0 + s.produced + s.engine.window.pending := h.length_eq
  have hproduced : s.produced = 0 := by omega
  have hadler := h.adler hformat
  rw [hproduced, List.take_zero] at hadler
  have hresidual := h.engine.residual
  rw [phase_of_awaitedDictionary hawaited] at hresidual
  obtain ⟨w, hpreset, hpending, hshows⟩ :=
    preset_reachable (h.engine.shows.empty_iff.mpr rfl) dictionary
  generalize reachable dictionary.data.toList = tail at hshows ⊢
  refine ⟨{ s with engine := { s.engine with window := w, phase := .block } }, ?_,
    ⟨⟨?_, hshows, ?_⟩, fun _ => ?_⟩, hformat, hproduced, ?_, rfl⟩
  · simp only [Decoder.supplyDictionary, hformat, hawaited, hmatches, hpreset, if_true]
  · rw [hformat]
    simp only [residual_dictionary_last hresidual]
    exact .block
  · show tail.length = tail.length + s.produced + w.pending
    omega
  · rw [hadler, hproduced, List.take_zero]
  · have hnothing : s.engine.window.pending = 0 := by omega
    simp only [capacity, hpending, hnothing]

-- What decoding comes to with a dictionary at hand. The blocks behind it begin
-- where the wait for it ended.
def outcomeWith (dictionary : ByteArray) :
    EStateM.Result Stop State Unit → Except Fault (List UInt8)
  | .error (.awaits id) t =>
      if Adler32.of dictionary = id then
        let tail := reachable dictionary.data.toList
        outcome "zlib stream" (blocksToEnd .zlib ⟨t.bits, t.consumed, tail, tail.length⟩)
      else
        .error (.checksumMismatch .adler32 id (Adler32.of dictionary))
  | result => outcome "zlib stream" result

theorem outcomeWith_of_never {dictionary : ByteArray} {result : EStateM.Result Stop State Unit}
    (h : ∀ id t, result ≠ .error (.awaits id) t) :
    outcomeWith dictionary result = outcome "zlib stream" result := by
  cases result with
  | ok a t => rfl
  | error stop t =>
      cases stop with
      | awaits id => exact absurd rfl (h id t)
      | starved => rfl
      | fault fault => rfl

-- Where the loop stands with `left` rounds to come, when `target` is the answer:
-- in front of the dictionary, or with no dictionary to be asked for.
inductive Unwrapping (dictionary : ByteArray) (target : Except Fault (List UInt8)) (left : Nat) :
    ByteArray × Decoder → Prop where
  | unwrapping (out : ByteArray) (s : Decoder) (preset : Nat) (history : List UInt8)
      (q : Decoding Unit) (hstands : s.Stands preset history q) (hformat : s.settings.format = .zlib)
      (hout : out.data.toList = s.given preset history)
      (htarget : outcomeWith dictionary (q (s.seen preset history)) = target)
      (hleft : s.capacity < left)
      (hfresh : ∀ id t, q (s.seen preset history) = .error (.awaits id) t →
        preset = 0 ∧ t.history = [] ∧ s.capacity + 1 < left) :
      Unwrapping dictionary target left (out, s)

-- The dictionary that is waited for, and the blocks behind it.
theorem Stands.supply_unwrapping (h : s.Stands 0 [] (dictionary 0 id))
    (hformat : s.settings.format = .zlib) (hawaited : s.awaitedDictionary = some id)
    {out : ByteArray} (hout : out.data.toList = s.given 0 []) (dictionary : ByteArray) {left : Nat}
    (hleft : s.capacity < left) :
    Sum.elim (Unwrapping dictionary (outcomeWith dictionary (.error (.awaits id) (s.seen 0 []))) left)
      (fun answer => answer.map (·.data.toList) =
        outcomeWith dictionary (.error (.awaits id) (s.seen 0 [])))
      (match s.supplyDictionary dictionary with
        | (.error fault, _) => .inr (.error fault)
        | (.ok (), s) => .inl (out, s) : (ByteArray × Decoder) ⊕ Except Fault ByteArray) := by
  rw [outcomeWith]
  by_cases hmatches : Adler32.of dictionary = id
  · obtain ⟨s', hsupply, hstands, hformat', hproduced, hcapacity, hseen⟩ :=
      h.supplyDictionary hformat hawaited hmatches
    rw [hsupply, if_pos hmatches]
    refine .unwrapping out s' _ _ _ hstands hformat' ?_ ?_ (by omega) fun id t hstops =>
      absurd hstops (blocksToEnd_never _ _ _)
    · rw [hout, given, given, hproduced, List.take_zero, List.drop_nil, List.take_nil]
    · rw [outcomeWith_of_never (blocksToEnd_never _), hseen]
  · have hsupply : s.supplyDictionary dictionary =
        (.error (.checksumMismatch .adler32 id (Adler32.of dictionary)), s) := by
      simp only [Decoder.supplyDictionary, hformat, hawaited, if_neg hmatches]
    rw [hsupply, if_neg hmatches]
    rfl

-- One round of the loop comes closer to the answer, or gives it.
theorem Unwrapping.unwrapRound {dictionary : ByteArray} {target : Except Fault (List UInt8)}
    {left : Nat} {t : ByteArray × Decoder} (h : Unwrapping dictionary target (left + 1) t) :
    (Zlib.unwrapRound dictionary t).elim (Unwrapping dictionary target left)
      (fun answer => answer.map (·.data.toList) = target) := by
  obtain ⟨out, s, preset, history, q, hstands, hformat, hout, rfl, hleft, hfresh⟩ := h
  have hchunk := hstands.chunk (show 0 < pieceSize by decide)
  have htotal : ∀ bytes : ByteArray,
      (out ++ bytes).data.toList = s.given preset history ++ bytes.data.toList := by
    intro bytes
    rw [ByteArray.data_append, Array.toList_append, hout]
  rw [Zlib.unwrapRound]
  generalize s.read pieceSize = result at hchunk
  cases hchunk with
  | failed fault s' t hfails =>
      rw [hfails]
      rfl
  | ended bytes s' t hfinished hends houtput hunread =>
      have hawaits : s'.awaitsDictionary = false := by
        simp [awaitsDictionary, awaitedDictionary, (phase_of_isFinished hfinished).1]
      simp only [hawaits, hfinished, Bool.false_eq_true, if_false, if_true]
      rw [hends]
      exact congrArg Except.ok ((htotal bytes).trans houtput.symm)
  | awaiting bytes s' longer id hfinished hawaited hstands' hstops hgiven hsettings hcapacity =>
      obtain ⟨rfl, hnone, henough⟩ := hfresh id _ hstops
      obtain rfl : longer = [] := hnone
      have hawaits : s'.awaitsDictionary = true := by rw [awaitsDictionary, hawaited]; rfl
      simp only [hawaits, if_true]
      rw [hstops]
      exact hstands'.supply_unwrapping (hsettings ▸ hformat) hawaited
        ((htotal bytes).trans hgiven.symm) dictionary (by omega)
  | more bytes s' longer q' hfinished hawaited hstands' hsame hgiven hsettings hcapacity hdry =>
      have hawaits : s'.awaitsDictionary = false := by rw [awaitsDictionary, hawaited]; rfl
      simp only [hawaits, hfinished, Bool.false_eq_true, if_false]
      by_cases hnone : bytes.size = 0
      · rw [if_pos hnone, hsame, hdry hnone]
        rfl
      · rw [if_neg hnone]
        refine .unwrapping _ s' preset longer q' hstands' (hsettings ▸ hformat)
          ((htotal bytes).trans hgiven.symm) (congrArg _ hsame.symm) (by omega) fun id t hstops => ?_
        obtain ⟨hpreset, hhistory, henough⟩ := hfresh id t (hsame.trans hstops)
        exact ⟨hpreset, hhistory, by omega⟩

theorem Unwrapping.decodeRest {dictionary out : ByteArray} {target : Except Fault (List UInt8)}
    {left rounds : Nat} (h : Unwrapping dictionary target left (out, s)) (hrounds : left ≤ rounds) :
    (Zlib.decodeRest dictionary rounds out s).map (·.data.toList) = target := by
  refine Loop.run_rule_ranked (P := Unwrapping dictionary target)
    (Q := fun answer : Except Fault ByteArray => answer.map (·.data.toList) = target)
    (fun left t ht => ?_) (fun t ht => ?_) hrounds h
  · obtain ⟨less, rfl⟩ : ∃ less, left = less + 1 := by
      obtain ⟨_, _, _, _, _, -, -, -, -, hleft, -⟩ := ht
      exact Nat.exists_eq_succ_of_ne_zero (Nat.ne_zero_of_lt hleft)
    have hround := ht.unwrapRound
    generalize Zlib.unwrapRound dictionary t = result at hround
    cases result with
    | inl t' => exact ⟨less, Nat.lt_succ_self less, hround⟩
    | inr answer => exact hround
  · obtain ⟨_, _, _, _, _, -, -, -, -, hleft, -⟩ := ht
    exact absurd hleft (Nat.not_lt_zero _)

end Unpack.Deflate.Decoder

namespace Unpack.Zlib

open Deflate (Decoder crosses_distances overflows_iff_crosses)
open Deflate.Decoder (outcome outcomeWith reachable)
open Deflate.Reference

theorem decompressWith_eq (dictionary data : ByteArray) :
    (decompressWith dictionary data).map (·.data.toList) =
      outcomeWith dictionary (stream .zlib (.start [] (Bits.ofBytes data.data.toList))) := by
  have hopens := opens data.data.toList
  have hstart : Deflate.Decoder.Unwrapping dictionary
      (outcomeWith dictionary (stream .zlib (.start [] (Bits.ofBytes data.data.toList))))
      ((Decoder.zlib.feed data).capacity + 2) (ByteArray.empty, Decoder.zlib.feed data) :=
    .unwrapping _ _ 0 [] _ ((Decoder.new_stands .zlib).feed data) rfl rfl rfl (by omega)
      fun _ _ h => ⟨rfl, hopens.history_nil h, by omega⟩
  exact hstart.decodeRest (Nat.le_succ _)

theorem decompress_eq (data : ByteArray) :
    (decompress data).map (·.data.toList) =
      outcome "compressed stream" (stream .zlib (.start [] (Bits.ofBytes data.data.toList))) :=
  ((Decoder.new_stands .zlib).decodeAll rfl data).outcome_eq

-- A raw stream behind some history, and after its last byte the checksum of
-- its output.
def Checked (history body out : List UInt8) : Prop :=
  ∃ front trailer back, body = front ++ trailer ++ back ∧ trailer.length = 4 ∧
    inflate history (Bits.ofBytes front) = some (out, []) ∧
    bigEndian trailer = (Adler32.of ⟨out.toArray⟩).toNat

-- A header begins the data, and if it asks for a dictionary, for this one. `P`
-- tells of the history that the blocks begin with and of the bytes behind.
def Opening (dictionary : ByteArray) (data : List UInt8) (P : List UInt8 → List UInt8 → Prop) : Prop :=
  ∃ first second body, data = first :: second :: body ∧ ValidHeader first second ∧
    if asksDictionary second then
      ∃ id rest, body = id ++ rest ∧ id.length = 4 ∧
        bigEndian id = (Adler32.of dictionary).toNat ∧
        P (reachable dictionary.data.toList) rest
    else
      P [] body

-- A zlib stream begins the data.
def Unwraps (dictionary : ByteArray) (data out : List UInt8) : Prop :=
  Opening dictionary data fun history body => Checked history body out

def Crosses (dictionary : ByteArray) (data : List UInt8) : Prop :=
  Opening dictionary data Deflate.Crosses

theorem opening_iff_of_plain {dictionary : ByteArray} {first second : UInt8} {body : List UInt8}
    {P : List UInt8 → List UInt8 → Prop} (hvalid : ValidHeader first second)
    (hplain : asksDictionary second = false) :
    Opening dictionary (first :: second :: body) P ↔ P [] body := by
  constructor
  · rintro ⟨_, _, _, ⟨⟩, -, hbody⟩
    rwa [hplain] at hbody
  · intro hbody
    refine ⟨first, second, body, rfl, hvalid, ?_⟩
    rw [hplain]
    exact hbody

theorem opening_iff_of_asks {dictionary : ByteArray} {first second : UInt8} {id body : List UInt8}
    {P : List UInt8 → List UInt8 → Prop} (hvalid : ValidHeader first second)
    (hasks : asksDictionary second = true) (hlength : id.length = 4) :
    Opening dictionary (first :: second :: (id ++ body)) P ↔
      bigEndian id = (Adler32.of dictionary).toNat ∧ P (reachable dictionary.data.toList) body := by
  constructor
  · rintro ⟨_, _, _, ⟨⟩, -, hbody⟩
    rw [if_pos hasks] at hbody
    obtain ⟨id', body', hsplit, hlength', hid, hbody⟩ := hbody
    obtain ⟨rfl, rfl⟩ := List.append_inj hsplit (hlength.trans hlength'.symm)
    exact ⟨hid, hbody⟩
  · rintro ⟨hid, hbody⟩
    refine ⟨first, second, id ++ body, rfl, hvalid, ?_⟩
    rw [if_pos hasks]
    exact ⟨id, body, rfl, hlength, hid, hbody⟩

theorem bigEndian_lt (bytes : List UInt8) : bigEndian bytes < 256 ^ bytes.length := by
  have hbehind : ∀ value, bytes.foldl (fun number byte => 256 * number + byte.toNat) value <
      (value + 1) * 256 ^ bytes.length := by
    induction bytes with
    | nil => simp
    | cons byte bytes ih =>
        intro value
        have hbyte := byte.toNat_lt
        calc
          _ < (256 * value + byte.toNat + 1) * 256 ^ bytes.length := ih _
          _ ≤ (256 * (value + 1)) * 256 ^ bytes.length := Nat.mul_le_mul_right _ (by omega)
          _ = _ := by rw [List.length_cons, Nat.pow_succ]; ring
  have hnone := hbehind 0
  rwa [Nat.zero_add, Nat.one_mul] at hnone

theorem bigEndian_word {bytes : List UInt8} (hlength : bytes.length = 4) (word : UInt32) :
    word = UInt32.ofNat (bigEndian bytes) ↔ bigEndian bytes = word.toNat := by
  have hlt : bigEndian bytes < 2 ^ 32 := by
    have hlt := bigEndian_lt bytes
    rwa [hlength] at hlt
  rw [← UInt32.toNat_inj, UInt32.toNat_ofNat', Nat.mod_eq_of_lt hlt]
  exact eq_comm

theorem blocksToEnd_zlib_eq :
    blocksToEnd .zlib = blocksToEnd .raw >>= fun () => word 4 0 >>= checksum := by
  simp only [blocksToEnd, ending, bind_assoc]

-- The checksum follows the raw stream, at its last byte.
theorem blocksToEnd_zlib_iff (history body out : List UInt8) (consumed : Nat) :
    (∃ t, blocksToEnd .zlib ⟨Bits.ofBytes body, consumed, history, history.length⟩ = .ok () t ∧
      t.output = out) ↔ Checked history body out := by
  rw [blocksToEnd_zlib_eq]
  constructor
  · rintro ⟨t, hstream, rfl⟩
    obtain ⟨_, ⟨bits, count, log, preset⟩, hraw, htrailer⟩ := bind_eq_ok.mp hstream
    obtain ⟨front, back, rfl, hbits, hinflate⟩ := inflate_of_blocksToEnd hraw
    obtain rfl : bits = Bits.ofBytes back := hbits
    by_cases hshort : back.length < 4
    · obtain ⟨u, hstarves⟩ := word_starves hshort 0 count preset log
      rw [bind_of_error hstarves] at htrailer
      cases htrailer
    · have hlength : (back.take 4).length = 4 := by
        rw [List.length_take]
        omega
      have hword := word_ofBytes (back.take 4) (back.drop 4) 0 count preset log
      rw [hlength, List.take_append_drop] at hword
      obtain ⟨rfl, hsame⟩ :=
        checksum_eq_ok.mp ((bind_of_ok hword checksum).symm.trans htrailer)
      refine ⟨front, back.take 4, back.drop 4, ?_, hlength, hinflate,
        (bigEndian_word hlength _).mp hsame⟩
      rw [List.append_assoc, List.take_append_drop]
  · rintro ⟨front, trailer, back, rfl, hlength, hinflate, hsame⟩
    obtain ⟨⟨bits, count, log, preset⟩, hraw, hbits, rfl⟩ :=
      blocksToEnd_of_inflate hinflate consumed (trailer ++ back)
    obtain rfl : bits = Bits.ofBytes (trailer ++ back) := hbits
    have hword := word_ofBytes trailer back 0 count preset log
    rw [hlength] at hword
    rw [List.append_assoc, bind_of_ok hraw]
    refine ⟨⟨Bits.ofBytes back, count + 8 * 4, log, preset⟩, ?_, rfl⟩
    exact (bind_of_ok hword checksum).trans
      (checksum_eq_ok.mpr ⟨rfl, (bigEndian_word hlength _).mpr hsame⟩)

-- What is said of the answer to the blocks is said of the whole answer, unless
-- the header has another.
theorem outcomeWith_iff {dictionary : ByteArray} {data : List UInt8}
    {result : EStateM.Result Stop State Unit} (h : Opens data result)
    {Q : Except Fault (List UInt8) → Prop} {P : List UInt8 → List UInt8 → Prop}
    (hblocks : ∀ history body consumed, Q (outcome "zlib stream" (blocksToEnd .zlib
      ⟨Bits.ofBytes body, consumed, history, history.length⟩)) ↔ P history body)
    (hheader : ∀ fault, fault ≠ .overflow → ¬Q (.error fault)) :
    Q (outcomeWith dictionary result) ↔ Opening dictionary data P := by
  cases h with
  | short t hlength =>
      refine iff_of_false (hheader _ Fault.noConfusion) ?_
      rintro ⟨first, second, body, rfl, -⟩
      rw [List.length_cons, List.length_cons] at hlength
      omega
  | refused first second body hdata hinvalid fault hother t =>
      refine iff_of_false (hheader _ hother) ?_
      rintro ⟨first', second', body', hdata', hvalid, -⟩
      cases hdata.symm.trans hdata'
      exact absurd hvalid hinvalid
  | blocks first second body hdata hvalid hplain result hresult =>
      rw [hdata, hresult, Deflate.Decoder.outcomeWith_of_never (blocksToEnd_never _),
        opening_iff_of_plain hvalid hplain]
      exact hblocks [] body 16
  | shortId first second body hdata hvalid hasks hlength t =>
      refine iff_of_false (hheader _ Fault.noConfusion) ?_
      rintro ⟨first', second', body', hdata', -, hbody⟩
      cases hdata.symm.trans hdata'
      rw [if_pos hasks] at hbody
      obtain ⟨id, rest, rfl, hid, -⟩ := hbody
      rw [List.length_append] at hlength
      omega
  | awaits first second id body hdata hvalid hasks hlength =>
      rw [hdata, opening_iff_of_asks hvalid hasks hlength, outcomeWith, ← bigEndian_word hlength]
      by_cases hmatches : Adler32.of dictionary = UInt32.ofNat (bigEndian id)
      · rw [if_pos hmatches, and_iff_right hmatches]
        exact hblocks _ _ _
      · rw [if_neg hmatches]
        exact iff_of_false (hheader _ Fault.noConfusion) fun h => hmatches h.1

theorem outcome_reading (first second : String) (result : EStateM.Result Stop State Unit) :
    outcome first result = outcome second result ∨
      outcome first result = .error (.unexpectedEnd first) ∧
        outcome second result = .error (.unexpectedEnd second) := by
  cases result with
  | ok a t => exact Or.inl rfl
  | error stop t =>
      cases stop with
      | starved => exact Or.inr ⟨rfl, rfl⟩
      | awaits id => exact Or.inl rfl
      | fault fault => exact Or.inl rfl

theorem map_toList_injective {first second : Except Fault ByteArray}
    (h : first.map (·.data.toList) = second.map (·.data.toList)) : first = second := by
  cases second with
  | ok bytes => exact Deflate.Decoder.map_toList_eq_ok_iff.mp h
  | error fault =>
      cases first with
      | ok bytes => cases h
      | error other =>
          cases h
          rfl

theorem decompressWith_ok_iff (dictionary data out : ByteArray) :
    decompressWith dictionary data = .ok out ↔
      Unwraps dictionary data.data.toList out.data.toList := by
  rw [← Deflate.Decoder.map_toList_eq_ok_iff, decompressWith_eq]
  exact outcomeWith_iff (opens _) (Q := (· = .ok out.data.toList)) (fun history body consumed =>
    Deflate.Decoder.outcome_eq_ok_iff.trans (blocksToEnd_zlib_iff history body _ consumed))
    fun _ _ h => nomatch h

theorem decompressWith_overflow_iff (dictionary data : ByteArray) :
    decompressWith dictionary data = .error .overflow ↔ Crosses dictionary data.data.toList := by
  rw [← Deflate.Decoder.map_toList_eq_error_iff, decompressWith_eq]
  exact outcomeWith_iff (opens _) (Q := (· = .error .overflow)) (fun history body consumed =>
    Deflate.Decoder.outcome_eq_overflow_iff.trans (overflows_iff_crosses .zlib history body consumed))
    fun _ hother h => hother (Except.error.inj h)

theorem decompress_overflow_iff (data : ByteArray) :
    decompress data = .error .overflow ↔ Deflate.Format.zlib.Crosses data.data.toList :=
  Decoder.decodeAll_new_overflow_iff .zlib data

-- A stream is decoded just where its header, its blocks and its checksum are
-- right, and left without an answer just where lengths cross. Without a
-- dictionary in its header it does not matter which one is at hand, and with one
-- in its header it cannot be decoded without.
theorem decompressWith_ok_iff_unwraps (dictionary data : ByteArray) :
    (∀ out, decompressWith dictionary data = .ok out ↔
      Unwraps dictionary data.data.toList out.data.toList) ∧
    (decompressWith dictionary data = .error .overflow ↔ Crosses dictionary data.data.toList) ∧
    (decompress data = .error .overflow ↔ Deflate.Format.zlib.Crosses data.data.toList) ∧
    ((∀ second, data.data.toList[1]? = some second → asksDictionary second = false) →
      decompress data = decompressWith dictionary data ∨
        ∃ reading reading', decompress data = .error (.unexpectedEnd reading) ∧
          decompressWith dictionary data = .error (.unexpectedEnd reading')) ∧
    ∀ first second id body, data.data.toList = first :: second :: (id ++ body) →
      ValidHeader first second → asksDictionary second = true → id.length = 4 →
        decompress data = .error (.dictionaryRequired (UInt32.ofNat (bigEndian id))) := by
  have hopens := opens data.data.toList
  have hwith := decompressWith_eq dictionary data
  have hwithout := decompress_eq data
  refine ⟨decompressWith_ok_iff dictionary data, decompressWith_overflow_iff dictionary data,
    decompress_overflow_iff data, fun hplain => ?_,
    fun first second id body hdata hheader hasks hid => ?_⟩
  · generalize stream .zlib (.start [] (Bits.ofBytes data.data.toList)) = result at *
    have hnever : ∀ id t, result ≠ .error (.awaits id) t := by
      rintro id t rfl
      cases hopens with
      | blocks first second body hdata hheader hplain result hresult =>
          exact blocksToEnd_never _ _ _ hresult.symm
      | awaits first second id body hdata hheader hasks hlength =>
          have hclear := hplain second (by rw [hdata]; rfl)
          rw [hasks] at hclear
          cases hclear
    rw [Deflate.Decoder.outcomeWith_of_never hnever] at hwith
    rcases outcome_reading "compressed stream" "zlib stream" result with hsame | ⟨hfirst, hsecond⟩
    · exact Or.inl (map_toList_injective (by rw [hwith, hwithout, hsame]))
    · refine Or.inr ⟨_, _, map_toList_injective (hwithout.trans hfirst),
        map_toList_injective (hwith.trans hsecond)⟩
  · rw [hdata, stream_zlib_eq, afterHeader_of_valid hheader, if_pos hasks,
      dictionary_ofBytes hid] at hwithout
    exact map_toList_injective hwithout

-- A whole header, and no answer.
theorem decompress_unanswered :
    let data : ByteArray := ⟨#[0x78, 0x01, 0x05, 0xcc, 0x81, 0x81, 0x24, 0x49, 0x10, 0xc4, 0x20, 0xff,
      0xad, 0x06, 0x40, 0x91, 0xd5, 0xb3, 0xf7, 0x0f]⟩
    decompress data = .error .overflow ∧
      ∀ dictionary, decompressWith dictionary data = .error .overflow := by
  intro data
  have hvalid : ValidHeader 0x78 0x01 := ⟨by decide, by decide, by decide⟩
  refine ⟨(decompress_overflow_iff data).mpr ⟨0x78, 0x01, _, rfl, hvalid, rfl, crosses_distances⟩,
    fun dictionary => (decompressWith_overflow_iff dictionary data).mpr ?_⟩
  exact ⟨0x78, 0x01, _, rfl, hvalid, crosses_distances⟩

end Unpack.Zlib
