import Unpack.Proofs.Bytes.Fields
import Unpack.Proofs.Deflate.DecodedStream
import Unpack.Proofs.Zlib.Decompress

namespace Unpack.Zlib

open Deflate (Decoder)
open Deflate.Reference

-- A header that asks for the dictionary with this id stands in front, all of it.
def Asks (data : List UInt8) (id : UInt32) : Prop :=
  ∃ first second word body, data = first :: second :: (word ++ body) ∧ word.length = 4 ∧
    ValidHeader first second ∧ asksDictionary second = true ∧ id = UInt32.ofNat (bigEndian word)

theorem stream_awaits_iff {data : List UInt8} {id : UInt32} :
    (∃ t, stream .zlib (.start [] (Bits.ofBytes data)) = .error (.awaits id) t) ↔ Asks data id := by
  have hopens := opens data
  generalize stream .zlib (.start [] (Bits.ofBytes data)) = result at hopens
  cases hopens with
  | short t hlength =>
      constructor
      · rintro ⟨u, hstops⟩
        cases hstops
      · rintro ⟨first, second, word, body, rfl, -⟩
        simp only [List.length_cons] at hlength
        omega
  | refused first second body hdata hheader fault hother t =>
      constructor
      · rintro ⟨u, hstops⟩
        cases hstops
      · rintro ⟨first', second', word, body', hdata', -, hheader', -⟩
        cases hdata.symm.trans hdata'
        exact absurd hheader' hheader
  | blocks first second body hdata hheader hplain result hresult =>
      constructor
      · rintro ⟨u, hstops⟩
        exact absurd (hresult.symm.trans hstops) (blocksToEnd_never _ _ _)
      · rintro ⟨first', second', word, body', hdata', -, -, hasks, -⟩
        cases hdata.symm.trans hdata'
        rw [hplain] at hasks
        cases hasks
  | shortId first second body hdata hheader hasks hlength t =>
      constructor
      · rintro ⟨u, hstops⟩
        cases hstops
      · rintro ⟨first', second', word, body', hdata', hword, -⟩
        cases hdata.symm.trans hdata'
        rw [List.length_append] at hlength
        omega
  | awaits first second word body hdata hheader hasks hlength =>
      constructor
      · rintro ⟨u, hstops⟩
        cases hstops
        exact ⟨first, second, word, body, hdata, hlength, hheader, hasks, rfl⟩
      · rintro ⟨first', second', word', body', hdata', hlength', -, -, rfl⟩
        have hsame := List.tail_eq_of_cons_eq (List.tail_eq_of_cons_eq (hdata.symm.trans hdata'))
        rw [(List.append_inj hsame (by rw [hlength, hlength'])).1]
        exact ⟨_, rfl⟩

-- A fresh decoder comes to wait for the dictionary in its first call, whatever
-- that call asks for.
theorem read_awaits_iff {data : ByteArray} {n : Nat} (hn : 0 < n) {id : UInt32} :
    (∃ bytes s, (Decoder.zlib.feed data).read n = (.ok bytes, s) ∧ s.awaitedDictionary = some id) ↔
      Asks data.data.toList id := by
  have hchunk := ((Decoder.new_stands .zlib).feed data).chunk hn
  have hseen : ((Decoder.new .zlib).feed data).seen 0 [] = .start [] (Bits.ofBytes data.data.toList) :=
    rfl
  rw [← stream_awaits_iff, show Decoder.zlib = .new .zlib from rfl]
  generalize ((Decoder.new .zlib).feed data).read n = result at hchunk
  cases hchunk with
  | failed fault s' t hfails =>
      rw [hseen] at hfails
      constructor
      · rintro ⟨bytes, s, hresult, -⟩
        cases hresult
      · rintro ⟨u, hstops⟩
        cases hfails.symm.trans hstops
  | ended bytes s' t hfinished hends _ _ =>
      rw [hseen] at hends
      constructor
      · rintro ⟨_, _, hresult, hawaited⟩
        cases hresult
        rw [Decoder.awaitedDictionary, (Decoder.phase_of_isFinished hfinished).1] at hawaited
        cases hawaited
      · rintro ⟨u, hstops⟩
        cases hends.symm.trans hstops
  | awaiting bytes s' longer id' _ hawaited _ hstops _ _ _ =>
      rw [hseen] at hstops
      constructor
      · rintro ⟨_, _, hresult, hawaited'⟩
        cases hresult
        cases hawaited.symm.trans hawaited'
        exact ⟨_, hstops⟩
      · rintro ⟨u, hstops'⟩
        cases hstops.symm.trans hstops'
        exact ⟨bytes, s', rfl, hawaited⟩
  | more bytes s' longer q' _ hawaited hstands hsame hgiven _ _ hdry =>
      rw [hseen] at hsame
      constructor
      · rintro ⟨_, _, hresult, hawaited'⟩
        cases hresult
        cases hawaited.symm.trans hawaited'
      · rintro ⟨u, hstops⟩
        -- The wait comes before any output, so nothing was handed out.
        have hnothing : u.output = [] := by
          rw [State.output, (opens data.data.toList).history_nil hstops, List.drop_nil]
        have hprefix : s'.given 0 longer <+: u.output :=
          hstands.given_prefix (congrArg Decoder.verdict (hsame.symm.trans hstops))
        rw [hnothing, List.prefix_nil, hgiven] at hprefix
        have hnone : bytes.data.toList = [] := (List.append_eq_nil_iff.mp hprefix).2
        have hstarves := hdry (congrArg List.length hnone)
        cases (hsame.trans hstarves).symm.trans hstops

theorem be_eq {data : ByteArray} {bytes rest : List UInt8} {start : Nat}
    (h : data.data.toList.drop start = bytes ++ rest) (lead : Nat) :
    Bytes.be data start lead bytes.length =
      bytes.foldl (fun number byte => 256 * number + byte.toNat) lead := by
  induction bytes generalizing start lead with
  | nil => rfl
  | cons byte bytes ih =>
      have hnext : data.data.toList.drop (start + 1) = bytes ++ rest := by
        rw [List.drop_add_one_eq_tail_drop, h, List.cons_append, List.tail_cons]
      rw [List.length_cons, Bytes.be, Bytes.octet_eq h, ih hnext, List.foldl_cons]

theorem requiredDictionary_eq {data : ByteArray} {first second : UInt8} {word body : List UInt8}
    (hdata : data.data.toList = first :: second :: (word ++ body)) (hlength : word.length = 4) :
    requiredDictionary data =
      if bigEndian [first, second] % 31 = 0 ∧ first.toNat % 16 = 8 ∧ asksDictionary second then
        some (UInt32.ofNat (bigEndian word))
      else none := by
  obtain ⟨hmethod, -, hflag⟩ := bigEndian_pair first second
  have hfront : data.data.toList.drop 0 = [first, second] ++ (word ++ body) := hdata
  have hbehind : data.data.toList.drop 2 = word ++ body := by rw [hdata]; rfl
  have hheader : Bytes.be data 0 0 2 = bigEndian [first, second] := be_eq hfront 0
  have hword : Bytes.be data 2 0 word.length = bigEndian word := be_eq hbehind 0
  have hsize : 6 ≤ data.size := by
    rw [← Bits.Reader.length_toList, hdata]
    simp only [List.length_cons, List.length_append]
    omega
  rw [hlength] at hword
  simp only [requiredDictionary, hheader, hword, hmethod, hflag, hsize, true_and]

theorem requiredDictionary_eq_some_iff {data : ByteArray} {id : UInt32} :
    requiredDictionary data = some id ∧ Bytes.octet data 0 / 16 ≤ 7 ↔ Asks data.data.toList id := by
  constructor
  · rintro ⟨hrequired, hwindow⟩
    have hsize : 6 ≤ data.data.toList.length := by
      rw [requiredDictionary] at hrequired
      split at hrequired
      · rename_i h
        exact h.1
      · cases hrequired
    rcases hdata : data.data.toList with _ | ⟨first, _ | ⟨second, rest⟩⟩
    · rw [hdata] at hsize
      exact absurd hsize (by decide)
    · rw [hdata] at hsize
      exact absurd hsize (by simp)
    · have hfirst : Bytes.octet data 0 = first.toNat := Bytes.octet_eq hdata
      have hlength : (rest.take 4).length = 4 := by
        rw [hdata, List.length_cons, List.length_cons] at hsize
        rw [List.length_take]
        omega
      have hsplit : data.data.toList = first :: second :: (rest.take 4 ++ rest.drop 4) := by
        rw [hdata, List.take_append_drop]
      rw [requiredDictionary_eq hsplit hlength] at hrequired
      split at hrequired
      · rename_i hvalid
        obtain ⟨hcheck, hmethod, hasks⟩ := hvalid
        exact ⟨first, second, rest.take 4, rest.drop 4, by rw [List.take_append_drop], hlength,
          ⟨hcheck, hmethod, hfirst ▸ hwindow⟩, hasks, (Option.some.inj hrequired).symm⟩
      · cases hrequired
  · rintro ⟨first, second, word, body, hdata, hlength, hheader, hasks, rfl⟩
    have hfirst : Bytes.octet data 0 = first.toNat := Bytes.octet_eq hdata
    rw [requiredDictionary_eq hdata hlength, if_pos ⟨hheader.check, hheader.method, hasks⟩, hfirst]
    exact ⟨rfl, hheader.window⟩

-- A decoder comes to wait for the dictionary that the header asks for, but for
-- a header whose window is larger than a decoder has: it refuses that one.
theorem awaits_iff_requires (data : ByteArray) (n : Nat) (hn : 0 < n) (id : UInt32) :
    (∃ bytes s, (Decoder.zlib.feed data).read n = (.ok bytes, s) ∧ s.awaitedDictionary = some id) ↔
      requiredDictionary data = some id ∧ Bytes.octet data 0 / 16 ≤ 7 :=
  (read_awaits_iff hn).trans requiredDictionary_eq_some_iff.symm

theorem awaits_iff_requires_deflate :
    0 < 1 ∧ ∃ bytes s, (Decoder.zlib.feed ⟨#[0x78, 0x20, 0x12, 0x34, 0x56, 0x78]⟩).read 1 =
      (.ok bytes, s) ∧ s.awaitedDictionary = some 0x12345678 :=
  ⟨by decide, (awaits_iff_requires _ 1 (by decide) _).mpr ⟨by decide, by decide⟩⟩

-- A window of 64 KiB is announced.
theorem requires_where_refused :
    let data : ByteArray := ⟨#[0x88, 0x3b, 0x12, 0x34, 0x56, 0x78]⟩
    requiredDictionary data = some 0x12345678 ∧
      ((Decoder.zlib.feed data).read 1).1 = .error (.invalidHeader (.zlibWindow 16)) ∧
      ((Decoder.zlib.feed data).read 1).2.awaitedDictionary = none := by
  intro data
  exact ⟨by decide, by decide +kernel, by decide +kernel⟩

end Unpack.Zlib
