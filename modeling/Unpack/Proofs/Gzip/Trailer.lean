import Unpack.Gzip.Member
import Unpack.Proofs.Checksum.Crc32
import Unpack.Proofs.Source.Steady
import Unpack.Proofs.Bits.Reader

namespace Unpack.Gzip

open Bytes (littleEndian)
open Source (Steady Fetches Breaks)

-- Some bytes begin with the trailer of this output.
structure HasTrailer (out bytes : List UInt8) : Prop where
  length : Member.trailerSize ≤ bytes.length
  crc : littleEndian (bytes.take 4) = (Crc32.of ⟨out.toArray⟩).toNat
  size : littleEndian ((bytes.drop 4).take 4) = out.length % Member.sizeModulus

-- Only the first bytes count.
theorem hasTrailer_take {out bytes : List UInt8} :
    HasTrailer out (bytes.take Member.trailerSize) ↔ HasTrailer out bytes := by
  have hlength : Member.trailerSize ≤ (bytes.take Member.trailerSize).length ↔
      Member.trailerSize ≤ bytes.length := by
    rw [List.length_take]
    omega
  have hcrc : (bytes.take Member.trailerSize).take 4 = bytes.take 4 :=
    (List.take_take).trans rfl
  have hsize : ((bytes.take Member.trailerSize).drop 4).take 4 = (bytes.drop 4).take 4 := by
    rw [List.drop_take, List.take_take]
    rfl
  constructor
  · intro h
    exact ⟨hlength.mp h.length, hcrc ▸ h.crc, hsize ▸ h.size⟩
  · intro h
    exact ⟨hlength.mpr h.length, hcrc.symm ▸ h.crc, hsize.symm ▸ h.size⟩

theorem hasTrailer_append {out front : List UInt8} (hfront : Member.trailerSize ≤ front.length)
    (back : List UInt8) : HasTrailer out (front ++ back) ↔ HasTrailer out front := by
  rw [← hasTrailer_take, List.take_append_of_le_length hfront, hasTrailer_take]

namespace Member

variable {σ : Type} {valid : σ → Prop} {rest : σ → List UInt8}
  {out leftover tail : List UInt8} {m : Member σ}

-- Checksum and size so far, and nothing is checked yet.
structure Sums (out : List UInt8) (m : Member σ) : Prop where
  crc : m.crc = Crc32.empty.update ⟨out.toArray⟩
  size : m.size = out.length
  unverified : m.verified = false

-- The stream has ended, and the trailer is to come.
structure Awaits (valid : σ → Prop) (out leftover : List UInt8) (m : Member σ) : Prop where
  valid : valid m.stream.source
  finished : m.stream.decoder.isFinished = true
  unread : m.stream.decoder.unread.data.toList = leftover
  sums : Sums out m

-- The check compares what the trailer of the output says.
theorem Sums.check (h : Sums out m) {trailer : ByteArray} (hsize : trailer.size = trailerSize) :
    (UInt32.ofNat (Bytes.le trailer 0 4) = m.crc.value ∧
      Bytes.le trailer 4 4 = m.size % sizeModulus) ↔ HasTrailer out trailer.data.toList := by
  have hcrc : UInt32.ofNat (Bytes.le trailer 0 4) = m.crc.value ↔
      littleEndian (trailer.data.toList.take 4) = (Crc32.of ⟨out.toArray⟩).toNat := by
    have hlt : littleEndian (trailer.data.toList.take 4) < 2 ^ 32 := by
      have hlt := Bytes.littleEndian_lt (trailer.data.toList.take 4)
      rwa [List.length_take_of_le (show 4 ≤ trailer.data.toList.length by
        rw [Bits.Reader.length_toList, hsize]; decide)] at hlt
    rw [h.crc, ← UInt32.toNat_inj, Bytes.le_eq_littleEndian, List.drop_zero,
      UInt32.toNat_ofNat_of_lt' hlt]
    rfl
  rw [hcrc, Bytes.le_eq_littleEndian, h.size]
  constructor
  · rintro ⟨hfirst, hsecond⟩
    exact ⟨Nat.le_of_eq hsize.symm, hfirst, hsecond⟩
  · intro htrailer
    exact ⟨htrailer.crc, htrailer.size⟩

theorem Sums.update (h : Sums out m) (bytes : ByteArray) (stream : Deflate.DecodedStream σ) :
    Sums (out ++ bytes.data.toList)
      ⟨m.header, stream, m.crc.update bytes, m.size + bytes.size, m.verified⟩ := by
  refine ⟨?_, ?_, h.unverified⟩
  · rw [h.crc]
    simp only [Crc32.update_eq_foldl, List.foldl_append]
  · rw [h.size, List.length_append, Bits.Reader.length_toList]

-- No trailer is to be had any more.
structure Hopeless (valid : σ → Prop) (rest : σ → List UInt8) (out leftover : List UInt8)
    (m : Member σ) : Prop where
  awaits : Awaits valid out leftover m
  wrong : ¬HasTrailer out leftover
  short : leftover.length < trailerSize →
    leftover.length + (rest m.stream.source).length < trailerSize

theorem Hopeless.no_trailer (h : Hopeless valid rest out leftover m) :
    ¬HasTrailer out (leftover ++ rest m.stream.source) := by
  intro htrailer
  by_cases hall : trailerSize ≤ leftover.length
  · exact h.wrong ((hasTrailer_append hall _).mp htrailer)
  · have hshort := h.short (Nat.lt_of_not_le hall)
    have hlength := htrailer.length
    rw [List.length_append] at hlength
    omega

-- The bytes at hand and those that are left cannot make another trailer.
theorem Awaits.hopeless (h : Awaits valid out leftover m) (hwrong : ¬HasTrailer out tail)
    (hfront : leftover <+: tail)
    (hrest : (rest m.stream.source).length ≤ tail.length - trailerSize)
    (hfew : trailerSize ≤ leftover.length ∨ tail.length + leftover.length < 2 * trailerSize) :
    Hopeless valid rest out leftover m := by
  refine ⟨h, fun htrailer => ?_, fun hless => ?_⟩
  · obtain ⟨back, rfl⟩ := hfront
    exact hwrong ((hasTrailer_append htrailer.length back).mpr htrailer)
  · have hlength := hfront.length_le
    omega

variable [Source σ]

-- What an attempt to check the trailer comes to.
inductive Attempt (valid : σ → Prop) (rest : σ → List UInt8) (out leftover : List UInt8)
    (m : Member σ) : Except Fault ByteArray × Member σ → Prop where
  | right (m' : Member σ) (hright : HasTrailer out (leftover ++ rest m.stream.source))
      (hverified : m'.verified = true) :
      Attempt valid rest out leftover m (.ok ByteArray.empty, m')
  | wrong (fault : Fault) (m' : Member σ)
      (hwrong : ¬HasTrailer out (leftover ++ rest m.stream.source))
      (hformat : fault.isFormat = true) (hawaits : Awaits valid out leftover m')
      (hrest : rest m'.stream.source =
        (rest m.stream.source).drop (trailerSize - leftover.length)) :
      Attempt valid rest out leftover m (.error fault, m')
  | broken (fault : Fault) (m' : Member σ) (taken : List UInt8)
      (hsplit : rest m.stream.source = taken ++ rest m'.stream.source)
      (hfew : leftover.length + taken.length < trailerSize)
      (hawaits : Awaits valid out leftover m')
      (hless : Source.left m'.stream.source < Source.left m.stream.source)
      (hbreaks : Breaks valid rest (rest m'.stream.source)) :
      Attempt valid rest out leftover m (.error fault, m')

-- What getting hold of the trailer comes to.
inductive Trailer (valid : σ → Prop) (rest : σ → List UInt8) (out leftover : List UInt8)
    (m : Member σ) : Except Fault ByteArray × Member σ → Prop where
  | whole (trailer : ByteArray) (m' : Member σ) (hsize : trailer.size = trailerSize)
      (htrailer : trailer.data.toList = (leftover ++ rest m.stream.source).take trailerSize)
      (hawaits : Awaits valid out leftover m')
      (hrest : rest m'.stream.source =
        (rest m.stream.source).drop (trailerSize - leftover.length)) :
      Trailer valid rest out leftover m (.ok trailer, m')
  | failed (fault : Fault) (m' : Member σ)
      (hattempt : Attempt valid rest out leftover m (.error fault, m')) :
      Trailer valid rest out leftover m (.error fault, m')

theorem Awaits.readTrailer (h : Awaits valid out leftover m) (hsteady : Steady valid rest) :
    Trailer valid rest out leftover m m.readTrailer := by
  have hlength : m.stream.decoder.unread.size = leftover.length := by
    rw [← h.unread, Bits.Reader.length_toList]
  rw [Member.readTrailer]
  dsimp only
  by_cases hall : trailerSize ≤ m.stream.decoder.unread.size
  · rw [if_pos hall]
    have hsize : (m.stream.decoder.unread.extract 0 trailerSize).size = trailerSize := by
      rw [ByteArray.size_extract]
      omega
    refine .whole _ m hsize ?_ h ?_
    · rw [Bytes.toList_extract, List.drop_zero, Nat.sub_zero, h.unread,
        List.take_append_of_le_length (by omega)]
    · have hnone : trailerSize - leftover.length = 0 := by omega
      rw [hnone, List.drop_zero]
  · rw [if_neg hall]
    have hfetches := hsteady.readExactly h.valid "GZIP trailer"
      (trailerSize - m.stream.decoder.unread.size)
    obtain ⟨header, ⟨source, decoder, ended⟩, crc, size, verified⟩ := m
    dsimp only at hlength hall hfetches ⊢
    generalize Source.readExactly "GZIP trailer" source (trailerSize - decoder.unread.size) = result
      at hfetches
    have hkeeps : ∀ next, valid next →
        Awaits valid out leftover ⟨header, ⟨next, decoder, ended⟩, crc, size, verified⟩ :=
      fun next hvalid => ⟨hvalid, h.finished, h.unread, h.sums.crc, h.sums.size, h.sums.unverified⟩
    cases hfetches with
    | whole bytes next hvalid hsize hsplit =>
        have hsplit : rest source = bytes.data.toList ++ rest next := hsplit
        have hbytes : bytes.data.toList.length = trailerSize - leftover.length := by
          rw [Bits.Reader.length_toList, hsize, hlength]
        have htotal : (leftover ++ bytes.data.toList).length = trailerSize := by
          rw [List.length_append, hbytes]
          omega
        refine .whole _ _ ?_ ?_ (hkeeps next hvalid) ?_
        · rw [ByteArray.size_append, hsize]
          omega
        · rw [ByteArray.data_append, Array.toList_append, h.unread, hsplit, ← List.append_assoc,
            List.take_left' htotal]
        · rw [hsplit, List.drop_left' hbytes]
    | short next hvalid hfew hnone =>
        have hfew : (rest source).length < trailerSize - leftover.length := by
          rw [ByteArray.size_empty] at hfew
          omega
        refine .failed _ _ (.wrong _ _ (fun htrailer => ?_) rfl (hkeeps next hvalid) ?_)
        · have hlong : trailerSize ≤ (leftover ++ rest source).length := htrailer.length
          rw [List.length_append] at hlong
          omega
        · rw [List.drop_of_length_le (Nat.le_of_lt hfew)]
          exact hnone
    | broken fault next taken hvalid hsplit hfew hless hbreaks =>
        refine .failed _ _ (.broken _ _ taken hsplit ?_ (hkeeps next hvalid) hless hbreaks)
        rw [ByteArray.size_empty] at hfew
        omega

theorem Awaits.verify (h : Awaits valid out leftover m) (hsteady : Steady valid rest) :
    Attempt valid rest out leftover m m.verify := by
  have htrailer := h.readTrailer hsteady
  rw [Member.verify]
  generalize m.readTrailer = result at htrailer
  cases htrailer with
  | whole trailer m' hsize htrailer hawaits hrest =>
      have hcheck := hawaits.sums.check hsize
      rw [htrailer, hasTrailer_take] at hcheck
      dsimp only
      by_cases hcrc : UInt32.ofNat (Bytes.le trailer 0 4) = m'.crc.value
      · rw [if_neg (not_not.mpr hcrc)]
        by_cases hlast : Bytes.le trailer 4 4 = m'.size % sizeModulus
        · rw [if_neg (not_not.mpr hlast)]
          exact .right _ (hcheck.mp ⟨hcrc, hlast⟩) rfl
        · rw [if_pos hlast]
          exact .wrong _ m' (fun h => hlast (hcheck.mpr h).2) rfl hawaits hrest
      · rw [if_pos hcrc]
        exact .wrong _ m' (fun h => hcrc (hcheck.mpr h).1) rfl hawaits hrest
  | failed fault m' hattempt => exact hattempt

end Member

end Unpack.Gzip
