import Unpack.Proofs.Source.Reliable
import Unpack.Source.RandomAccess
import Unpack.Zip.Directory
import Unpack.Zip.EntryStream

namespace Unpack

open Source (Reliable)

namespace Bytes

-- The bytes of a store from a position on.
def suffix (store : ByteArray) (position : Nat) : List UInt8 :=
  store.data.toList.drop position

theorem length_suffix (store : ByteArray) (position : Nat) :
    (suffix store position).length = store.size - position := by
  rw [suffix, List.length_drop, Bits.Reader.length_toList]

theorem size_piece (store : ByteArray) (position n : Nat) :
    (store.extract position (position + n)).size = min n (store.size - position) := by
  rw [ByteArray.size_extract]
  omega

-- What is read and what comes behind it.
theorem suffix_eq_append (store : ByteArray) (position n : Nat) :
    suffix store position = (store.extract position (position + n)).data.toList ++
      suffix store (position + (store.extract position (position + n)).size) := by
  have hpiece : (store.extract position (position + n)).data.toList =
      (suffix store position).take n := by
    rw [Bytes.toList_extract, Nat.add_sub_cancel_left, suffix]
  have hbehind : suffix store (position + min n (store.size - position)) =
      (suffix store position).drop n := by
    rw [suffix, suffix, List.drop_drop]
    by_cases hless : n ≤ store.size - position
    · rw [Nat.min_eq_left hless]
    · rw [List.drop_of_length_le, List.drop_of_length_le]
      · rw [Bits.Reader.length_toList]
        omega
      · rw [Bits.Reader.length_toList]
        omega
  rw [size_piece, hpiece, hbehind, List.take_append_drop]

theorem take_suffix_eq_append (store : ByteArray) (position : Nat) {n remaining : Nat}
    (hn : n ≤ remaining) :
    (suffix store position).take remaining = (store.extract position (position + n)).data.toList ++
      (suffix store (position + (store.extract position (position + n)).size)).take
        (remaining - (store.extract position (position + n)).size) := by
  have hfits : (store.extract position (position + n)).data.toList.length ≤ remaining := by
    rw [Bits.Reader.length_toList, size_piece]
    omega
  conv => lhs; rw [suffix_eq_append store position n]
  rw [List.take_append, List.take_of_length_le hfits, Bits.Reader.length_toList]

end Bytes

open Bytes (suffix)

-- Stores in memory are read without any failure.
theorem Cursor.reliable (store : ByteArray) :
    Reliable (fun c : Cursor ByteArray => c.store = store) fun c => suffix store c.position := by
  apply Source.reliable_of_answers
  rintro ⟨bytes, position⟩ n hstore
  obtain rfl : bytes = store := hstore
  have hsplit := Bytes.suffix_eq_append bytes position n
  have hsize := Bytes.size_piece bytes position n
  have hread : Source.read (⟨bytes, position⟩ : Cursor ByteArray) n =
      (.ok (bytes.extract position (position + n)),
        ⟨bytes, position + (bytes.extract position (position + n)).size⟩) := rfl
  generalize bytes.extract position (position + n) = piece at hsplit hsize hread
  refine ⟨piece, _, hread, rfl, fun hn => ⟨hsplit, ?_, fun hnone => ?_, ?_, fun hsome => ?_⟩⟩
  · omega
  · apply List.eq_nil_of_length_eq_zero
    rw [Bytes.length_suffix]
    dsimp only
    omega
  · show bytes.size - (position + piece.size) ≤ bytes.size - position
    omega
  · show bytes.size - (position + piece.size) < bytes.size - position
    omega

namespace Zip

-- A section ends where it ends, or where its store does.
theorem Section.reliable (store : ByteArray) :
    Reliable (fun s : Section ByteArray => s.cursor.store = store)
      fun s => (suffix store s.cursor.position).take s.remaining := by
  apply Source.reliable_of_answers
  rintro ⟨⟨bytes, position⟩, remaining⟩ n hstore
  obtain rfl : bytes = store := hstore
  by_cases hnone : n = 0 ∨ remaining = 0
  · refine ⟨ByteArray.empty, _, if_pos hnone, rfl, fun hn => ?_⟩
    obtain rfl : remaining = 0 := hnone.resolve_left (by omega)
    exact ⟨rfl, Nat.zero_le _, fun _ => rfl, Nat.le_refl _, fun h => absurd rfl h⟩
  · have hsplit := Bytes.take_suffix_eq_append bytes position (Nat.min_le_right n remaining)
    have hsize := Bytes.size_piece bytes position (min n remaining)
    have hread : Source.read (⟨⟨bytes, position⟩, remaining⟩ : Section ByteArray) n =
        (.ok (bytes.extract position (position + min n remaining)),
          ⟨⟨bytes, position + (bytes.extract position (position + min n remaining)).size⟩,
            remaining - (bytes.extract position (position + min n remaining)).size⟩) := if_neg hnone
    generalize bytes.extract position (position + min n remaining) = piece at hsplit hsize hread
    refine ⟨piece, _, hread, rfl, fun hn => ⟨hsplit, ?_, fun hempty => ?_, ?_, fun hsome => ?_⟩⟩
    · omega
    · apply List.eq_nil_of_length_eq_zero
      rw [List.length_take, Bytes.length_suffix]
      dsimp only
      omega
    · exact Nat.sub_le remaining piece.size
    · show remaining - piece.size < remaining
      omega

-- The data of an entry that lies within its store.
structure EntrySource.Within (store : ByteArray) (s : EntrySource ByteArray) : Prop where
  stored : s.store = some store
  fits : s.position + s.remaining ≤ store.size

theorem EntrySource.answers (store : ByteArray) (s : EntrySource ByteArray) (n : Nat)
    (h : s.Within store) :
    ∃ bytes next, Source.read s n = (.ok bytes, next) ∧ next.Within store ∧
      (0 < n →
        Source.Brings (fun s => (suffix store s.position).take s.remaining) s n bytes next) := by
  obtain ⟨stored, position, remaining⟩ := s
  obtain ⟨hopen, hfits⟩ := h
  obtain rfl : stored = some store := hopen
  dsimp only at hfits
  by_cases hnone : n = 0 ∨ remaining = 0
  · refine ⟨ByteArray.empty, _, if_pos hnone, ⟨rfl, hfits⟩, fun hn => ?_⟩
    obtain rfl : remaining = 0 := hnone.resolve_left (by omega)
    exact ⟨rfl, Nat.zero_le _, fun _ => rfl, Nat.le_refl _, fun h => absurd rfl h⟩
  · have hsplit := Bytes.take_suffix_eq_append store position (Nat.min_le_left remaining n)
    have hsize := Bytes.size_piece store position (min remaining n)
    have hread : Source.read (⟨some store, position, remaining⟩ : EntrySource ByteArray) n =
        if (store.extract position (position + min remaining n)).size = 0 then
          (.error (.unexpectedEnd "ZIP entry data"), ⟨some store, position, remaining⟩)
        else
          (.ok (store.extract position (position + min remaining n)),
            ⟨some store, position + (store.extract position (position + min remaining n)).size,
              remaining - (store.extract position (position + min remaining n)).size⟩) :=
      if_neg hnone
    generalize store.extract position (position + min remaining n) = piece at hsplit hsize hread
    have hsome : piece.size ≠ 0 := by omega
    rw [if_neg hsome] at hread
    refine ⟨piece, _, hread, ⟨rfl, ?_⟩, fun hn =>
      ⟨hsplit, ?_, fun hempty => absurd hempty hsome, ?_, fun _ => ?_⟩⟩
    · dsimp only
      omega
    · omega
    · exact Nat.sub_le remaining piece.size
    · show remaining - piece.size < remaining
      omega

theorem EntrySource.reliable (store : ByteArray) :
    Reliable (EntrySource.Within store) fun s => (suffix store s.position).take s.remaining :=
  Source.reliable_of_answers (EntrySource.answers store)

end Zip

end Unpack
