import Unpack.Bits.Reader
import Unpack.Proofs.Bits.BitList

namespace Unpack.Bits.Reader

-- The bits that are left. What has been looked at plays no part in it.
def bits (r : Reader) : List Bool :=
  (ofBytes r.bytes.data.toList).drop r.position

theorem position_le_size (r : Reader) : r.position ≤ 8 * r.bytes.size := by
  have := r.position_le
  have := r.fetched_le
  omega

theorem length_toList (bytes : ByteArray) : bytes.data.toList.length = bytes.size := rfl

@[simp] theorem length_bits (r : Reader) : r.bits.length = r.available := by
  simp only [bits, available, List.length_drop, length_ofBytes, length_toList]

-- Looking further ahead leaves the bits where they are.
@[simp] theorem bits_fetch (r : Reader) (n : Nat) : (r.fetch n).bits = r.bits := by
  unfold fetch
  dsimp only
  split <;> rfl

@[simp] theorem consumed_fetch (r : Reader) (n : Nat) : (r.fetch n).consumed = r.consumed := by
  unfold fetch
  dsimp only
  split <;> rfl

@[simp] theorem available_fetch (r : Reader) (n : Nat) : (r.fetch n).available = r.available := by
  rw [← length_bits, bits_fetch, length_bits]

@[simp] theorem look_fetch (r : Reader) (n m : Nat) : (r.fetch n).look m = r.look m := by
  unfold fetch
  dsimp only
  split <;> rfl

-- After a look, the bits that are there are within the fetched bytes.
theorem le_fetched_fetch (r : Reader) (n : Nat) :
    r.position + min n r.bits.length ≤ 8 * (r.fetch n).fetched := by
  have := r.position_le
  have := r.position_le_size
  simp only [length_bits, available]
  unfold fetch
  dsimp only
  split
  · simp only
    omega
  · omega

theorem position_fetch (r : Reader) (n : Nat) : (r.fetch n).position = r.position := by
  unfold fetch
  dsimp only
  split <;> rfl

theorem look_eq_some (r : Reader) (n : Nat) (hn : n ≤ r.bits.length) :
    r.look n = some (value (r.bits.take n)) := by
  have hsize := r.position_le_size
  have havailable := hn
  simp only [length_bits, available] at havailable
  have hfits : r.position + n ≤ 8 * r.bytes.size := by omega
  rw [look, if_pos hfits]
  dsimp only
  have hshift : ∀ bits : List Bool, bits.drop r.position =
      (bits.drop (8 * (r.position / 8))).drop (r.position % 8) := by
    intro bits
    rw [List.drop_drop]
    congr 1
    omega
  rw [Bytes.le_eq_value, ← take_ofBytes, ← drop_ofBytes, Nat.shiftRight_eq_div_pow, ← value_drop,
    Nat.one_shiftLeft, ← value_take, bits, hshift, List.drop_take, List.take_take]
  congr 3
  omega

theorem look_eq_none (r : Reader) (n : Nat) (hn : r.bits.length < n) : r.look n = none := by
  have hsize := r.position_le_size
  simp only [length_bits, available] at hn
  rw [look, if_neg (by omega)]

-- Consuming bits that have been looked at.
theorem bits_drop_fetch (r : Reader) (n k : Nat) (hk : k ≤ n) (hleft : k ≤ r.bits.length) :
    ((r.fetch n).drop k).bits = r.bits.drop k := by
  have hfetched := le_fetched_fetch r n
  have hposition := position_fetch r n
  have hbytes : (r.fetch n).bytes = r.bytes := by
    unfold fetch
    dsimp only
    split <;> rfl
  simp only [bits, drop, hbytes, hposition, List.drop_drop]
  congr 1
  omega

theorem consumed_drop_fetch (r : Reader) (n k : Nat) (hk : k ≤ n) (hleft : k ≤ r.bits.length) :
    ((r.fetch n).drop k).consumed = r.consumed + k := by
  have hfetched := le_fetched_fetch r n
  have hposition := position_fetch r n
  have hreleased : (r.fetch n).released = r.released := by
    unfold fetch
    dsimp only
    split <;> rfl
  simp only [consumed, drop, hreleased, hposition]
  omega

theorem read_of_le (r : Reader) (n : Nat) (hn : n ≤ r.bits.length) :
    ∃ next, r.read n = (some (value (r.bits.take n)), next) ∧ next.bits = r.bits.drop n ∧
      next.consumed = r.consumed + n := by
  refine ⟨(r.fetch n).drop n, ?_, bits_drop_fetch r n n (Nat.le_refl n) hn,
    consumed_drop_fetch r n n (Nat.le_refl n) hn⟩
  simp only [read, look_eq_some r n hn]

theorem read_of_lt (r : Reader) (n : Nat) (hn : r.bits.length < n) :
    ∃ next, r.read n = (none, next) ∧ next.bits = r.bits ∧ next.consumed = r.consumed := by
  refine ⟨r.fetch n, ?_, bits_fetch r n, consumed_fetch r n⟩
  simp only [read, look_eq_none r n hn]

-- Bytes are whole, so what is left of the current byte is what is left beyond
-- a multiple of eight.
theorem bits_align (r : Reader) : r.align.bits = r.bits.drop (r.bits.length % 8) := by
  have hsize := r.position_le_size
  simp only [length_bits, available]
  simp only [bits, align, List.drop_drop]
  congr 1
  omega

theorem consumed_align (r : Reader) :
    r.align.consumed = r.consumed + r.bits.length % 8 := by
  have hsize := r.position_le_size
  simp only [length_bits, available, consumed, align]
  omega

theorem bits_release (r : Reader) : r.release.bits = r.bits := by
  have hsize := r.position_le_size
  simp only [bits, release, Bytes.toList_extract]
  rw [← length_toList, ← List.length_drop, List.take_length, ← drop_ofBytes, List.drop_drop]
  congr 1
  omega

theorem consumed_release (r : Reader) : r.release.consumed = r.consumed := by
  simp only [consumed, release]
  omega

theorem bits_feed (r : Reader) (data : ByteArray) :
    (r.feed data).bits = r.bits ++ ofBytes data.data.toList := by
  have happend : ∀ r : Reader, (ofBytes (r.bytes ++ data).data.toList).drop r.position =
      r.bits ++ ofBytes data.data.toList := by
    intro r
    have hsize := r.position_le_size
    rw [ByteArray.data_append, Array.toList_append, ofBytes_append,
      List.drop_append_of_le_length (by simpa [length_toList] using hsize)]
    rfl
  unfold feed
  dsimp only
  split
  · exact (happend r.release).trans (by rw [bits_release])
  · exact happend r

theorem consumed_feed (r : Reader) (data : ByteArray) : (r.feed data).consumed = r.consumed := by
  unfold feed
  dsimp only
  split
  · exact consumed_release r
  · rfl

-- The whole bytes that are left, as bits.
theorem ofBytes_rest (r : Reader) :
    ofBytes r.rest.data.toList = r.bits.drop (r.bits.length % 8) := by
  have hsize := r.position_le_size
  simp only [length_bits, available]
  simp only [rest, bits, Bytes.toList_extract]
  rw [← length_toList, ← List.length_drop, List.take_length, ← drop_ofBytes, List.drop_drop]
  congr 1
  rw [length_toList]
  omega

theorem toList_take (r : Reader) (n : Nat) :
    (r.take n).1.data.toList = r.rest.data.toList.take n := by
  simp only [take, rest, Bytes.toList_extract,
    List.take_take]
  rw [List.take_eq_take_iff, List.length_drop, length_toList]
  omega

theorem toList_rest_take (r : Reader) (n : Nat) :
    (r.take n).2.rest.data.toList = r.rest.data.toList.drop n := by
  simp only [take, rest, Bytes.toList_extract,
    List.drop_take, List.drop_drop]
  have hkept : ∀ start count, r.bytes.size - start ≤ count →
      (r.bytes.data.toList.drop start).length ≤ count := by
    intro start count hcount
    rw [List.length_drop, length_toList]
    exact hcount
  rw [List.take_of_length_le (hkept _ _ (Nat.le_refl _)),
    List.take_of_length_le (hkept _ _ (by omega))]
  rcases Nat.le_total ((r.position + 7) / 8 + n) r.bytes.size with h | h
  · congr 1
    omega
  · rw [List.drop_of_length_le (by rw [length_toList]; omega),
      List.drop_of_length_le (by rw [length_toList]; omega)]

-- Bytes taken from a byte boundary on are the next bits.
theorem take_of_aligned (r : Reader) (n : Nat) (haligned : r.bits.length % 8 = 0) :
    (r.take n).1.size = min n (r.bits.length / 8) ∧
    ofBytes (r.take n).1.data.toList = r.bits.take (8 * (r.take n).1.size) ∧
    (r.take n).2.bits = r.bits.drop (8 * (r.take n).1.size) ∧
    (r.take n).2.consumed = r.consumed + 8 * (r.take n).1.size := by
  have hsize := r.position_le_size
  simp only [length_bits, available] at haligned
  have hcount : (r.take n).1.size = min n (r.bits.length / 8) := by
    simp only [take, ByteArray.size_extract, length_bits, available]
    omega
  refine ⟨hcount, ?_, ?_, ?_⟩
  · rw [hcount]
    simp only [length_bits, available]
    simp only [take, bits, Bytes.toList_extract]
    rw [← take_ofBytes, ← drop_ofBytes]
    congr 1
    · omega
    · congr 1
      omega
  · rw [hcount]
    simp only [length_bits, available]
    simp only [take, bits, List.drop_drop]
    congr 1
    omega
  · rw [hcount]
    simp only [length_bits, available]
    simp only [take, consumed]
    omega

theorem isStarved_take (r : Reader) (n : Nat) (haligned : r.bits.length % 8 = 0)
    (hall : (r.take n).1.size = r.bits.length / 8) : (r.take n).2.isStarved = true := by
  have hsize := r.position_le_size
  simp only [length_bits, available] at haligned hall
  simp only [take, ByteArray.size_extract] at hall
  apply decide_eq_true
  simp only [take]
  omega

-- What was looked at stays when more bits come.
theorem look_of_prefix {r more : Reader} (hfront : r.bits <+: more.bits) {n v : Nat}
    (hlook : r.look n = some v) : more.look n = some v := by
  by_cases hn : n ≤ r.bits.length
  · obtain ⟨back, hback⟩ := hfront
    have hmore : n ≤ more.bits.length := by
      rw [← hback, List.length_append]
      omega
    rw [look_eq_some r n hn] at hlook
    rw [look_eq_some more n hmore, ← hback, List.take_append_of_le_length hn]
    exact hlook
  · rw [look_eq_none r n (Nat.lt_of_not_le hn)] at hlook
    cases hlook

end Unpack.Bits.Reader
