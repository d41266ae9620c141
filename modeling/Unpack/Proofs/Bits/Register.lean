import Unpack.Bits.Register
import Unpack.Proofs.Bits.Advance
import Unpack.Proofs.Bits.Words

namespace Unpack.Bits

theorem toList_foldl_push {α : Type*} (f : α → UInt8) (items : List α) (out : ByteArray) :
    (items.foldl (fun out item => out.push (f item)) out).data.toList =
      out.data.toList ++ items.map f := by
  induction items generalizing out with
  | nil => simp
  | cons item items ih =>
      rw [List.foldl_cons, ih, ByteArray.data_push, Array.toList_push, List.append_assoc,
        List.singleton_append, List.map_cons]

namespace Reader

attribute [ext] Reader

theorem drop_zero (r : Reader) : r.drop 0 = r :=
  Reader.ext rfl rfl (Nat.min_eq_left r.position_le) rfl

theorem drop_drop (r : Reader) (n m : Nat) : (r.drop n).drop m = r.drop (n + m) := by
  apply Reader.ext
  · rfl
  · rfl
  · simp only [drop]
    omega
  · rfl

theorem bytes_fetch (r : Reader) (n : Nat) : (r.fetch n).bytes = r.bytes := by
  unfold fetch
  dsimp only
  split <;> rfl

theorem released_fetch (r : Reader) (n : Nat) : (r.fetch n).released = r.released := by
  unfold fetch
  dsimp only
  split <;> rfl

theorem fetched_fetch (r : Reader) (n : Nat) :
    (r.fetch n).fetched = max r.fetched (min r.bytes.size ((r.position + n + 7) / 8)) := by
  unfold fetch
  dsimp only
  split
  · rfl
  · omega

theorem fetch_of_le (r : Reader) {n : Nat}
    (hle : min r.bytes.size ((r.position + n + 7) / 8) ≤ r.fetched) : r.fetch n = r := by
  rw [fetch]
  exact if_neg (Nat.not_lt.mpr hle)

-- A longer look covers a shorter one.
theorem fetch_fetch (r : Reader) {n m : Nat} (hn : n ≤ m) : (r.fetch n).fetch m = r.fetch m := by
  apply Reader.ext
  · simp only [bytes_fetch]
  · simp only [released_fetch]
  · simp only [position_fetch]
  · simp only [fetched_fetch, bytes_fetch, position_fetch]
    omega

end Reader

namespace Register

theorem low_eq (g : Register) {n : Nat} (hn : n < 32) : g.low n = g.buffer.toNat % 2 ^ n := by
  rw [low, UInt32.toNat_and, toNat_ones hn, Nat.and_two_pow_sub_one_eq_mod]

-- A register and a reader at the same place. What the register holds is what
-- the reader looked at and did not consume.
structure Shows (g : Register) (r : Reader) : Prop where
  consumed : g.consumed = r.consumed
  held : r.position + g.held = 8 * r.fetched
  few : g.held < 24
  buffer : g.buffer.toNat = value (r.bits.take g.held)
  bytes : g.input.data.toList.drop g.next = r.bytes.data.toList.drop r.fetched

theorem shows_empty : Shows empty Reader.empty :=
  ⟨rfl, rfl, by decide, rfl, rfl⟩

namespace Shows

variable {g : Register} {r : Reader}

-- As many bytes are left to be moved as to be looked at.
theorem size_sub (h : Shows g r) : g.input.size - g.next = r.bytes.size - r.fetched := by
  have hlength := congrArg List.length h.bytes
  rwa [List.length_drop, List.length_drop, Reader.length_toList, Reader.length_toList] at hlength

theorem available_eq (h : Shows g r) : g.available = r.bits.length := by
  have := h.size_sub
  have := h.held
  have := r.fetched_le
  simp only [Register.available, Reader.length_bits, Reader.available]
  omega

theorem held_le (h : Shows g r) : g.held ≤ r.bits.length := by
  have := h.available_eq
  simp only [Register.available] at this
  omega

theorem buffer_lt (h : Shows g r) : g.buffer.toNat < 2 ^ g.held := by
  have hlt := value_lt (r.bits.take g.held)
  rwa [List.length_take, Nat.min_eq_left h.held_le, ← h.buffer] at hlt

theorem isStarved_eq (h : Shows g r) : g.isStarved = r.isStarved := by
  have := h.size_sub
  have := g.next_le
  have := r.fetched_le
  simp only [Register.isStarved, Reader.isStarved]
  congr 1
  rw [eq_iff_iff]
  omega

theorem availableBytes_eq (h : Shows g r) : g.availableBytes = r.availableBytes := by
  have := h.size_sub
  have := h.held
  have := r.fetched_le
  simp only [Register.availableBytes, Reader.availableBytes, Reader.available]
  omega

-- The bits held and the bytes not moved make up the bits that are left.
theorem bits_drop_held (h : Shows g r) :
    r.bits.drop g.held = ofBytes (g.input.data.toList.drop g.next) := by
  rw [h.bytes, ← drop_ofBytes, ← h.held, Reader.bits, List.drop_drop]

theorem drop (h : Shows g r) {n : Nat} (hn : n ≤ g.held) : Shows (g.drop n) (r.drop n) := by
  have hheld := h.held
  have hfew := h.few
  have hposition : (r.drop n).position = r.position + n := by
    simp only [Reader.drop]
    omega
  have hbits : (r.drop n).bits = r.bits.drop n := by
    simp only [Reader.bits, hposition, List.drop_drop]
    rfl
  refine ⟨?_, ?_, ?_, ?_, h.bytes⟩
  · simp only [Register.drop, Reader.consumed, hposition, h.consumed]
    simp only [Reader.drop]
    omega
  · rw [hposition]
    simp only [Register.drop, Reader.drop]
    omega
  · simp only [Register.drop]
    omega
  · simp only [Register.drop]
    rw [toNat_shiftRight _ (by omega), h.buffer, hbits, ← value_drop, List.drop_take]

theorem load (h : Shows g r) (hroom : g.held < 16) (inside : g.next < g.input.size) :
    Shows (g.load inside) (r.fetch (g.held + 1)) := by
  have hheld := h.held
  have hsize := h.size_sub
  have hlist : g.next < g.input.data.toList.length := inside
  have hfetched : (r.fetch (g.held + 1)).fetched = r.fetched + 1 := by
    rw [Reader.fetched_fetch]
    omega
  refine ⟨?_, ?_, ?_, ?_, ?_⟩
  · rw [Reader.consumed_fetch]
    exact h.consumed
  · rw [Reader.position_fetch, hfetched]
    simp only [Register.load]
    omega
  · simp only [Register.load]
    omega
  · have hbyte : (r.bits.drop g.held).take 8 = ofByte g.input[g.next] := by
      rw [h.bits_drop_held, List.drop_eq_getElem_cons hlist, ofBytes_cons,
        List.take_left' (length_ofByte _), Array.getElem_toList, ByteArray.getElem_eq_getElem_data]
    rw [Reader.bits_fetch]
    simp only [Register.load]
    rw [toNat_or_shiftLeft (by omega) h.buffer_lt, List.take_add, value_append, hbyte, value_ofByte,
      List.length_take, Nat.min_eq_left h.held_le, h.buffer]
  · rw [Reader.bytes_fetch, hfetched, List.drop_add_one_eq_tail_drop, ← h.bytes,
      ← List.drop_add_one_eq_tail_drop]
    rfl

-- Filling is looking ahead, and tells whether there is so much to look at.
theorem fill (h : Shows g r) {n : Nat} (hn : n ≤ 16) :
    (g.fill n).1 = decide (n ≤ r.bits.length) ∧ Shows (g.fill n).2 (r.fetch n) ∧
      ((g.fill n).1 = true → n ≤ (g.fill n).2.held) := by
  fun_induction Register.fill g n generalizing r with
  | case1 g hless inside ih =>
      obtain ⟨hanswer, hshows, hheld⟩ := ih (h.load (by omega) inside)
      rw [Reader.bits_fetch] at hanswer
      rw [Reader.fetch_fetch r (by omega)] at hshows
      exact ⟨hanswer, hshows, hheld⟩
  | case2 g hless outside =>
      have hall : r.bits.length = g.held := by
        rw [← h.available_eq, Register.available]
        omega
      have hsame : r.fetch n = r := by
        apply Reader.fetch_of_le
        have := h.size_sub
        have := r.fetched_le
        omega
      rw [hall, hsame]
      exact ⟨(decide_eq_false (by omega)).symm, h, fun htrue => Bool.noConfusion htrue⟩
  | case3 g hheld =>
      have hsame : r.fetch n = r := by
        apply Reader.fetch_of_le
        have := h.held
        omega
      rw [hsame]
      have := h.held_le
      exact ⟨(decide_eq_true (by omega)).symm, h, fun _ => Nat.le_of_not_lt hheld⟩

theorem low_eq_value (h : Shows g r) {n : Nat} (hn : n ≤ g.held) :
    g.low n = value (r.bits.take n) := by
  have := h.few
  rw [Register.low_eq g (by omega), h.buffer, ← value_take, List.take_take, Nat.min_eq_left hn]

theorem peek (h : Shows g r) {n : Nat} (hn : n ≤ 16) :
    (g.peek n).1 = (r.peek n).1 ∧ Shows (g.peek n).2 (r.peek n).2 ∧
      ((g.peek n).1.isSome → n ≤ (g.peek n).2.held) := by
  obtain ⟨hanswer, hshows, hheld⟩ := h.fill hn
  unfold Register.peek Reader.peek
  rcases hfill : g.fill n with ⟨filled, next⟩
  rw [hfill] at hanswer hshows hheld
  cases filled with
  | true =>
      have hleft : n ≤ r.bits.length := of_decide_eq_true hanswer.symm
      have hlow := hshows.low_eq_value (hheld rfl)
      rw [Reader.bits_fetch] at hlow
      exact ⟨(congrArg some hlow).trans (Reader.look_eq_some r n hleft).symm, hshows,
        fun _ => hheld rfl⟩
  | false =>
      have hfew : ¬n ≤ r.bits.length := of_decide_eq_false hanswer.symm
      exact ⟨(Reader.look_eq_none r n (Nat.lt_of_not_le hfew)).symm, hshows,
        fun hsome => Bool.noConfusion hsome⟩

theorem align (h : Shows g r) : Shows g.align r.align := by
  have hheld := h.held
  have hsame : r.align = r.drop (g.held % 8) := by
    apply Reader.ext
    · rfl
    · rfl
    · simp only [Reader.align, Reader.drop]
      omega
    · rfl
  rw [hsame]
  exact h.drop (Nat.mod_le _ _)

-- Letting go of bytes goes unnoticed on both sides.
theorem compact (h : Shows g r) : Shows g.compact r := by
  refine ⟨h.consumed, h.held, h.few, h.buffer, ?_⟩
  rw [← h.bytes]
  simp only [Register.compact, Bytes.toList_extract, List.drop_zero]
  exact List.take_of_length_le (by rw [List.length_drop, Reader.length_toList])

theorem release (h : Shows g r) : Shows g r.release := by
  have hheld := h.held
  have hfetched := r.fetched_le
  refine ⟨?_, ?_, h.few, ?_, ?_⟩
  · rw [Reader.consumed_release]
    exact h.consumed
  · simp only [Reader.release]
    omega
  · rw [Reader.bits_release]
    exact h.buffer
  · simp only [Reader.release, Bytes.toList_extract]
    rw [List.drop_take, List.drop_drop, List.take_of_length_le
      (by rw [List.length_drop, Reader.length_toList]; omega), h.bytes]
    congr 1
    have := r.position_le
    omega

theorem append (h : Shows g r) {data : ByteArray} {next : Reader}
    (hbytes : next.bytes = r.bytes ++ data) (hreleased : next.released = r.released)
    (hposition : next.position = r.position) (hfetched : next.fetched = r.fetched) :
    Shows (g.append data) next := by
  have hsize := r.position_le_size
  have hbits : next.bits = r.bits ++ ofBytes data.data.toList := by
    rw [Reader.bits, hbytes, hposition, ByteArray.data_append, Array.toList_append, ofBytes_append,
      List.drop_append_of_le_length (by simpa [Reader.length_toList] using hsize), Reader.bits]
  refine ⟨?_, ?_, h.few, ?_, ?_⟩
  · rw [Reader.consumed, hreleased, hposition]
    exact h.consumed
  · rw [hposition, hfetched]
    exact h.held
  · rw [hbits]
    exact h.buffer.trans (congrArg value (List.take_append_of_le_length h.held_le).symm)
  · rw [hbytes, hfetched, ByteArray.data_append, Array.toList_append,
      List.drop_append_of_le_length r.fetched_le, ← h.bytes]
    simp only [Register.append, ByteArray.data_append, Array.toList_append]
    exact List.drop_append_of_le_length g.next_le

theorem feed (h : Shows g r) (data : ByteArray) : Shows (g.feed data) (r.feed data) := by
  unfold Register.feed Reader.feed
  dsimp only
  split <;> split
  · exact h.compact.release.append rfl rfl rfl rfl
  · exact h.compact.append rfl rfl rfl rfl
  · exact h.release.append rfl rfl rfl rfl
  · exact h.append rfl rfl rfl rfl

-- The bytes that are left begin with those of the buffer.
theorem toList_rest (h : Shows g r) :
    r.rest.data.toList.drop (g.held / 8) = g.input.data.toList.drop g.next := by
  have := h.held
  rw [h.bytes, Reader.rest, Bytes.toList_extract,
    List.take_of_length_le (by rw [List.length_drop, Reader.length_toList]), List.drop_drop]
  congr 1
  omega

theorem bits_eq_ofBytes (h : Shows g r) (haligned : g.held % 8 = 0) :
    r.bits = ofBytes r.rest.data.toList := by
  have hlength := h.available_eq
  rw [Register.available] at hlength
  have hwhole : r.bits.length % 8 = 0 := by omega
  rw [r.ofBytes_rest, hwhole, List.drop_zero]

theorem toList_rest_drop (h : Shows g r) (haligned : g.held % 8 = 0) {n : Nat}
    (hn : n ≤ g.held / 8) :
    (r.drop (8 * n)).rest.data.toList = r.rest.data.toList.drop n := by
  have := h.held
  have := r.fetched_le
  simp only [Reader.rest, Reader.drop, Bytes.toList_extract]
  rw [List.take_of_length_le (by rw [List.length_drop, Reader.length_toList]),
    List.take_of_length_le (by rw [List.length_drop, Reader.length_toList]), List.drop_drop]
  congr 1
  omega

-- The first byte of the buffer.
theorem toUInt8_buffer (h : Shows g r) (haligned : g.held % 8 = 0) (hheld : 8 ≤ g.held) :
    ∃ later, r.rest.data.toList = g.buffer.toUInt8 :: later := by
  have hlength := h.held_le
  rw [h.bits_eq_ofBytes haligned, length_ofBytes] at hlength
  cases hrest : r.rest.data.toList with
  | nil =>
      rw [hrest, List.length_nil] at hlength
      omega
  | cons byte later =>
      refine ⟨later, congrArg (· :: later) (UInt8.toNat_inj.mp ?_)⟩
      have hbyte : value ((r.bits.take g.held).take 8) = byte.toNat := by
        rw [List.take_take, Nat.min_eq_left hheld, h.bits_eq_ofBytes haligned, hrest, ofBytes_cons,
          List.take_left' (length_ofByte byte), value_ofByte]
      rw [← hbyte, value_take, ← h.buffer, UInt32.toNat_toUInt8]

theorem shed (h : Shows g r) (haligned : g.held % 8 = 0) (out : ByteArray) (n : Nat) :
    (g.shed out n).1.data.toList =
        out.data.toList ++ r.rest.data.toList.take (min n (g.held / 8)) ∧
      Shows (g.shed out n).2 (r.drop (8 * min n (g.held / 8))) ∧
      (g.shed out n).2.held = g.held - 8 * min n (g.held / 8) := by
  induction n generalizing g r out with
  | zero =>
      rw [Nat.zero_min, List.take_zero, List.append_nil, Nat.mul_zero, Reader.drop_zero]
      exact ⟨rfl, h, rfl⟩
  | succ n ih =>
      unfold Register.shed
      by_cases hheld : 8 ≤ g.held
      · obtain ⟨later, hlater⟩ := h.toUInt8_buffer haligned hheld
        have hnext : (r.drop 8).rest.data.toList = later := by
          have hdrop := h.toList_rest_drop haligned (n := 1) (by omega)
          rwa [hlater, List.drop_succ_cons, List.drop_zero] at hdrop
        have hcount : min (n + 1) (g.held / 8) = min n ((g.drop 8).held / 8) + 1 := by
          simp only [Register.drop]
          omega
        obtain ⟨hbytes, hshows, hleft⟩ :=
          ih (h.drop hheld) (by simp only [Register.drop]; omega) (out.push g.buffer.toUInt8)
        rw [if_pos hheld, hcount]
        refine ⟨?_, ?_, ?_⟩
        · rw [hbytes, hnext, hlater, List.take_succ_cons, ByteArray.data_push, Array.toList_push,
            List.append_assoc, List.singleton_append]
        · rwa [Reader.drop_drop, Nat.add_comm 8] at hshows
        · rw [hleft]
          simp only [Register.drop]
          omega
      · have hnone : g.held / 8 = 0 := by omega
        rw [if_neg hheld, hnone, Nat.min_zero, List.take_zero, List.append_nil, Nat.mul_zero,
          Reader.drop_zero]
        exact ⟨rfl, h, rfl⟩

-- Bytes that were not moved are skipped once nothing is held.
theorem skip (h : Shows g r) {n : Nat} (inside : g.next + n ≤ g.input.size)
    (hempty : n = 0 ∨ g.held = 0) {next : Reader} (hbytes : next.bytes = r.bytes)
    (hreleased : next.released = r.released) (hposition : next.position = r.position + 8 * n)
    (hfetched : next.fetched = r.fetched + n) : Shows (g.skip n inside) next := by
  have hheld := h.held
  have hconsumed := h.consumed
  refine ⟨?_, ?_, h.few, ?_, ?_⟩
  · simp only [Register.skip, Reader.consumed, hreleased, hposition] at *
    omega
  · simp only [Register.skip, hposition, hfetched]
    omega
  · rcases hempty with rfl | hnone
    · have hbits : next.bits = r.bits := by rw [Reader.bits, hbytes, hposition, Reader.bits, Nat.add_zero]
      rw [hbits]
      exact h.buffer
    · have hbuffer := h.buffer
      rw [hnone, List.take_zero] at hbuffer
      simp only [Register.skip, hnone, List.take_zero, hbuffer]
  · rw [hbytes, hfetched, ← List.drop_drop, ← h.bytes, List.drop_drop]
    rfl

theorem take (h : Shows g r) (haligned : g.held % 8 = 0) (n : Nat) :
    (g.take n).1.data.toList = (r.take n).1.data.toList ∧ Shows (g.take n).2 (r.take n).2 := by
  obtain ⟨hfront, hshows, hleft⟩ := h.shed haligned ByteArray.empty n
  have hrest := h.toList_rest
  have hheld := h.held
  have hfetched := r.fetched_le
  have hdirect := hshows.size_sub
  have hsize : (g.shed ByteArray.empty n).1.size = min n (g.held / 8) := by
    have hlength := congrArg List.length (h.bits_eq_ofBytes haligned)
    have hle := h.held_le
    rw [length_ofBytes] at hlength
    rw [← Reader.length_toList, hfront, ByteArray.data_empty, List.nil_append, List.length_take]
    omega
  unfold Register.take
  dsimp only
  constructor
  · rw [ByteArray.data_append, Array.toList_append, hfront, Bytes.toList_extract, hshows.bytes,
      hsize, hdirect, Reader.toList_take, ByteArray.data_empty, List.nil_append]
    simp only [Reader.drop, Nat.add_sub_cancel_left]
    rcases Nat.le_total n (g.held / 8) with hfew | hmany
    · rw [Nat.min_eq_left hfew, Nat.sub_self, Nat.zero_min, List.take_zero, List.append_nil]
    · rw [Nat.min_eq_right hmany, ← h.bytes, ← hrest, ← Reader.length_toList, ← List.length_drop,
        ← h.bytes, ← hrest, ← List.take_eq_take_min]
      exact (List.take_add.symm.trans (by rw [Nat.add_sub_cancel' hmany]))
  · apply hshows.skip
    · rw [hsize, hleft]
      omega
    · rfl
    · rfl
    · rw [hsize, hdirect]
      simp only [Reader.take, Reader.drop]
      omega
    · rw [hsize, hdirect]
      simp only [Reader.take, Reader.drop]
      omega

theorem rest (h : Shows g r) : g.rest.data.toList = r.rest.data.toList := by
  have hfew := h.few
  have hlength := h.available_eq
  rw [Register.available] at hlength
  have hpartial : r.bits.length % 8 = g.held % 8 := by omega
  have hwhole : (r.bits.take g.held).drop (g.held % 8) =
      ofBytes (r.rest.data.toList.take (g.held / 8)) := by
    rw [← take_ofBytes, r.ofBytes_rest, hpartial, List.drop_take]
    congr 1
    omega
  have hcount : ((r.bits.take g.held).drop (g.held % 8)).length / 8 = g.held / 8 := by
    rw [List.length_drop, List.length_take, Nat.min_eq_left h.held_le]
    omega
  have hbuffer : (List.range (g.held / 8)).map (fun i =>
      ((g.buffer >>> UInt32.ofNat (g.held % 8)) >>> UInt32.ofNat (8 * i)).toUInt8) =
        r.rest.data.toList.take (g.held / 8) := by
    rw [← toBytes_ofBytes (r.rest.data.toList.take _), ← hwhole, toBytes, hcount]
    apply List.map_congr_left
    intro i hi
    have hlow := List.mem_range.mp hi
    apply UInt8.toNat_inj.mp
    rw [UInt32.toNat_toUInt8, toNat_shiftRight _ (by omega), toNat_shiftRight _ (by omega),
      h.buffer, Nat.toUInt8_eq, UInt8.toNat_ofNat', value_take _ 8, value_drop _ (8 * i),
      value_drop _ (g.held % 8), Nat.mod_mod]
  have hall : (g.input.data.toList.drop g.next).length ≤ g.input.size - g.next := by
    rw [List.length_drop, Reader.length_toList]
  unfold Register.rest
  dsimp only
  rw [ByteArray.data_append, Array.toList_append, Bytes.toList_extract, toList_foldl_push, hbuffer,
    ByteArray.data_empty, List.nil_append, List.take_of_length_le hall, ← h.toList_rest,
    List.take_append_drop]

end Shows

end Register

end Unpack.Bits
