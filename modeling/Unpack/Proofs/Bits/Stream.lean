import Unpack.Proofs.Bits.Register

namespace Unpack.Bits

-- Every bit that was ever supplied, in order, and how many of them were
-- consumed. The next `shown` were looked at and may be dropped.
structure Stream where
  supplied : List Bool
  consumed : Nat
  shown : Nat

-- What can be asked of a reader, of a register, and of a list of bits in
-- their place.
inductive Call where
  | feed (data : ByteArray)
  | peek (n : Nat)
  | read (n : Nat)
  | drop (n : Nat)
  | align
  | take (n : Nat)
  | rest
  | available
  | consumed

inductive Answer where
  | done
  | number (number : Option Nat)
  | bytes (bytes : List UInt8)
  | count (count : Nat)
  deriving DecidableEq

def Reader.perform (r : Reader) : Call → Answer × Reader
  | .feed data => (.done, r.feed data)
  | .peek n =>
      let (number, r) := r.peek n
      (.number number, r)
  | .read n =>
      let (number, r) := r.read n
      (.number number, r)
  | .drop n => (.done, r.drop n)
  | .align => (.done, r.align)
  | .take n =>
      let (bytes, r) := r.take n
      (.bytes bytes.data.toList, r)
  | .rest => (.bytes r.rest.data.toList, r)
  | .available => (.count r.available, r)
  | .consumed => (.count r.consumed, r)

def Reader.run (r : Reader) : List Call → List Answer × Reader
  | [] => ([], r)
  | call :: calls =>
      let (answer, r) := r.perform call
      let (answers, r) := r.run calls
      (answer :: answers, r)

def Register.perform (g : Register) : Call → Answer × Register
  | .feed data => (.done, g.feed data)
  | .peek n =>
      let (number, g) := g.peek n
      (.number number, g)
  | .read n =>
      let (number, g) := g.read n
      (.number number, g)
  | .drop n => (.done, g.drop n)
  | .align => (.done, g.align)
  | .take n =>
      let (bytes, g) := g.take n
      (.bytes bytes.data.toList, g)
  | .rest => (.bytes g.rest.data.toList, g)
  | .available => (.count g.available, g)
  | .consumed => (.count g.consumed, g)

def Register.run (g : Register) : List Call → List Answer × Register
  | [] => ([], g)
  | call :: calls =>
      let (answer, g) := g.perform call
      let (answers, g) := g.run calls
      (answer :: answers, g)

namespace Stream

def empty : Stream := ⟨[], 0, 0⟩

-- The bits that are left.
def bits (s : Stream) : List Bool :=
  s.supplied.drop s.consumed

-- Bits up to the next multiple of eight of those consumed.
def gap (s : Stream) : Nat :=
  (8 - s.consumed % 8) % 8

def skip (s : Stream) (n : Nat) : Stream :=
  { s with consumed := s.consumed + n, shown := s.shown - n }

-- The next `n` bits as a number, if so many are left.
def look (s : Stream) (n : Nat) : Option Nat :=
  if n ≤ s.bits.length then some (value (s.bits.take n)) else none

def perform (s : Stream) : Call → Answer × Stream
  | .feed data => (.done, { s with supplied := s.supplied ++ ofBytes data.data.toList })
  | .peek n =>
      match s.look n with
      | some number => (.number (some number), { s with shown := max s.shown n })
      | none => (.number none, s)
  | .read n =>
      match s.look n with
      | some number => (.number (some number), s.skip n)
      | none => (.number none, s)
  | .drop n => (.done, s.skip n)
  | .align => (.done, s.skip s.gap)
  | .take n =>
      let count := min n (s.bits.length / 8)
      (.bytes (toBytes (s.bits.take (8 * count))), s.skip (8 * count))
  | .rest => (.bytes (toBytes (s.bits.drop s.gap)), s)
  | .available => (.count s.bits.length, s)
  | .consumed => (.count s.consumed, s)

def run (s : Stream) : List Call → List Answer × Stream
  | [] => ([], s)
  | call :: calls =>
      let (answer, s) := s.perform call
      let (answers, s) := s.run calls
      (answer :: answers, s)

-- At most sixteen bits are looked at together, no more are dropped than were
-- looked at, and bytes are taken from a byte boundary on.
def Allows (s : Stream) : Call → Prop
  | .peek n | .read n => n ≤ 16
  | .drop n => n ≤ s.shown
  | .take _ => s.consumed % 8 = 0
  | _ => True

def AllowsAll (s : Stream) : List Call → Prop
  | [] => True
  | call :: calls => s.Allows call ∧ (s.perform call).2.AllowsAll calls

instance decidableAllows (s : Stream) : (call : Call) → Decidable (s.Allows call)
  | .peek n | .read n => inferInstanceAs (Decidable (n ≤ 16))
  | .drop n => inferInstanceAs (Decidable (n ≤ s.shown))
  | .take _ => inferInstanceAs (Decidable (s.consumed % 8 = 0))
  | .feed _ | .align | .rest | .available | .consumed => isTrue trivial

instance decidableAllowsAll : (s : Stream) → (calls : List Call) → Decidable (s.AllowsAll calls)
  | _, [] => isTrue trivial
  | s, call :: calls =>
      have := decidableAllowsAll (s.perform call).2 calls
      inferInstanceAs (Decidable (s.Allows call ∧ (s.perform call).2.AllowsAll calls))

-- A register and a reader that stand where a list of bits stands.
structure Tracks (s : Stream) (g : Register) (r : Reader) : Prop where
  shows : g.Shows r
  bits : s.bits = r.bits
  whole : s.consumed ≤ s.supplied.length
  consumed : s.consumed = r.consumed
  shown : s.shown ≤ g.held

theorem tracks_empty : empty.Tracks .empty .empty :=
  ⟨Register.shows_empty, rfl, Nat.le_refl 0, rfl, Nat.le_refl 0⟩

-- They answer alike and still stand where it stands.
structure Agrees (s : Stream) (g : Register) (r : Reader) (call : Call) : Prop where
  register : (g.perform call).1 = (s.perform call).1
  reader : (r.perform call).1 = (s.perform call).1
  tracks : (s.perform call).2.Tracks (g.perform call).2 (r.perform call).2

namespace Tracks

variable {s : Stream} {g : Register} {r : Reader}

theorem look_eq (h : s.Tracks g r) (n : Nat) : s.look n = r.look n := by
  rw [look, h.bits]
  split
  · rename_i hn
    exact (r.look_eq_some n hn).symm
  · rename_i hn
    exact (r.look_eq_none n (Nat.lt_of_not_le hn)).symm

-- Bytes are whole, so the bits up to the next boundary are those beyond a
-- multiple of eight.
theorem gap_eq (h : s.Tracks g r) : s.gap = r.bits.length % 8 := by
  have := r.position_le_size
  rw [gap, h.consumed]
  simp only [Reader.consumed, Reader.length_bits, Reader.available]
  omega

theorem held_mod (h : s.Tracks g r) : g.held % 8 = r.bits.length % 8 := by
  have := h.shows.available_eq
  simp only [Register.available] at this
  omega

-- Moving ahead within the same bytes.
theorem skip (h : s.Tracks g r) {n : Nat} {g' : Register} {r' : Reader} (hshows : g'.Shows r')
    (hbytes : r'.bytes = r.bytes) (hreleased : r'.released = r.released)
    (hposition : r'.position = r.position + n) (hfetched : r.fetched ≤ r'.fetched) :
    (s.skip n).Tracks g' r' := by
  have hbits : r'.bits = r.bits.drop n := by
    rw [Reader.bits, Reader.bits, hbytes, hposition, List.drop_drop]
  refine ⟨hshows, ?_, ?_, ?_, ?_⟩
  · rw [hbits, ← h.bits, Stream.bits, Stream.bits, List.drop_drop]
    rfl
  · have hleft := congrArg List.length h.bits
    have hinside := r'.position_le_size
    have := h.whole
    rw [Stream.bits, List.length_drop, Reader.length_bits, Reader.available] at hleft
    rw [hbytes, hposition] at hinside
    simp only [Stream.skip]
    omega
  · rw [Stream.skip, h.consumed, Reader.consumed, Reader.consumed, hreleased, hposition,
      Nat.add_assoc]
  · have := h.shown
    have := h.shows.held
    have := hshows.held
    simp only [Stream.skip]
    omega

theorem feed (h : s.Tracks g r) (data : ByteArray) :
    Tracks { s with supplied := s.supplied ++ ofBytes data.data.toList } (g.feed data)
      (r.feed data) := by
  have hheld : (g.feed data).held = g.held := by
    unfold Register.feed
    split <;> rfl
  refine ⟨h.shows.feed data, ?_, ?_, ?_, ?_⟩
  · rw [r.bits_feed, ← h.bits, Stream.bits, Stream.bits, List.drop_append_of_le_length h.whole]
  · rw [List.length_append]
    exact Nat.le_add_right_of_le h.whole
  · rw [r.consumed_feed]
    exact h.consumed
  · rw [hheld]
    exact h.shown

-- Looking ahead changes nothing.
theorem fetch (h : s.Tracks g r) {n : Nat} {g' : Register} (hshows : g'.Shows (r.fetch n)) :
    s.Tracks g' (r.fetch n) := by
  refine h.skip (n := 0) hshows (r.bytes_fetch n) (r.released_fetch n) (r.position_fetch n) ?_
  rw [r.fetched_fetch]
  omega

theorem drop (h : s.Tracks g r) {n : Nat} (hn : n ≤ s.shown) : s.Agrees g r (.drop n) := by
  have hheld := Nat.le_trans hn h.shown
  have hspan := h.shows.held
  have hposition : (r.drop n).position = r.position + n := by
    simp only [Reader.drop]
    omega
  exact ⟨rfl, rfl, h.skip (h.shows.drop hheld) rfl rfl hposition (Nat.le_refl _)⟩

-- All three see the next `n` bits, or none of them does.
theorem look_cases (h : s.Tracks g r) {n : Nat} (hn : n ≤ 16) :
    (∃ number g', s.look n = some number ∧ r.look n = some number ∧
      g.peek n = (some number, g') ∧
      Tracks { s with shown := max s.shown n } g' (r.fetch n)) ∨
    (∃ g', s.look n = none ∧ r.look n = none ∧ g.peek n = (none, g') ∧
      s.Tracks g' (r.fetch n)) := by
  obtain ⟨hanswer, hshows, hheld⟩ := h.shows.peek hn
  have hnext := h.fetch hshows
  have hreader := h.look_eq n
  have hregister : (g.peek n).1 = s.look n := hanswer.trans hreader.symm
  cases hlook : s.look n with
  | some number =>
      rw [hlook] at hreader hregister
      rw [hregister] at hheld
      exact Or.inl ⟨number, (g.peek n).2, rfl, hreader.symm, Prod.ext hregister rfl,
        hshows, hnext.bits, hnext.whole, hnext.consumed, Nat.max_le.mpr ⟨hnext.shown, hheld rfl⟩⟩
  | none =>
      rw [hlook] at hreader hregister
      exact Or.inr ⟨(g.peek n).2, rfl, hreader.symm, Prod.ext hregister rfl, hnext⟩

theorem peek (h : s.Tracks g r) {n : Nat} (hn : n ≤ 16) : s.Agrees g r (.peek n) := by
  rcases h.look_cases hn with
    ⟨number, g', hlook, hreader, hregister, htracks⟩ | ⟨g', hlook, hreader, hregister, htracks⟩
  all_goals
    refine ⟨?_, ?_, ?_⟩ <;>
    simp only [Stream.perform, Register.perform, Reader.perform, Reader.peek, hlook, hreader,
      hregister, htracks]

-- What was seen can be consumed.
theorem read (h : s.Tracks g r) {n : Nat} (hn : n ≤ 16) : s.Agrees g r (.read n) := by
  rcases h.look_cases hn with
    ⟨number, g', hlook, hreader, hregister, htracks⟩ | ⟨g', hlook, hreader, hregister, htracks⟩
  · have hskip : (s.skip n).Tracks (g'.drop n) ((r.fetch n).drop n) := by
      have hdrop := (htracks.drop (n := n) (Nat.le_max_right _ _)).tracks
      have hless : s.shown - n ≤ max s.shown n - n := by omega
      exact ⟨hdrop.shows, hdrop.bits, hdrop.whole, hdrop.consumed, Nat.le_trans hless hdrop.shown⟩
    refine ⟨?_, ?_, ?_⟩ <;>
    simp only [Stream.perform, Register.perform, Reader.perform, Register.read, Reader.read, hlook,
      hreader, hregister, hskip]
  · refine ⟨?_, ?_, ?_⟩ <;>
    simp only [Stream.perform, Register.perform, Reader.perform, Register.read, Reader.read, hlook,
      hreader, hregister, htracks]

theorem align (h : s.Tracks g r) : s.Agrees g r .align := by
  have hspan := h.shows.held
  have hmod := h.held_mod
  have hposition : r.align.position = r.position + s.gap := by
    rw [h.gap_eq]
    simp only [Reader.align]
    omega
  exact ⟨rfl, rfl, h.skip h.shows.align rfl rfl hposition (Nat.le_refl _)⟩

theorem take (h : s.Tracks g r) {n : Nat} (haligned : s.consumed % 8 = 0) :
    s.Agrees g r (.take n) := by
  have hgap := h.gap_eq
  have hmod := h.held_mod
  rw [gap, haligned] at hgap
  obtain ⟨hbytes, hshows⟩ := h.shows.take (n := n) (by omega)
  obtain ⟨hsize, htaken, -, -⟩ := r.take_of_aligned n hgap.symm
  have hreader : (r.take n).1.data.toList =
      toBytes (s.bits.take (8 * min n (s.bits.length / 8))) := by
    rw [← toBytes_ofBytes (r.take n).1.data.toList, htaken, hsize, h.bits]
  have hposition : (r.take n).2.position = r.position + 8 * min n (s.bits.length / 8) := by
    have := r.position_le_size
    have hspan := h.shows.held
    rw [h.bits, r.length_bits]
    simp only [Reader.take, Reader.available]
    omega
  exact ⟨congrArg Answer.bytes (hbytes.trans hreader), congrArg Answer.bytes hreader,
    h.skip hshows rfl rfl hposition (Nat.le_max_left _ _)⟩

theorem rest (h : s.Tracks g r) : s.Agrees g r .rest := by
  have hreader : r.rest.data.toList = toBytes (s.bits.drop s.gap) := by
    rw [← toBytes_ofBytes r.rest.data.toList, r.ofBytes_rest, h.gap_eq, h.bits]
  exact ⟨congrArg Answer.bytes (h.shows.rest.trans hreader), congrArg Answer.bytes hreader, h⟩

theorem available (h : s.Tracks g r) : s.Agrees g r .available := by
  have hreader : r.available = s.bits.length := by rw [h.bits, r.length_bits]
  have hregister : g.available = s.bits.length := by rw [h.bits, h.shows.available_eq]
  exact ⟨congrArg Answer.count hregister, congrArg Answer.count hreader, h⟩

theorem perform (h : s.Tracks g r) {call : Call} (hallowed : s.Allows call) :
    s.Agrees g r call := by
  cases call with
  | feed data => exact ⟨rfl, rfl, h.feed data⟩
  | peek n => exact h.peek hallowed
  | read n => exact h.read hallowed
  | drop n => exact h.drop hallowed
  | align => exact h.align
  | take n => exact h.take hallowed
  | rest => exact h.rest
  | available => exact h.available
  | consumed =>
      exact ⟨congrArg Answer.count (h.shows.consumed.trans h.consumed.symm),
        congrArg Answer.count h.consumed.symm, h⟩

theorem run (h : s.Tracks g r) {calls : List Call} (hallowed : s.AllowsAll calls) :
    (g.run calls).1 = (s.run calls).1 ∧ (r.run calls).1 = (s.run calls).1 ∧
      (s.run calls).2.Tracks (g.run calls).2 (r.run calls).2 := by
  induction calls generalizing s g r with
  | nil => exact ⟨rfl, rfl, h⟩
  | cons call calls ih =>
      obtain ⟨hfirst, hothers⟩ := hallowed
      have hagrees := h.perform hfirst
      obtain ⟨hregister, hreader, htracks⟩ := ih hagrees.tracks hothers
      exact ⟨congrArg₂ List.cons hagrees.register hregister,
        congrArg₂ List.cons hagrees.reader hreader, htracks⟩

end Tracks

end Stream

-- Whatever is asked of it within the rules, and however its bytes arrive, a
-- register answers like the list of the bits that are left, and so does a
-- reader. It never holds more than 23 bits, and above those it holds zeros.
theorem Register.run_eq_stream_run (calls : List Call)
    (hallowed : Stream.empty.AllowsAll calls) :
    let s := (Stream.empty.run calls).2
    let g := (Register.empty.run calls).2
    (Register.empty.run calls).1 = (Stream.empty.run calls).1 ∧
      (Reader.empty.run calls).1 = (Stream.empty.run calls).1 ∧
      s.consumed + g.available = s.supplied.length ∧ g.consumed = s.consumed ∧
      g.held ≤ 23 ∧ g.buffer.toNat < 2 ^ g.held := by
  obtain ⟨hregister, hreader, htracks⟩ := Stream.tracks_empty.run hallowed
  have hshows := htracks.shows
  have hleft := congrArg List.length htracks.bits
  have hwhole := htracks.whole
  rw [Stream.bits, List.length_drop, ← hshows.available_eq] at hleft
  exact ⟨hregister, hreader, by omega, hshows.consumed.trans htracks.consumed.symm,
    Nat.le_of_lt_succ hshows.few, hshows.buffer_lt⟩

-- A look that fails still moves bytes, which a copy then has to bring back.
theorem Register.run_eq_stream_run_copy :
    let calls : List Call :=
      [.feed ⟨#[0x0F, 0xAA, 0xBB]⟩, .read 4, .peek 16, .drop 3, .align, .peek 16, .feed ⟨#[0xCC]⟩,
        .take 2, .peek 9, .available, .consumed, .rest]
    Stream.empty.AllowsAll calls ∧ (Register.empty.run calls).1 =
      [.done, .number (some 15), .number (some 0xBAA0), .done, .done, .number (some 0xBBAA), .done,
        .bytes [0xAA, 0xBB], .number none, .count 8, .count 24, .bytes [0xCC]] := by
  have hallowed : Stream.empty.AllowsAll
      [.feed ⟨#[0x0F, 0xAA, 0xBB]⟩, .read 4, .peek 16, .drop 3, .align, .peek 16, .feed ⟨#[0xCC]⟩,
        .take 2, .peek 9, .available, .consumed, .rest] := by
    decide
  exact ⟨hallowed, (Register.run_eq_stream_run _ hallowed).1.trans (by decide)⟩

end Unpack.Bits
