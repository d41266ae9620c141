import Unpack.Proofs.Deflate.Accounting
import Unpack.Proofs.Deflate.Sound.Step

namespace Unpack.Deflate

open Bits (Reader)

namespace Engine

variable {phase : Phase} {r : Reader} {w : Window} {last : Bool}

-- More bytes at the end of the input.
theorem Sound.feed (h : Sound ⟨phase, r, w, last⟩) (data : ByteArray) :
    Sound ⟨phase, r.feed data, w, last⟩ := by
  have haligned : r.bits.length % 8 = 0 → (r.feed data).bits.length % 8 = 0 := by
    rw [Reader.bits_feed, List.length_append, Bits.length_ofBytes]
    omega
  cases phase with
  | storedLength => exact haligned h
  | storedComplement length => exact ⟨haligned h.1, h.2⟩
  | stored left => exact ⟨haligned h.1, h.2⟩
  | _ => exact h

-- A window that reaches back as far.
theorem Sound.window (h : Sound ⟨phase, r, w, last⟩) {w' : Window} (hhistory : w'.history = w.history) :
    Sound ⟨phase, r, w', last⟩ := by
  cases phase with
  | distanceBits codes length distance extra =>
      obtain ⟨hready, hlength, hpositive, hextra, hfar⟩ := h
      exact ⟨hready, hlength, hpositive, hextra, fun hnone => hhistory ▸ hfar hnone⟩
  | _ => exact h

end Engine

namespace Decoder

variable {s : Decoder}

-- What may be asked of a decoder.
inductive Request where
  | feed (data : ByteArray)
  | read (n : Nat)
  | decode (data : ByteArray) (n : Nat)
  | supplyDictionary (dictionary : ByteArray)
  | reset

inductive Answer where
  | done
  | bytes (bytes : ByteArray)
  | piece (bytes : ByteArray) (status : Status)

def serve (s : Decoder) : Request → Except Fault Answer × Decoder
  | .feed data => (.ok .done, s.feed data)
  | .read n => ((s.read n).1.map .bytes, (s.read n).2)
  | .decode data n =>
      ((s.decode data n).1.map fun piece => .piece piece.1 piece.2, (s.decode data n).2)
  | .supplyDictionary dictionary =>
      ((s.supplyDictionary dictionary).1.map fun _ => .done, (s.supplyDictionary dictionary).2)
  | .reset => (.ok .done, s.reset)

-- Serve the requests one after the other, also after one that fails.
def serveAll (s : Decoder) (requests : List Request) : Decoder :=
  requests.foldl (fun s request => (s.serve request).2) s

def Sound (s : Decoder) : Prop :=
  s.engine.Sound

theorem new_sound (settings : Settings) : (new settings).Sound := by
  obtain ⟨format, readSize⟩ := settings
  cases format <;> trivial

theorem Sound.feed (h : s.Sound) (data : ByteArray) : (s.feed data).Sound :=
  Engine.Sound.feed h data

theorem Sound.drain (h : s.Sound) (n : Nat) : (s.drain n).2.Sound :=
  Engine.Sound.window h (s.drain_window n).2.2

theorem capacity_eq (s : Decoder) : s.capacity = s.engine.capacity := by
  rw [capacity, Engine.capacity, Reader.length_bits, Engine.longestMatch]

-- What is handed out does not count any longer.
theorem capacity_drain (s : Decoder) (n : Nat) :
    (s.drain n).2.capacity + (s.drain n).1.size = s.capacity := by
  obtain ⟨hsize, hpending, -⟩ := s.drain_window n
  have hcapacity : (s.drain n).2.capacity = (s.drain n).2.engine.window.pending +
      258 * s.engine.input.available := rfl
  rw [hcapacity, hsize, hpending, capacity]
  omega

theorem effort_drain (s : Decoder) (n : Nat) : (s.drain n).2.engine.effort = s.engine.effort := rfl

theorem Sound.step_turn (h : s.Sound) (hempty : s.engine.window.pending = 0) :
    Engine.Turn s.engine.effort s.capacity (s.step.1, s.step.2.engine) := by
  rw [capacity_eq]
  exact Engine.step_turn s.settings.format s.adler.value h hempty

-- Nothing can be done without more input or a dictionary.
structure Resting (s : Decoder) : Prop where
  empty : s.engine.window.pending = 0
  idle : s.engine.Idle

-- What a call for `n` bytes comes to with `budget` bytes to be had at most.
inductive ReadTurn (n budget : Nat) : Except Fault ByteArray × Decoder → Prop where
  | failed (fault : Fault) (s : Decoder) (hplain : fault.isInternal = false) (hsound : s.Sound) :
      ReadTurn n budget (.error fault, s)
  | returned (bytes : ByteArray) (s : Decoder) (hsize : bytes.size ≤ n) (hsound : s.Sound)
      (hcapacity : s.capacity + bytes.size ≤ budget) (hrests : bytes.size < n → s.Resting) :
      ReadTurn n budget (.ok bytes, s)

-- A round that goes on takes from the effort left, and keeps the account.
theorem readRound_turn (h : s.Sound) {n budget : Nat} {out : ByteArray} (hout : out.size ≤ n)
    (hbudget : s.capacity + out.size ≤ budget) :
    (readRound n (out, s)).elim
      (fun next => (next.2.Sound ∧ next.1.size ≤ n ∧ next.2.capacity + next.1.size ≤ budget) ∧
        next.2.engine.effort < s.engine.effort)
      (ReadTurn n budget) := by
  have hdrained := h.drain (n - out.size)
  have hcapacity := s.capacity_drain (n - out.size)
  have heffort := s.effort_drain (n - out.size)
  obtain ⟨hsize, hpending, -⟩ := s.drain_window (n - out.size)
  rw [readRound]
  generalize s.drain (n - out.size) = drained at hdrained hcapacity heffort hsize hpending
  obtain ⟨bytes, s₁⟩ := drained
  dsimp only at hdrained hcapacity heffort hsize hpending ⊢
  have htotal := ByteArray.size_append (a := out) (b := bytes)
  by_cases hfull : (out ++ bytes).size = n
  · rw [if_pos hfull]
    exact .returned _ s₁ (by omega) hdrained (by omega) fun hless => by omega
  rw [if_neg hfull]
  -- More was asked for than there was, so the window is empty.
  have hempty : s₁.engine.window.pending = 0 := by omega
  have hturn := hdrained.step_turn hempty
  generalize s₁.step = result at hturn
  obtain ⟨outcome, s₂⟩ := result
  have hkept : s₂.engine.capacity ≤ s₁.capacity → s₂.capacity + (out ++ bytes).size ≤ budget := by
    rw [capacity_eq s₂]
    omega
  cases hturn with
  | failed fault _ hplain hsound => exact .failed fault s₂ hplain hsound
  | moved _ hsound hless heffort' =>
      exact ⟨⟨hsound, by dsimp only; omega, hkept hless⟩, Nat.lt_of_lt_of_eq heffort' heffort⟩
  | halted _ hsound hless heffort' hidle =>
      dsimp only at hsound hless heffort' hidle ⊢
      by_cases hnothing : s₂.engine.window.pending = 0
      · rw [if_pos (by simp [hnothing])]
        exact .returned _ s₂ (by omega) hsound (hkept hless) fun _ => ⟨hnothing, hidle hnothing⟩
      · rw [if_neg (by simp [hnothing])]
        exact ⟨⟨hsound, by dsimp only; omega, hkept hless⟩,
          Nat.lt_of_lt_of_eq (heffort' (Nat.pos_of_ne_zero hnothing)) heffort⟩

-- A call ends, after no more rounds than there is effort left.
theorem Sound.read_ends (h : s.Sound) (n : Nat) :
    ∃ k ≤ s.rounds, Loop.Ends (readRound n) k (ByteArray.empty, s) (s.read n) ∧
      ReadTurn n s.capacity (s.read n) := by
  have hround : ∀ t : ByteArray × Decoder,
      (t.2.Sound ∧ t.1.size ≤ n ∧ t.2.capacity + t.1.size ≤ s.capacity) →
        (readRound n t).elim
          (fun next => (next.2.Sound ∧ next.1.size ≤ n ∧ next.2.capacity + next.1.size ≤ s.capacity) ∧
            next.2.engine.effort < t.2.engine.effort)
          (ReadTurn n s.capacity) :=
    fun t ht => readRound_turn ht.1 ht.2.1 ht.2.2
  obtain ⟨k, result, hends, hle, hturn⟩ := Loop.exists_ends (·.2.engine.effort) hround
    (s := (ByteArray.empty, s)) ⟨h, Nat.zero_le n, Nat.le_refl _⟩
  have hrank : ∀ phase, Engine.rank phase ≤ 2 := by
    intro phase
    unfold Engine.rank
    split <;> decide
  have hrounds : k ≤ s.rounds := by
    have := hrank s.engine.phase
    simp only [Engine.effort, Reader.length_bits] at hle
    rw [rounds]
    omega
  have hread : s.read n = result := by
    rw [read, run]
    exact hends.run_eq _ hrounds
  rw [hread]
  exact ⟨k, hrounds, hends, hturn⟩

theorem Sound.read_turn (h : s.Sound) (n : Nat) : ReadTurn n s.capacity (s.read n) := by
  obtain ⟨_, _, _, hturn⟩ := h.read_ends n
  exact hturn

theorem Sound.read (h : s.Sound) (n : Nat) : (s.read n).2.Sound := by
  have hturn := h.read_turn n
  generalize s.read n = result at hturn
  cases hturn with
  | failed fault s' _ hsound => exact hsound
  | returned bytes s' _ hsound _ _ => exact hsound

theorem Sound.decode (h : s.Sound) (data : ByteArray) (n : Nat) : (s.decode data n).2.Sound := by
  have hread := (h.feed data).read n
  rw [Decoder.decode]
  generalize (s.feed data).read n = result at hread
  obtain ⟨outcome, s'⟩ := result
  cases outcome with
  | error fault => exact hread
  | ok bytes =>
      dsimp only
      split
      · exact hread
      · split
        · exact hread
        · split <;> exact hread

theorem Sound.supplyDictionary (h : s.Sound) (dictionary : ByteArray) :
    (s.supplyDictionary dictionary).2.Sound := by
  rw [Decoder.supplyDictionary]
  cases s.settings.format with
  | zlib =>
      dsimp only
      split
      · exact h
      · split
        · split
          · trivial
          · exact h
        · exact h
  | raw =>
      dsimp only
      split
      · split
        · split
          · rename_i hphase _ _ _ _
            rw [Sound, Engine.Sound, hphase]
            trivial
          · exact h
        · exact h
      · exact h

theorem Sound.serve (h : s.Sound) (request : Request) : (s.serve request).2.Sound := by
  have hread := h.read
  have hdecode := h.decode
  have hsupply := h.supplyDictionary
  cases request with
  | feed data => exact h.feed data
  | read n => simpa only [Decoder.serve] using hread n
  | decode data n => simpa only [Decoder.serve] using hdecode data n
  | supplyDictionary dictionary => simpa only [Decoder.serve] using hsupply dictionary
  | reset => exact new_sound _

theorem Sound.serveAll (h : s.Sound) (requests : List Request) : (s.serveAll requests).Sound := by
  induction requests generalizing s with
  | nil => exact h
  | cons request requests ih => exact ih (h.serve request)

end Decoder

end Unpack.Deflate
