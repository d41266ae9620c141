import Unpack.Deflate.Decoder
import Unpack.Proofs.Bits.BitList
import Unpack.Proofs.Huffman.Canonical
import Unpack.Proofs.Window.Log

namespace Unpack.Deflate.Reference

open Huffman (HasCode lengthOf Complete Degenerate Fits Table)

-- The input as a list of bits, `consumed` of them already taken, and the whole
-- output so far behind a preset dictionary of `preset` bytes.
structure State where
  bits : List Bool
  consumed : Nat
  history : List UInt8
  preset : Nat

def State.start (dictionary : List UInt8) (bits : List Bool) : State :=
  ⟨bits, 0, dictionary, dictionary.length⟩

def State.output (s : State) : List UInt8 :=
  s.history.drop s.preset

def State.skip (s : State) (n : Nat) : State :=
  { s with bits := s.bits.drop n, consumed := s.consumed + n }

-- Why decoding ends early: the bits do not suffice, a dictionary is needed, or
-- something is wrong.
inductive Stop where
  | starved
  | awaits (id : UInt32)
  | fault (fault : Fault)

abbrev Decoding := EStateM Stop State

def fail {α : Type} (fault : Fault) : Decoding α :=
  throw (.fault fault)

def corrupted {α : Type} (flaw : Corruption) : Decoding α := fun s =>
  .error (.fault (.corrupted s.consumed flaw)) s

-- A number of `n` bits, the least significant first.
def number (n : Nat) : Decoding Nat := fun s =>
  if n ≤ s.bits.length then .ok (Bits.value (s.bits.take n)) (s.skip n) else .error .starved s

-- The input ends with a byte.
def align : Decoding Unit := fun s =>
  .ok () (s.skip (s.bits.length % 8))

def emit (byte : UInt8) : Decoding Unit := fun s =>
  .ok () { s with history := s.history ++ [byte] }

def copy (length distance : Nat) : Decoding Unit := fun s =>
  if 0 < distance ∧ distance ≤ s.history.length then
    .ok () { s with history := Log.echo distance length s.history }
  else
    .error (.fault (.invalidDistance distance (min s.history.length Log.limit))) s

-- A code that may be decoded: it fills the code space, or it has one symbol at
-- most.
structure Code where
  lengths : List Nat
  sound : Complete lengths ∨ Degenerate lengths

theorem Code.fits (code : Code) : Fits code.lengths :=
  code.sound.elim Complete.fits Degenerate.fits

-- The symbol whose code begins the bits.
def Code.symbol? (code : Code) (bits : List Bool) : Option Nat :=
  (List.range code.lengths.length).find? fun symbol =>
    HasCode code.lengths symbol ∧ Huffman.code code.lengths symbol <+: bits

theorem Code.symbol?_eq_some_iff (code : Code) (bits : List Bool) (symbol : Nat) :
    code.symbol? bits = some symbol ↔
      HasCode code.lengths symbol ∧ Huffman.code code.lengths symbol <+: bits := by
  constructor
  · intro h
    simpa using List.find?_some h
  · intro ⟨hcode, hstarts⟩
    cases hfind : code.symbol? bits with
    | none =>
        have := List.find?_eq_none.mp hfind symbol (List.mem_range.mpr hcode.lt_length)
        simp [hcode, hstarts] at this
    | some other =>
        have hother : HasCode code.lengths other ∧ Huffman.code code.lengths other <+: bits := by
          simpa using List.find?_some hfind
        rw [Huffman.code_unique code.fits hcode hother.1 hstarts hother.2]

theorem Code.symbol?_eq_none_iff (code : Code) (bits : List Bool) :
    code.symbol? bits = none ↔ ∀ symbol, HasCode code.lengths symbol →
      ¬Huffman.code code.lengths symbol <+: bits := by
  constructor
  · intro h symbol hcode hstarts
    rw [(code.symbol?_eq_some_iff bits symbol).mpr ⟨hcode, hstarts⟩] at h
    cases h
  · intro h
    cases hfind : code.symbol? bits with
    | none => rfl
    | some symbol =>
        have := (code.symbol?_eq_some_iff bits symbol).mp hfind
        exact absurd this.2 (h symbol this.1)

-- Where no code begins the bits, more bits may help a complete code. For any
-- other code nine bits are enough to tell that they will not.
def symbol (code : Code) : Decoding Nat := fun s =>
  match code.symbol? s.bits with
  | some symbol => .ok symbol (s.skip (lengthOf code.lengths symbol))
  | none =>
      if Complete code.lengths ∨ s.bits.length < Table.rootBits then .error .starved s
      else .error (.fault (.invalidCode s.consumed)) s

-- The answer of a part of the decoder depends on no other bits than those that
-- it takes, and on how far the next byte boundary is. How many bits went before
-- only matters to faults, and no part asks for a dictionary.
structure LocalAt {α : Type} (p : Decoding α) (s : State) : Prop where
  ok : ∀ a t, p s = .ok a t → ∃ used, s.bits = used ++ t.bits ∧
    ∀ consumed more, more.length % 8 = t.bits.length % 8 →
      p { s with bits := used ++ more, consumed } =
        .ok a { t with bits := more, consumed := consumed + used.length }
  error : ∀ stop t, p s = .error stop t → ∀ id, stop ≠ .awaits id

def Local {α : Type} (p : Decoding α) : Prop :=
  ∀ s, LocalAt p s

-- A local part that takes at least one bit.
structure Takes {α : Type} (p : Decoding α) : Prop where
  isLocal : Local p
  shorter : ∀ s a t, p s = .ok a t → t.bits.length < s.bits.length

section Local

variable {α β : Type}

theorem bind_of_ok {p : Decoding α} {s : State} {a : α} {t : State} (h : p s = .ok a t)
    (k : α → Decoding β) : (p >>= k) s = k a t := by
  show EStateM.bind p k s = _
  simp only [EStateM.bind, h]

theorem bind_of_error {p : Decoding α} {s : State} {stop : Stop} {t : State}
    (h : p s = .error stop t) (k : α → Decoding β) : (p >>= k) s = .error stop t := by
  show EStateM.bind p k s = _
  simp only [EStateM.bind, h]

theorem bind_eq_ok {p : Decoding α} {k : α → Decoding β} {s : State} {b : β} {u : State} :
    (p >>= k) s = .ok b u ↔ ∃ a t, p s = .ok a t ∧ k a t = .ok b u := by
  show EStateM.bind p k s = _ ↔ _
  unfold EStateM.bind
  cases h : p s with
  | ok a t =>
      constructor
      · exact fun hk => ⟨a, t, rfl, hk⟩
      · rintro ⟨_, _, heq, hk⟩
        cases heq
        exact hk
  | error stop t => simp

theorem Local.length_le {p : Decoding α} (h : Local p) {s : State} {a : α} {t : State}
    (hp : p s = .ok a t) : t.bits.length ≤ s.bits.length := by
  obtain ⟨used, hused, _⟩ := (h s).ok a t hp
  rw [hused, List.length_append]
  omega

-- How many bits were consumed before does not matter.
theorem Local.eq_ok_at {p : Decoding α} (h : Local p) {s : State} {a : α} {t : State}
    (hp : p s = .ok a t) (consumed : Nat) :
    ∃ consumed', p { s with consumed } = .ok a { t with consumed := consumed' } := by
  obtain ⟨used, hused, hmore⟩ := (h s).ok a t hp
  have hsame := hmore consumed t.bits rfl
  rw [← hused] at hsame
  exact ⟨_, hsame⟩

theorem bind_eq_error {p : Decoding α} {k : α → Decoding β} {s : State} {stop : Stop} {u : State} :
    (p >>= k) s = .error stop u ↔
      p s = .error stop u ∨ ∃ a t, p s = .ok a t ∧ k a t = .error stop u := by
  show EStateM.bind p k s = _ ↔ _
  unfold EStateM.bind
  cases h : p s with
  | ok a t =>
      constructor
      · exact fun hk => Or.inr ⟨a, t, rfl, hk⟩
      · rintro (hstop | ⟨_, _, heq, hk⟩)
        · cases hstop
        · cases heq
          exact hk
  | error stop t => simp

theorem Local.pure (a : α) : Local (pure a : Decoding α) := by
  refine fun s => ⟨fun b t h => ?_, fun stop t h => nomatch h⟩
  cases h
  exact ⟨[], rfl, fun consumed more _ => rfl⟩

theorem LocalAt.bind {p : Decoding α} {k : α → Decoding β} {s : State} (hp : LocalAt p s)
    (hk : ∀ a t, p s = .ok a t → LocalAt (k a) t) : LocalAt (p >>= k) s := by
  refine ⟨fun b u h => ?_, fun stop u h => ?_⟩
  · obtain ⟨a, t, hfirst, hsecond⟩ := bind_eq_ok.mp h
    obtain ⟨used, hused, hfront⟩ := hp.ok a t hfirst
    obtain ⟨later, hlater, hback⟩ := (hk a t hfirst).ok b u hsecond
    refine ⟨used ++ later, by rw [hused, hlater, List.append_assoc], fun consumed more hmore => ?_⟩
    have hnext := hback (consumed + used.length) more hmore
    rw [Nat.add_assoc, ← List.length_append] at hnext
    refine bind_eq_ok.mpr
      ⟨a, { t with bits := later ++ more, consumed := consumed + used.length }, ?_, hnext⟩
    rw [List.append_assoc]
    apply hfront
    rw [hlater, List.length_append, List.length_append, Nat.add_mod, hmore, ← Nat.add_mod]
  · rcases bind_eq_error.mp h with hfirst | ⟨a, t, hfirst, hsecond⟩
    · exact hp.error stop u hfirst
    · exact (hk a t hfirst).error stop u hsecond

theorem Local.bind {p : Decoding α} {k : α → Decoding β} (hp : Local p) (hk : ∀ a, Local (k a)) :
    Local (p >>= k) :=
  fun s => (hp s).bind fun a t _ => hk a t

theorem Takes.bind {p : Decoding α} {k : α → Decoding β} (hp : Takes p) (hk : ∀ a, Local (k a)) :
    Takes (p >>= k) := by
  refine ⟨hp.isLocal.bind hk, fun s b u h => ?_⟩
  obtain ⟨a, t, hfirst, hsecond⟩ := bind_eq_ok.mp h
  have := hp.shorter s a t hfirst
  have := (hk a).length_le hsecond
  omega

theorem local_fail (fault : Fault) : Local (fail fault : Decoding α) := by
  refine fun s => ⟨fun a t h => (nomatch h), fun stop t h id => ?_⟩
  cases h
  exact Stop.noConfusion

theorem local_corrupted (flaw : Corruption) : Local (corrupted flaw : Decoding α) := by
  refine fun s => ⟨fun a t h => (nomatch h), fun stop t h id => ?_⟩
  cases h
  exact Stop.noConfusion

theorem local_number (n : Nat) : Local (number n) := by
  intro s
  by_cases hn : n ≤ s.bits.length
  · have hread : number n s = .ok (Bits.value (s.bits.take n)) (s.skip n) := if_pos hn
    refine ⟨fun a t h => ?_, fun stop t h => ?_⟩
    · rw [hread] at h
      cases h
      refine ⟨s.bits.take n, (List.take_append_drop n s.bits).symm, fun consumed more _ => ?_⟩
      have hlength : (s.bits.take n).length = n := by rw [List.length_take, Nat.min_eq_left hn]
      have henough : n ≤ (s.bits.take n ++ more).length := by
        rw [List.length_append, hlength]
        omega
      simp only [number, if_pos henough, State.skip, List.take_left' hlength,
        List.drop_left' hlength, hlength]
    · rw [hread] at h
      cases h
  · have hread : number n s = .error .starved s := if_neg hn
    refine ⟨fun a t h => ?_, fun stop t h id => ?_⟩
    · rw [hread] at h
      cases h
    · rw [hread] at h
      cases h
      exact Stop.noConfusion

theorem takes_number {n : Nat} (hn : 0 < n) : Takes (number n) := by
  refine ⟨local_number n, fun s a t h => ?_⟩
  unfold number at h
  split at h
  · cases h
    simp only [State.skip, List.length_drop]
    omega
  · cases h

theorem local_align : Local align := by
  refine fun s => ⟨fun a t h => ?_, fun stop t h => nomatch h⟩
  cases h
  refine ⟨s.bits.take (s.bits.length % 8), (List.take_append_drop _ s.bits).symm,
    fun consumed more hmore => ?_⟩
  have hlength : (s.bits.take (s.bits.length % 8)).length = s.bits.length % 8 := by
    rw [List.length_take]
    omega
  have hrest : (s.bits.take (s.bits.length % 8) ++ more).length % 8 = s.bits.length % 8 := by
    simp only [State.skip, List.length_drop] at hmore
    rw [List.length_append, hlength]
    omega
  simp only [align, State.skip, hrest, List.drop_left' hlength, hlength]

theorem local_emit (byte : UInt8) : Local (emit byte) := by
  refine fun s => ⟨fun a t h => ?_, fun stop t h => nomatch h⟩
  cases h
  exact ⟨[], rfl, fun consumed more _ => rfl⟩

theorem local_copy (length distance : Nat) : Local (copy length distance) := by
  refine fun s => ⟨fun a t h => ?_, fun stop t h id => ?_⟩
  · unfold copy at h
    split at h
    · rename_i hreached
      cases h
      exact ⟨[], rfl, fun consumed more _ => if_pos hreached⟩
    · cases h
  · unfold copy at h
    split at h
    · cases h
    · cases h
      exact Stop.noConfusion

theorem symbol_eq_ok {code : Code} {s : State} {value : Nat} {t : State}
    (h : symbol code s = .ok value t) :
    code.symbol? s.bits = some value ∧ t = s.skip (lengthOf code.lengths value) := by
  unfold symbol at h
  split at h
  · rename_i hsome
    cases h
    exact ⟨hsome, rfl⟩
  · split at h <;> cases h

theorem local_symbol (code : Code) : Local (symbol code) := by
  refine fun s => ⟨fun value t h => ?_, fun stop t h id => ?_⟩
  · obtain ⟨hsome, rfl⟩ := symbol_eq_ok h
    obtain ⟨hcode, rest, hbits⟩ := (code.symbol?_eq_some_iff _ _).mp hsome
    have hlength := Huffman.length_code code.lengths value
    refine ⟨Huffman.code code.lengths value, ?_, fun consumed more _ => ?_⟩
    · simp only [State.skip]
      rw [← hbits, List.drop_left' hlength]
    · have hsome' : code.symbol? (Huffman.code code.lengths value ++ more) = some value :=
        (code.symbol?_eq_some_iff _ _).mpr ⟨hcode, List.prefix_append _ _⟩
      simp only [symbol, hsome', State.skip, List.drop_left' hlength, hlength]
  · unfold symbol at h
    split at h
    · cases h
    · split at h <;> cases h <;> exact Stop.noConfusion

theorem takes_symbol (code : Code) : Takes (symbol code) := by
  refine ⟨local_symbol code, fun s value t h => ?_⟩
  obtain ⟨hsome, rfl⟩ := symbol_eq_ok h
  obtain ⟨hcode, hstarts⟩ := (code.symbol?_eq_some_iff _ _).mp hsome
  have hle := hstarts.length_le
  have hpositive : 0 < lengthOf code.lengths value := Nat.pos_of_ne_zero hcode
  rw [Huffman.length_code] at hle
  simp only [State.skip, List.length_drop]
  omega

-- A repeated part answers with a result or with where to go on, and takes bits
-- in the second case.
def Advances (part : α → Decoding (β ⊕ α)) : Prop :=
  ∀ a s next t, part a s = .ok (.inr next) t → t.bits.length < s.bits.length

theorem Advances.of_takes {part : α → Decoding (β ⊕ α)} (h : ∀ a, Takes (part a)) :
    Advances part :=
  fun a s _ t hpart => (h a).shorter s _ t hpart

def loop (part : α → Decoding (β ⊕ α)) (hadvances : Advances part) (a : α) : Decoding β := fun s =>
  match _hpart : part a s with
  | .ok (.inl b) t => .ok b t
  | .ok (.inr next) t => loop part hadvances next t
  | .error stop t => .error stop t
termination_by s => s.bits.length
decreasing_by exact hadvances _ _ _ _ _hpart

theorem loop_eq (part : α → Decoding (β ⊕ α)) (hadvances : Advances part) (a : α) :
    loop part hadvances a = part a >>= Sum.elim pure (loop part hadvances) := by
  funext s
  show _ = EStateM.bind (part a) _ s
  unfold EStateM.bind
  rw [loop]
  cases part a s with
  | ok outcome t => cases outcome <;> rfl
  | error stop t => rfl

theorem local_loop {part : α → Decoding (β ⊕ α)} (hadvances : Advances part)
    (hpart : ∀ a, Local (part a)) (a : α) : Local (loop part hadvances a) := by
  intro s
  induction hn : s.bits.length using Nat.strongRecOn generalizing a s with
  | ind n ih =>
      rw [loop_eq]
      refine (hpart a s).bind fun step t hstep => ?_
      cases step with
      | inl result => exact Local.pure result t
      | inr next => exact ih t.bits.length (hn ▸ hadvances a s next t hstep) next t rfl

end Local

end Unpack.Deflate.Reference
