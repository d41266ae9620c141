import Unpack.Proofs.Bits.Reader
import Unpack.Proofs.Deflate.Reference.Stream
import Unpack.Proofs.Huffman.Lookup

namespace Unpack.Deflate.Reference

open Bits (Reader)
open Huffman (Complete Table Consumes)

-- More bytes at the end of the input.
def State.feed (s : State) (more : List Bool) : State :=
  { s with bits := s.bits ++ more }

@[simp] theorem State.feed_nil (s : State) : s.feed [] = s := by
  simp only [feed, List.append_nil]

theorem State.feed_feed (s : State) (more later : List Bool) :
    (s.feed more).feed later = s.feed (more ++ later) := by
  simp only [feed, List.append_assoc]

theorem State.skip_feed (s : State) (n : Nat) (hn : n ≤ s.bits.length) (more : List Bool) :
    (s.feed more).skip n = (s.skip n).feed more := by
  simp only [feed, skip, List.drop_append_of_le_length hn]

-- However the input goes on, what is left to do at one place comes to what is
-- left to do at the other.
def Leads {α : Type} (p : Decoding α) (s : State) (q : Decoding α) (t : State) : Prop :=
  ∀ more, more.length % 8 = 0 → p (s.feed more) = q (t.feed more)

-- Nothing can be done with the bits at hand.
def Starves {α : Type} (p : Decoding α) (s : State) : Prop :=
  p s = .error .starved s

section Leads

variable {α β : Type} {p q : Decoding α} {s t : State}

theorem Leads.refl (p : Decoding α) (s : State) : Leads p s p s :=
  fun _ _ => rfl

theorem Leads.trans {r : Decoding α} {u : State} (h : Leads p s q t) (hnext : Leads q t r u) :
    Leads p s r u :=
  fun more hmore => (h more hmore).trans (hnext more hmore)

theorem Leads.bind (h : Leads p s q t) (k : α → Decoding β) : Leads (p >>= k) s (q >>= k) t := by
  intro more hmore
  show EStateM.bind p k _ = EStateM.bind q k _
  simp only [EStateM.bind, h more hmore]

theorem Leads.bind_pure {a : α} (h : Leads p s (pure a) t) (k : α → Decoding β) :
    Leads (p >>= k) s (k a) t := by
  have := h.bind k
  rwa [pure_bind] at this

theorem Leads.bind_fail {fault : Fault} (h : Leads p s (fail fault) t) (k : α → Decoding β) :
    Leads (p >>= k) s (fail fault) t :=
  h.bind k

theorem Leads.feed (h : Leads p s q t) (more : List Bool) (hmore : more.length % 8 = 0) :
    Leads p (s.feed more) q (t.feed more) := by
  intro later hlater
  rw [State.feed_feed, State.feed_feed]
  apply h
  rw [List.length_append]
  omega

-- With no more input, both come to the same.
theorem Leads.eq (h : Leads p s q t) : p s = q t := by
  have := h [] rfl
  rwa [State.feed_nil, State.feed_nil] at this

theorem Starves.bind (h : Starves p s) (k : α → Decoding β) : Starves (p >>= k) s := by
  show EStateM.bind p k s = _
  simp only [EStateM.bind]
  rw [h]

theorem leads_corrupted (flaw : Corruption) (s : State) :
    Leads (corrupted flaw : Decoding α) s (fail (.corrupted s.consumed flaw)) s :=
  fun _ _ => rfl

theorem leads_number (n : Nat) (s : State) (hn : n ≤ s.bits.length) :
    Leads (number n) s (pure (Bits.value (s.bits.take n))) (s.skip n) := by
  intro more _
  have henough : n ≤ (s.feed more).bits.length := by
    simp only [State.feed, List.length_append]
    omega
  rw [number, if_pos henough, State.skip_feed s n hn]
  simp only [State.feed, List.take_append_of_le_length hn]
  rfl

theorem starves_number (n : Nat) (s : State) (hn : s.bits.length < n) : Starves (number n) s := by
  rw [Starves, number, if_neg (by omega)]

theorem leads_align (s : State) :
    Leads align s (pure ()) (s.skip (s.bits.length % 8)) := by
  intro more hmore
  have hrest : (s.feed more).bits.length % 8 = s.bits.length % 8 := by
    simp only [State.feed, List.length_append]
    omega
  show EStateM.Result.ok () _ = EStateM.Result.ok () _
  rw [hrest, State.skip_feed s _ (Nat.mod_le _ _)]

theorem leads_emit (byte : UInt8) (s : State) :
    Leads (emit byte) s (pure ()) { s with history := s.history ++ [byte] } :=
  fun _ _ => rfl

-- Whole bytes at the front of the input are copied one by one.
theorem leads_bytes (data : List UInt8) (rest : List Bool) (count : Nat) (s : State)
    (hbits : s.bits = Bits.ofBytes data ++ rest) :
    Leads (bytes (data.length + count)) s (bytes count)
      ⟨rest, s.consumed + 8 * data.length, s.history ++ data, s.preset⟩ := by
  induction data generalizing s with
  | nil =>
      have hsame : s = ⟨rest, s.consumed + 0, s.history ++ [], s.preset⟩ := by
        simp only [Nat.add_zero, List.append_nil]
        cases s
        simp_all [Bits.ofBytes]
      rw [List.length_nil, Nat.zero_add, Nat.mul_zero, ← hsame]
      exact Leads.refl _ _
  | cons byte data ih =>
      rw [Bits.ofBytes_cons, List.append_assoc] at hbits
      have hlength := Bits.length_ofByte byte
      have hnumber := leads_number 8 s (by rw [hbits, List.length_append, hlength]; omega)
      rw [hbits, List.take_left' hlength, Bits.value_ofByte] at hnumber
      have hunfold : bytes ((byte :: data).length + count) = number 8 >>= fun byte =>
          emit byte.toUInt8 >>= fun () => bytes (data.length + count) := by
        rw [List.length_cons, Nat.add_right_comm]
        rfl
      have hrest := ih { s.skip 8 with history := s.history ++ [byte] } (by
        simp only [State.skip]
        rw [hbits, List.drop_left' hlength])
      have hlast : s.consumed + 8 + 8 * data.length = s.consumed + 8 * (byte :: data).length := by
        rw [List.length_cons]
        omega
      simp only [State.skip, hlast, List.append_assoc, List.singleton_append] at hrest
      rw [hunfold]
      refine (hnumber.bind_pure _).trans (((leads_emit _ _).bind_pure _).trans ?_)
      simpa only [State.skip, Nat.toUInt8_eq, UInt8.ofNat_toNat] using hrest

end Leads

-- What a reader has left, behind some history.
def State.at (history : List UInt8) (preset : Nat) (r : Reader) : State :=
  ⟨r.bits, r.consumed, history, preset⟩

-- The same for parts that leave the history as it is.
def LeadsAt {α : Type} (p : Decoding α) (r : Reader) (q : Decoding α) (next : Reader) : Prop :=
  ∀ history preset, Leads p (.at history preset r) q (.at history preset next)

def StarvesAt {α : Type} (p : Decoding α) (r : Reader) : Prop :=
  ∀ history preset, Starves p (.at history preset r)

section LeadsAt

variable {α β : Type} {p q : Decoding α} {r next : Reader}

theorem at_of_consumes {count : Nat} (h : Consumes r next count) (history : List UInt8)
    (preset : Nat) : State.at history preset next = (State.at history preset r).skip count := by
  simp only [State.at, State.skip, h.bits, h.consumed]

theorem at_of_same (h : Consumes r next 0) (history : List UInt8) (preset : Nat) :
    State.at history preset next = .at history preset r :=
  at_of_consumes h history preset

theorem LeadsAt.refl (p : Decoding α) (r : Reader) : LeadsAt p r p r :=
  fun _ _ => Leads.refl _ _

-- Looking ahead changes nothing.
theorem LeadsAt.of_same (p : Decoding α) (h : Consumes r next 0) : LeadsAt p r p next := by
  intro history preset
  rw [at_of_same h]
  exact Leads.refl _ _

theorem LeadsAt.trans {q' : Decoding α} {last : Reader} (h : LeadsAt p r q next)
    (hnext : LeadsAt q next q' last) : LeadsAt p r q' last :=
  fun history preset => (h history preset).trans (hnext history preset)

theorem LeadsAt.bind (h : LeadsAt p r q next) (k : α → Decoding β) :
    LeadsAt (p >>= k) r (q >>= k) next :=
  fun history preset => (h history preset).bind k

theorem LeadsAt.bind_pure {a : α} (h : LeadsAt p r (pure a) next) (k : α → Decoding β) :
    LeadsAt (p >>= k) r (k a) next :=
  fun history preset => (h history preset).bind_pure k

theorem LeadsAt.bind_fail {fault : Fault} (h : LeadsAt p r (fail fault) next)
    (k : α → Decoding β) : LeadsAt (p >>= k) r (fail fault) next :=
  fun history preset => (h history preset).bind_fail k

theorem StarvesAt.bind (h : StarvesAt p r) (k : α → Decoding β) : StarvesAt (p >>= k) r :=
  fun history preset => (h history preset).bind k

theorem leadsAt_corrupted (flaw : Corruption) (r : Reader) :
    LeadsAt (corrupted flaw : Decoding α) r (fail (.corrupted r.consumed flaw)) r :=
  fun _ _ => leads_corrupted _ _

end LeadsAt

-- A number is read whole or not at all.
theorem read_cases (r : Reader) (n : Nat) :
    (∃ value next, r.read n = (some value, next) ∧ value < 2 ^ n ∧
      next.bits.length + n = r.bits.length ∧ LeadsAt (number n) r (pure value) next) ∨
    (∃ next, r.read n = (none, next) ∧ r.bits.length < n ∧ Consumes r next 0 ∧
      StarvesAt (number n) next) := by
  rcases Nat.lt_or_ge r.bits.length n with hfew | hn
  · obtain ⟨next, hread, hbits, hconsumed⟩ := r.read_of_lt n hfew
    refine Or.inr ⟨next, hread, hfew, ⟨hbits, hconsumed⟩, fun history preset => ?_⟩
    apply starves_number
    simp only [State.at, hbits]
    exact hfew
  · obtain ⟨next, hread, hbits, hconsumed⟩ := r.read_of_le n hn
    have hlength : (r.bits.take n).length = n := by rw [List.length_take, Nat.min_eq_left hn]
    refine Or.inl ⟨_, next, hread, ?_, ?_, fun history preset => ?_⟩
    · have := Bits.value_lt (r.bits.take n)
      rwa [hlength] at this
    · rw [hbits, List.length_drop]
      omega
    · rw [at_of_consumes ⟨hbits, hconsumed⟩]
      exact leads_number n (.at history preset r) hn

theorem leadsAt_align (r : Reader) : LeadsAt align r (pure ()) r.align := by
  intro history preset
  rw [at_of_consumes ⟨r.bits_align, r.consumed_align⟩]
  exact leads_align (.at history preset r)

-- A table decodes what the reference decodes with the same code.
theorem symbol_cases {t : Table} {code : Code} (h : t.Decodes code.lengths) (r : Reader) :
    (∃ value next, t.symbol r = (.ok (some value), next) ∧ value < code.lengths.length ∧
      next.bits.length < r.bits.length ∧ LeadsAt (symbol code) r (pure value) next) ∨
    (∃ next, t.symbol r = (.ok none, next) ∧ Consumes r next 0 ∧ StarvesAt (symbol code) next) ∨
    (∃ fault next, t.symbol r = (.error fault, next) ∧
      LeadsAt (symbol code) r (fail fault) next) := by
  have hlookup := h.lookup_symbol r
  generalize t.symbol r = result at hlookup
  cases hlookup with
  | found value next hcode hstarts hnext =>
      have hle := hstarts.length_le
      have hpositive := Nat.pos_of_ne_zero hcode
      rw [Huffman.length_code] at hle
      refine Or.inl ⟨value, next, rfl, hcode.lt_length, ?_, fun history preset more _ => ?_⟩
      · rw [hnext.bits, List.length_drop]
        omega
      · have hsymbol : code.symbol? ((State.at history preset r).feed more).bits = some value :=
          (code.symbol?_eq_some_iff _ _).mpr ⟨hcode, hstarts.trans (List.prefix_append _ _)⟩
        rw [symbol, hsymbol, at_of_consumes hnext, ← State.skip_feed _ _ hle]
        rfl
  | short next hnone hopen hnext =>
      refine Or.inr (Or.inl ⟨next, rfl, hnext, fun history preset => ?_⟩)
      have hsymbol : code.symbol? (State.at history preset r).bits = none :=
        (code.symbol?_eq_none_iff _).mpr hnone
      rw [at_of_same hnext, Starves, symbol, hsymbol]
      exact if_pos hopen.symm
  | refused next hnone hlong hdegenerate hnext =>
      refine Or.inr (Or.inr ⟨_, next, rfl, fun history preset more _ => ?_⟩)
      have hsymbol : code.symbol? ((State.at history preset r).feed more).bits = none := by
        rw [Code.symbol?_eq_none_iff]
        intro value hcode hstarts
        have hshort : Huffman.lengthOf code.lengths value ≤ r.bits.length := by
          have := hdegenerate.le_one _ hcode.lengthOf_mem
          have : Table.rootBits = 9 := rfl
          omega
        apply hnone value hcode
        refine List.prefix_of_prefix_length_le hstarts (List.prefix_append _ _) ?_
        rwa [Huffman.length_code]
      have hclosed : ¬(Complete code.lengths ∨
          ((State.at history preset r).feed more).bits.length < Table.rootBits) := by
        intro h
        rcases h with hcomplete | hfew
        · exact hdegenerate.not_complete hcomplete
        · simp only [State.feed, State.at, List.length_append] at hfew
          omega
      rw [symbol, hsymbol, at_of_same hnext]
      exact if_neg hclosed

end Unpack.Deflate.Reference
