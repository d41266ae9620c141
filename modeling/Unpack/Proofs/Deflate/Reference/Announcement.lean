import Unpack.Proofs.Deflate.Reference.Stream

namespace Unpack.Deflate.Reference

open Huffman (Complete Degenerate Table)

-- What the header of a dynamic block announces: how many lengths of the literal
-- and of the distance alphabet, and all of them in one sequence.
structure Announcement where
  literals : Nat
  distances : Nat
  lengths : List Nat

-- The announcement, from several places in the header on.
def announcementFromLengths (code : Code) (literals distances : Nat) (lengths : List Nat) :
    Decoding Announcement := do
  let lengths ← allLengths code literals (literals + distances) lengths
  return ⟨literals, distances, lengths⟩

def announcementFromOrder (literals distances missing : Nat) (seen : List Nat) :
    Decoding Announcement := do
  let seen ← order missing seen
  let code ← checked (bySymbol seen) false .inCodeLengthCode
  announcementFromLengths code literals distances []

def announcementFromOrderCount (literals distances : Nat) : Decoding Announcement := do
  let more ← number 4
  announcementFromOrder literals distances (more + 4) []

def announcementFromDistanceCount (literals : Nat) : Decoding Announcement := do
  let more ← number 5
  announcementFromOrderCount literals (more + 1)

def announcement : Decoding Announcement := do
  let more ← number 5
  announcementFromDistanceCount (more + 257)

theorem announcementFromLengths_of_le (code : Code) {literals distances : Nat} {lengths : List Nat}
    (h : literals + distances ≤ lengths.length) :
    announcementFromLengths code literals distances lengths =
      pure ⟨literals, distances, lengths⟩ := by
  rw [announcementFromLengths, allLengths_of_le code h, pure_bind]

theorem announcementFromLengths_of_lt (code : Code) {literals distances : Nat} {lengths : List Nat}
    (h : lengths.length < literals + distances) :
    announcementFromLengths code literals distances lengths = symbol code >>= fun symbol =>
      addition literals (literals + distances) symbol lengths >>=
        announcementFromLengths code literals distances := by
  conv => lhs; rw [announcementFromLengths, allLengths_of_lt code h]
  simp only [bind_assoc]
  rfl

-- The codes of the block are those of its announcement.
def Announcement.codes (announced : Announcement) : Decoding (Code × Code) :=
  checkedPair announced.literals announced.lengths

theorem codesFromLengths_eq (code : Code) (literals distances : Nat) (lengths : List Nat) :
    codesFromLengths code literals (literals + distances) lengths =
      announcementFromLengths code literals distances lengths >>= Announcement.codes := by
  simp only [codesFromLengths, announcementFromLengths, bind_assoc, pure_bind, Announcement.codes]

theorem codesFromOrder_eq (literals distances missing : Nat) (seen : List Nat) :
    codesFromOrder literals distances missing seen =
      announcementFromOrder literals distances missing seen >>= Announcement.codes := by
  simp only [codesFromOrder, announcementFromOrder, codesFromLengths_eq, bind_assoc]

theorem codesFromOrderCount_eq (literals distances : Nat) :
    codesFromOrderCount literals distances =
      announcementFromOrderCount literals distances >>= Announcement.codes := by
  simp only [codesFromOrderCount, announcementFromOrderCount, codesFromOrder_eq, bind_assoc]

theorem codesFromDistanceCount_eq (literals : Nat) :
    codesFromDistanceCount literals =
      announcementFromDistanceCount literals >>= Announcement.codes := by
  simp only [codesFromDistanceCount, announcementFromDistanceCount, codesFromOrderCount_eq,
    bind_assoc]

theorem dynamicCodes_eq : dynamicCodes = announcement >>= Announcement.codes := by
  simp only [dynamicCodes, announcement, codesFromDistanceCount_eq, bind_assoc]

-- What a header can be refused for.
inductive Refusal : Fault → Prop where
  | code (flaw : TableFlaw) : Refusal (.invalidTable (.inCodeLengthCode flaw))
  | start (position : Nat) (alphabet : Alphabet) :
      Refusal (.corrupted position (.repeatAtStart alphabet))
  | overrun (position count total : Nat) :
      Refusal (.corrupted position (.repeatOverrun count total))

-- A part that ends early for want of bits or for a fault of some kind.
def Stops {α : Type} (kind : Fault → Prop) (p : Decoding α) : Prop :=
  ∀ s stop t, p s = .error stop t → stop = .starved ∨ ∃ fault, stop = .fault fault ∧ kind fault

section Stops

variable {α β : Type} {kind : Fault → Prop}

theorem Stops.pure (a : α) : Stops kind (pure a : Decoding α) :=
  fun _ _ _ h => nomatch h

theorem Stops.bind {p : Decoding α} {k : α → Decoding β} (hp : Stops kind p)
    (hk : ∀ a s t, p s = .ok a t → Stops kind (k a)) : Stops kind (p >>= k) := by
  intro s stop u h
  rcases bind_eq_error.mp h with hfirst | ⟨a, t, hfirst, hsecond⟩
  · exact hp s stop u hfirst
  · exact hk a s t hfirst t stop u hsecond

theorem Stops.bind_all {p : Decoding α} {k : α → Decoding β} (hp : Stops kind p)
    (hk : ∀ a, Stops kind (k a)) : Stops kind (p >>= k) :=
  hp.bind fun a _ _ _ => hk a

theorem stops_corrupted {flaw : Corruption} (h : ∀ position, kind (.corrupted position flaw)) :
    Stops kind (corrupted flaw : Decoding α) := by
  intro s stop t hstop
  cases hstop
  exact Or.inr ⟨_, rfl, h _⟩

theorem stops_number (n : Nat) : Stops kind (number n) := by
  intro s stop t h
  unfold number at h
  split at h
  · cases h
  · cases h
    exact Or.inl rfl

-- A code that fills its space has a symbol for all bits.
theorem stops_symbol {code : Code} (hcomplete : Complete code.lengths) :
    Stops kind (symbol code) := by
  intro s stop t h
  unfold symbol at h
  split at h
  · cases h
  · rw [if_pos (Or.inl hcomplete)] at h
    cases h
    exact Or.inl rfl

theorem stops_loop {part : α → Decoding (β ⊕ α)} (hadvances : Advances part)
    (hpart : ∀ a, Stops kind (part a)) (a : α) : Stops kind (loop part hadvances a) := by
  intro s
  induction hn : s.bits.length using Nat.strongRecOn generalizing a s with
  | ind n ih =>
      intro stop u h
      rw [loop_eq] at h
      rcases bind_eq_error.mp h with hfirst | ⟨outcome, t, hfirst, hsecond⟩
      · exact hpart a s stop u hfirst
      · cases outcome with
        | inl result => cases hsecond
        | inr next => exact ih t.bits.length (hn ▸ hadvances a s next t hfirst) next t rfl stop u hsecond

end Stops

theorem stops_run (total symbol : Nat) (lengths : List Nat) :
    Stops Refusal (run total symbol lengths) := by
  refine (stops_number _).bind_all fun more => ?_
  unfold appendRun
  split
  · exact .pure _
  · exact stops_corrupted fun position => .overrun position _ _

theorem stops_addition (literals total symbol : Nat) (lengths : List Nat) :
    Stops Refusal (addition literals total symbol lengths) := by
  unfold addition
  split
  · exact .pure _
  split
  · exact stops_corrupted fun position => .start position _
  split
  · exact stops_corrupted fun position => .start position _
  · exact stops_run _ _ _

theorem stops_allLengths {code : Code} (hcomplete : Complete code.lengths) (literals total : Nat)
    (lengths : List Nat) : Stops Refusal (allLengths code literals total lengths) := by
  refine stops_loop _ (fun lengths => ?_) lengths
  unfold addNext
  split
  · exact .pure _
  · exact (stops_symbol hcomplete).bind_all fun symbol =>
      (stops_addition _ _ _ _).bind_all fun lengths => .pure _

theorem stops_order (missing : Nat) (seen : List Nat) : Stops Refusal (order missing seen) := by
  induction missing generalizing seen with
  | zero => exact .pure _
  | succ missing ih => exact (stops_number 3).bind_all fun length => ih _

theorem number_lt {n value : Nat} {s t : State} (h : number n s = .ok value t) : value < 2 ^ n := by
  unfold number at h
  split at h
  · rename_i hmany
    cases h
    have hlt := Bits.value_lt (s.bits.take n)
    rwa [List.length_take, Nat.min_eq_left hmany] at hlt
  · cases h

-- Three bits each.
theorem order_lt {missing : Nat} {seen : List Nat} (hseen : ∀ length ∈ seen, length < 8) {s : State}
    {all : List Nat} {t : State} (h : order missing seen s = .ok all t) :
    ∀ length ∈ all, length < 8 := by
  induction missing generalizing seen s with
  | zero =>
      cases h
      exact hseen
  | succ missing ih =>
      obtain ⟨length, _, hlength, hrest⟩ := bind_eq_ok.mp h
      refine ih (fun other hother => ?_) hrest
      rcases List.mem_append.mp hother with hold | hnew
      · exact hseen other hold
      · rw [List.mem_singleton.mp hnew]
        exact number_lt hlength

theorem mem_bySymbol_lt {seen : List Nat} (hseen : ∀ length ∈ seen, length < 8) :
    ∀ length ∈ bySymbol seen, length < 8 := by
  intro length hlength
  obtain ⟨symbol, _, rfl⟩ := List.mem_map.mp hlength
  rcases Nat.lt_or_ge (codeLengthOrder.idxOf symbol) seen.length with hinside | hbeyond
  · rw [List.getD_eq_getElem _ _ hinside]
    exact hseen _ (List.getElem_mem hinside)
  · rw [List.getD_eq_default _ _ hbeyond]
    decide

theorem checked_eq_fail {lengths : List Nat} {lenient : Bool}
    (hunsound : ¬(Complete lengths ∨ lenient = true ∧ Degenerate lengths))
    (hstays : ¬Table.Crosses lengths) (name : TableFlaw → TableFlaw) :
    checked lengths lenient name = fail (.invalidTable (name (Table.imbalance lengths))) := by
  rw [checked, dif_neg hunsound, if_neg hstays]

-- Lengths of three bits are looked up in the root alone.
theorem stops_checked {lengths : List Nat} (hshort : ∀ length ∈ lengths, length < 8) (lenient : Bool) :
    Stops Refusal (checked lengths lenient .inCodeLengthCode) := by
  by_cases hsound : Complete lengths ∨ lenient = true ∧ Degenerate lengths
  · rw [checked, dif_pos hsound]
    exact .pure _
  · have hstays : ¬Table.Crosses lengths := Table.not_crosses_of_le_rootBits fun length hlength =>
      Nat.le_of_lt (Nat.lt_succ_of_lt (hshort length hlength))
    rw [checked_eq_fail hsound hstays]
    intro s stop t h
    cases h
    exact Or.inr ⟨_, rfl, .code _⟩

theorem checked_eq_ok {lengths : List Nat} {name : TableFlaw → TableFlaw} {s : State} {code : Code}
    {t : State} (h : checked lengths false name s = .ok code t) :
    code.lengths = lengths ∧ Complete lengths := by
  unfold checked at h
  split at h
  · rename_i hsound
    cases h
    exact ⟨rfl, hsound.resolve_right fun hlenient => Bool.noConfusion hlenient.1⟩
  · split at h <;> cases h

-- A header is refused for a code of code lengths that does not fill its space,
-- for a run that repeats nothing, and for one that is too long; for nothing else.
theorem stops_announcement : Stops Refusal announcement := by
  refine (stops_number 5).bind_all fun literals => (stops_number 5).bind_all fun distances =>
    (stops_number 4).bind_all fun count => (stops_order _ _).bind fun seen _ _ hseen => ?_
  have hshort := mem_bySymbol_lt (order_lt (fun _ h => absurd h List.not_mem_nil) hseen)
  refine (stops_checked hshort _).bind fun code s t hcode => ?_
  obtain ⟨hlengths, hcomplete⟩ := checked_eq_ok hcode
  exact (stops_allLengths (hlengths ▸ hcomplete) _ _ _).bind_all fun lengths => .pure _

end Unpack.Deflate.Reference
