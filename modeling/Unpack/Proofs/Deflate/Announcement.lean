import Unpack.Proofs.Deflate.Leads
import Unpack.Proofs.Deflate.Reference.Announcement
import Unpack.Proofs.Loop

namespace Unpack.Deflate.CodeLengths

open Bits (Reader)
open Huffman (Complete Degenerate Table Consumes maxLength)
open Reference

-- A table is built where the lengths pass the check, and fails in the same way.
theorem build_cases (lengths : List Nat) (hcount : lengths.length ≤ Huffman.Tree.symbolModulus)
    (hshort : ∀ length ∈ lengths, length ≤ maxLength) (lenient : Bool) (name : TableFlaw → TableFlaw) :
    (∃ t code, Table.build lengths lenient = .ok t ∧ code.lengths = lengths ∧
      t.Decodes code.lengths ∧ checked lengths lenient name = pure code) ∨
    (Table.build lengths lenient = .error .overflow ∧ Table.Crosses lengths ∧
      checked lengths lenient name = fail .overflow) ∨
    (∃ flaw, Table.build lengths lenient = .error (.invalidTable flaw) ∧
      checked lengths lenient name = fail (.invalidTable (name flaw))) := by
  by_cases hsound : Complete lengths ∨ lenient = true ∧ Degenerate lengths
  · refine Or.inl ⟨_, ⟨lengths, hsound.imp_right And.right⟩,
      (Table.build_eq_ok_iff lengths hcount lenient _).mpr ⟨hsound, rfl⟩, rfl,
      ⟨hcount, hsound.imp_right And.right, rfl⟩, ?_⟩
    rw [checked, dif_pos hsound]
  · have hbuild := Table.build_of_short hcount hshort lenient
    rw [if_neg hsound] at hbuild
    rw [checked, dif_neg hsound, hbuild]
    by_cases hcrosses : Table.Crosses lengths
    · rw [if_pos hcrosses, if_pos hcrosses]
      exact Or.inr (Or.inl ⟨rfl, hcrosses, rfl⟩)
    · rw [if_neg hcrosses, if_neg hcrosses]
      exact Or.inr (Or.inr ⟨_, rfl, rfl⟩)

-- Lengths by symbol are found in the same place.
theorem lookup_zip (keys values : List Nat) (key : Nat) (hkey : key ∈ keys) :
    ((keys.zip values).lookup key).getD 0 = values.getD (keys.idxOf key) 0 := by
  induction keys generalizing values with
  | nil => simp at hkey
  | cons first keys ih =>
      cases values with
      | nil => simp
      | cons value values =>
          by_cases heq : key = first
          · simp [heq]
          · have hrest : key ∈ keys := (List.mem_cons.mp hkey).resolve_left heq
            have hne : (first == key) = false := by simpa using fun h => heq h.symm
            have hne' : (key == first) = false := by simpa using heq
            rw [List.zip_cons_cons, List.lookup_cons, hne', List.idxOf_cons, hne]
            exact ih values hrest

theorem orderLengths_eq (seen : Array Nat) : orderLengths seen = bySymbol seen.toList := by
  have hsent : ∀ symbol < 19, symbol ∈ codeLengthOrder := by decide
  apply List.map_congr_left
  intro symbol hsymbol
  exact lookup_zip _ _ _ (hsent symbol (List.mem_range.mp hsymbol))

-- Counts as large as their bits allow, and lengths that fit in a code.
structure Bounded (c : CodeLengths) : Prop where
  literals : c.literals ≤ 288
  distances : c.distances ≤ 32
  size : c.lengths.size ≤ c.total
  lengths : ∀ length ∈ c.lengths.toList, length ≤ maxLength

-- What is left to read where the header stopped.
inductive Pending : CodeLengths → Decoding Announcement → Prop where
  | literalCount (c : CodeLengths) (hstage : c.stage = .literalCount) : Pending c announcement
  | distanceCount (c : CodeLengths) (hstage : c.stage = .distanceCount)
      (hliterals : c.literals ≤ 288) : Pending c (announcementFromDistanceCount c.literals)
  | orderCount (c : CodeLengths) (hstage : c.stage = .orderCount) (hliterals : c.literals ≤ 288)
      (hdistances : c.distances ≤ 32) :
      Pending c (announcementFromOrderCount c.literals c.distances)
  | order (c : CodeLengths) (count : Nat) (seen : Array Nat) (hstage : c.stage = .order count seen)
      (hliterals : c.literals ≤ 288) (hdistances : c.distances ≤ 32)
      (hseen : ∀ length ∈ seen.toList, length < 8) :
      Pending c (announcementFromOrder c.literals c.distances (count - seen.size) seen.toList)
  | lengths (c : CodeLengths) (t : Table) (code : Code) (hstage : c.stage = .lengths t)
      (hc : c.Bounded) (hdecodes : t.Decodes code.lengths) :
      Pending c (announcementFromLengths code c.literals c.distances c.lengths.toList)
  | repeating (c : CodeLengths) (t : Table) (code : Code) (symbol : Nat)
      (hstage : c.stage = .repeating t symbol) (hc : c.Bounded) (hdecodes : t.Decodes code.lengths)
      (hsymbol : 16 ≤ symbol) :
      Pending c (run c.total symbol c.lengths.toList >>=
        announcementFromLengths code c.literals c.distances)

-- What was announced once all lengths are there.
def announcedAll (c : CodeLengths) : Announcement :=
  ⟨c.literals, c.distances, c.lengths.toList⟩

-- What the reading of a header comes to.
inductive Outcome (p : Decoding Announcement) (r : Reader) :
    Except Fault Bool × CodeLengths × Reader → Prop where
  | failed (fault : Fault) (c : CodeLengths) (next : Reader)
      (hleads : LeadsAt p r (fail fault) next) : Outcome p r (.error fault, c, next)
  | suspended (c : CodeLengths) (next : Reader) (p' : Decoding Announcement)
      (hpending : Pending c p') (hbits : next.bits.length ≤ r.bits.length)
      (hleads : LeadsAt p r p' next) (hstarves : StarvesAt p' next) :
      Outcome p r (.ok false, c, next)
  | complete (c : CodeLengths) (next : Reader) (hc : c.Bounded) (hstage : c.stage = .complete)
      (hsize : c.lengths.size = c.total) (hbits : next.bits.length ≤ r.bits.length)
      (hleads : LeadsAt p r (pure c.announcedAll) next) : Outcome p r (.ok true, c, next)

theorem Outcome.after {p q : Decoding Announcement} {r mid : Reader}
    {result : Except Fault Bool × CodeLengths × Reader} (h : Outcome q mid result)
    (hbits : mid.bits.length ≤ r.bits.length) (hleads : LeadsAt p r q mid) : Outcome p r result := by
  cases h with
  | failed fault c next h => exact .failed fault c next (hleads.trans h)
  | suspended c next q' hpending hle h hstarves =>
      exact .suspended c next q' hpending (Nat.le_trans hle hbits) (hleads.trans h) hstarves
  | complete c next hc hstage hsize hle h =>
      exact .complete c next hc hstage hsize (Nat.le_trans hle hbits) (hleads.trans h)

-- Nothing was there to read.
theorem Outcome.starved {c : CodeLengths} {p : Decoding Announcement} {r next : Reader}
    (hpending : Pending c p) (hsame : Consumes r next 0) (hstarves : StarvesAt p next) :
    Outcome p r (.ok false, c, next) :=
  .suspended c next p hpending (Nat.le_of_eq (congrArg List.length hsame.bits))
    (LeadsAt.of_same p hsame) hstarves

theorem addition_eq (c : CodeLengths) (symbol : Nat) (hsymbol : 16 ≤ symbol) :
    addition c.literals c.total symbol c.lengths.toList =
      match c.runStartsAlphabet symbol with
      | some alphabet => corrupted (.repeatAtStart alphabet)
      | none => run c.total symbol c.lengths.toList := by
  simp only [addition, runStartsAlphabet, Array.length_toList, if_neg (Nat.not_lt.mpr hsymbol)]
  by_cases hcopy : symbol = 16
  · simp only [hcopy, true_and, ne_eq, not_true, if_false]
    split
    · rfl
    · split <;> rfl
  · simp only [hcopy, false_and, ne_eq, not_false_eq_true, if_true, if_false]

theorem runCode_eq {symbol : Nat} (hsymbol : 16 ≤ symbol) :
    runCode symbol = (runBits symbol, runBase symbol) := by
  unfold runCode runBits runBase
  by_cases hcopy : symbol = 16
  · simp [hcopy]
  · by_cases hzeros : symbol = 17
    · simp [hzeros]
    · have : ¬symbol < 18 := by omega
      simp [hcopy, hzeros, this]

theorem runBase_pos (symbol : Nat) : 0 < runBase symbol := by
  unfold runBase
  split <;> decide

theorem runValue_eq (symbol : Nat) (lengths : Array Nat) :
    runValue symbol lengths = if symbol = 16 then lengths.toList.getLast?.getD 0 else 0 := by
  rw [runValue, Array.getLast?_toList]

theorem Bounded.append {c : CodeLengths} (hc : c.Bounded) {count value : Nat}
    (hsize : c.lengths.size + count ≤ c.total) (hvalue : value ≤ maxLength) (stage : Stage) :
    Bounded { c with stage, lengths := c.lengths ++ Array.replicate count value } := by
  refine ⟨hc.literals, hc.distances, ?_, ?_⟩
  · simp only [Array.size_append, Array.size_replicate]
    exact hsize
  · intro length hlength
    simp only [Array.toList_append, Array.toList_replicate, List.mem_append, List.mem_replicate]
      at hlength
    rcases hlength with hold | ⟨_, rfl⟩
    · exact hc.lengths length hold
    · exact hvalue

theorem runValue_le {c : CodeLengths} (hc : c.Bounded) (symbol : Nat) :
    runValue symbol c.lengths ≤ maxLength := by
  rw [runValue_eq]
  split
  · cases hlast : c.lengths.toList.getLast? with
    | none => exact Nat.zero_le _
    | some length => exact hc.lengths length (List.mem_of_getLast? hlast)
  · exact Nat.zero_le _

theorem readRun_cases {c : CodeLengths} (hc : c.Bounded) (t : Table) {symbol : Nat}
    (hsymbol : 16 ≤ symbol) (r : Reader) :
    (∃ lengths next, c.readRun t symbol r = (.ok true, { c with stage := .lengths t, lengths }, next) ∧
      Bounded { c with stage := .lengths t, lengths } ∧ c.lengths.size < lengths.size ∧
      next.bits.length ≤ r.bits.length ∧
      LeadsAt (run c.total symbol c.lengths.toList) r (pure lengths.toList) next) ∨
    (∃ next, c.readRun t symbol r = (.ok false, { c with stage := .repeating t symbol }, next) ∧
      Consumes r next 0 ∧ StarvesAt (run c.total symbol c.lengths.toList) next) ∨
    (∃ fault c' next, c.readRun t symbol r = (.error fault, c', next) ∧
      LeadsAt (run c.total symbol c.lengths.toList) r (fail fault) next) := by
  simp only [readRun, runCode_eq hsymbol, run, ← runValue_eq]
  rcases read_cases r (runBits symbol) with
    ⟨more, next, hread, -, hbits, hleads⟩ | ⟨next, hread, -, hsame, hstarves⟩
  · have hleads := hleads.bind_pure fun more =>
      appendRun c.total (runBase symbol + more) (runValue symbol c.lengths) c.lengths.toList
    have hpositive := runBase_pos symbol
    simp only [hread]
    split
    · rename_i hfits
      refine Or.inl ⟨_, next, rfl, hc.append hfits (runValue_le hc symbol) _, ?_, by omega, ?_⟩
      · simp only [Array.size_append, Array.size_replicate]
        omega
      · refine hleads.trans ?_
        rw [appendRun, if_pos (by exact hfits), Array.toList_append, Array.toList_replicate]
        exact LeadsAt.refl _ _
    · rename_i hover
      refine Or.inr (Or.inr ⟨_, _, next, rfl, hleads.trans ?_⟩)
      rw [appendRun, if_neg (by exact hover)]
      exact leadsAt_corrupted _ next
  · simp only [hread]
    exact Or.inr (Or.inl ⟨next, rfl, hsame, hstarves.bind _⟩)

theorem Bounded.push {c : CodeLengths} (hc : c.Bounded) {length : Nat} (hlength : length < 16)
    (hsize : c.lengths.size < c.total) : Bounded { c with lengths := c.lengths.push length } := by
  refine ⟨hc.literals, hc.distances, ?_, ?_⟩
  · rw [Array.size_push]
    exact hsize
  · intro other hother
    rw [Array.toList_push, List.mem_append, List.mem_singleton] at hother
    rcases hother with hold | rfl
    · exact hc.lengths other hold
    · simp only [maxLength]
      omega

-- All lengths are there.
theorem Outcome.done {c : CodeLengths} (hc : c.Bounded) (code : Code)
    (hall : c.total ≤ c.lengths.size) (r : Reader) :
    Outcome (announcementFromLengths code c.literals c.distances c.lengths.toList) r
      (.ok true, { c with stage := .complete }, r) := by
  refine .complete _ r ⟨hc.literals, hc.distances, hc.size, hc.lengths⟩ rfl
    (Nat.le_antisymm hc.size hall) (Nat.le_refl _) ?_
  rw [announcementFromLengths_of_le code hall]
  exact LeadsAt.refl _ _

-- A run whose symbol is read, given that what is done after it is right.
theorem readRun_outcome {c : CodeLengths} (hc : c.Bounded) {t : Table} {code : Code}
    (hdecodes : t.Decodes code.lengths) {symbol : Nat} (hsymbol : 16 ≤ symbol)
    (go : CodeLengths → Reader → Except Fault Bool × CodeLengths × Reader)
    (hgo : ∀ lengths next, Bounded { c with stage := .lengths t, lengths } →
      c.lengths.size < lengths.size →
      Outcome (announcementFromLengths code c.literals c.distances lengths.toList) next
        (go { c with stage := .lengths t, lengths } next))
    (r : Reader) :
    Outcome (run c.total symbol c.lengths.toList >>=
      announcementFromLengths code c.literals c.distances) r
      (match c.readRun t symbol r with
        | (.ok true, c, r) => go c r
        | stopped => stopped) := by
  rcases readRun_cases hc t hsymbol r with
    ⟨lengths, next, hrun, hc', hmore, hbits, hleads⟩ | ⟨next, hrun, hsame, hstarves⟩ |
    ⟨fault, c', next, hrun, hleads⟩
  · simp only [hrun]
    exact (hgo lengths next hc' hmore).after hbits (hleads.bind_pure _)
  · simp only [hrun]
    have hpending := Pending.repeating { c with stage := .repeating t symbol } t code symbol rfl
      ⟨hc.literals, hc.distances, hc.size, hc.lengths⟩ hdecodes hsymbol
    exact .starved hpending hsame (hstarves.bind _)
  · simp only [hrun]
    exact .failed fault c' next (hleads.bind_fail _)

-- Where the reading of the lengths stands: this much is left of `p`, begun at `r`.
structure Remains (code : Code) (p : Decoding Announcement) (r : Reader) (c : CodeLengths)
    (next : Reader) : Prop where
  bounded : c.Bounded
  bits : next.bits.length ≤ r.bits.length
  leads : LeadsAt p r (announcementFromLengths code c.literals c.distances c.lengths.toList) next

theorem Remains.after {code : Code} {p q : Decoding Announcement} {r mid : Reader} {c : CodeLengths}
    {next : Reader} (h : Remains code q mid c next) (hbits : mid.bits.length ≤ r.bits.length)
    (hleads : LeadsAt p r q mid) : Remains code p r c next :=
  ⟨h.bounded, Nat.le_trans h.bits hbits, hleads.trans h.leads⟩

-- A run appends lengths.
theorem readRun_grows {c c' : CodeLengths} {code : Table} {symbol : Nat} {r next : Reader}
    (h : c.readRun code symbol r = (.ok true, c', next)) :
    c.lengths.size < c'.lengths.size ∧ c'.total = c.total := by
  have hleast : 0 < (runCode symbol).2 := by
    unfold runCode
    split
    · decide
    · split <;> decide
  unfold readRun at h
  dsimp only at h
  split at h
  · cases h
  · split at h
    · cases h
      refine ⟨?_, rfl⟩
      simp only [Array.size_append, Array.size_replicate]
      omega
    · cases h

-- A round that goes on appends one or more of the lengths that are missing.
theorem lengthRound_grows {c c' : CodeLengths} {code : Table} {r next : Reader}
    (h : lengthRound code (c, r) = .inl (c', next)) :
    c'.total - c'.lengths.size < c.total - c.lengths.size := by
  rw [lengthRound] at h
  split at h
  · cases h
  rename_i hmissing
  split at h
  · cases h
  · cases h
  · split at h
    · cases h
      show c.total - (c.lengths.push _).size < c.total - c.lengths.size
      rw [Array.size_push]
      omega
    · split at h
      · cases h
      · split at h
        · rename_i hrun
          cases h
          obtain ⟨hgrows, htotal⟩ := readRun_grows hrun
          omega
        · cases h

-- A round reads one symbol and appends what it stands for.
theorem lengthRound_outcome {c : CodeLengths} (hc : c.Bounded) {t : Table} {code : Code}
    (hdecodes : t.Decodes code.lengths) (r : Reader) :
    let p := announcementFromLengths code c.literals c.distances c.lengths.toList
    (lengthRound t (c, r)).elim (fun s => Remains code p r s.1 s.2) (Outcome p r) := by
  rw [lengthRound]
  by_cases hall : c.total ≤ c.lengths.size
  · rw [if_pos hall]
    exact .done hc code hall r
  · rw [if_neg hall]
    have hmissing := Nat.lt_of_not_le hall
    have hunfold : announcementFromLengths code c.literals c.distances c.lengths.toList =
        Reference.symbol code >>= fun symbol =>
          addition c.literals c.total symbol c.lengths.toList >>=
            announcementFromLengths code c.literals c.distances :=
      announcementFromLengths_of_lt code hmissing
    rcases symbol_cases hdecodes r with ⟨symbol, next, hsymbol, -, hbits, hleads⟩ |
      ⟨next, hsymbol, hsame, hstarves⟩ | ⟨fault, next, hsymbol, hleads⟩
    · have hleads := hleads.bind_pure fun symbol =>
        addition c.literals c.total symbol c.lengths.toList >>=
          announcementFromLengths code c.literals c.distances
      have hbits := Nat.le_of_lt hbits
      rw [← hunfold] at hleads
      simp only [hsymbol]
      by_cases hsmall : symbol < 16
      · rw [if_pos hsmall]
        rw [addition, if_pos hsmall, pure_bind, ← Array.toList_push] at hleads
        exact ⟨hc.push hsmall hmissing, hbits, hleads⟩
      · rw [if_neg hsmall]
        have hlarge := Nat.le_of_not_lt hsmall
        rw [addition_eq c symbol hlarge] at hleads
        cases hstart : c.runStartsAlphabet symbol with
        | some alphabet =>
            rw [hstart] at hleads
            exact .failed _ _ next (hleads.trans ((leadsAt_corrupted _ next).bind_fail _))
        | none =>
            rw [hstart] at hleads
            rcases readRun_cases hc t hlarge next with
              ⟨lengths, last, hrun, hc', -, hless, hrest⟩ | ⟨last, hrun, hsame, hstarves⟩ |
              ⟨fault, c', last, hrun, hrest⟩
            · simp only [hrun]
              exact Remains.after ⟨hc', hless, hrest.bind_pure _⟩ hbits hleads
            · simp only [hrun]
              have hpending := Pending.repeating { c with stage := .repeating t symbol } t code symbol
                rfl ⟨hc.literals, hc.distances, hc.size, hc.lengths⟩ hdecodes hlarge
              exact (Outcome.starved hpending hsame (hstarves.bind _)).after hbits hleads
            · simp only [hrun]
              exact (Outcome.failed fault c' last (hrest.bind_fail _)).after hbits hleads
    · simp only [hsymbol]
      refine .starved (.lengths _ t code rfl
        ⟨hc.literals, hc.distances, hc.size, hc.lengths⟩ hdecodes) hsame ?_
      rw [hunfold]
      exact hstarves.bind _
    · simp only [hsymbol]
      refine .failed fault _ next ?_
      rw [hunfold]
      exact hleads.bind_fail _

theorem readLengths_outcome {c : CodeLengths} (hc : c.Bounded) {t : Table} {code : Code}
    (hdecodes : t.Decodes code.lengths) (rounds : Nat) (hrounds : c.total - c.lengths.size ≤ rounds)
    (r : Reader) :
    Outcome (announcementFromLengths code c.literals c.distances c.lengths.toList) r
      (readLengths t rounds c r) := by
  refine Loop.run_rule_of_measure (P := fun s => Remains code _ r s.1 s.2)
    (fun s : CodeLengths × Reader => s.1.total - s.1.lengths.size) (fun s hs => ?_)
    (fun s hs hnone => ?_) hrounds ⟨hc, Nat.le_refl _, LeadsAt.refl _ _⟩
  · obtain ⟨c', next⟩ := s
    have hround := lengthRound_outcome hs.bounded hdecodes next
    cases hresult : lengthRound t (c', next) with
    | inl s' =>
        rw [hresult] at hround
        exact ⟨hround.after hs.bits hs.leads, lengthRound_grows hresult⟩
    | inr result =>
        rw [hresult] at hround
        exact hround.after hs.bits hs.leads
  · exact (Outcome.done hs.bounded code (Nat.le_of_sub_eq_zero hnone) s.2).after hs.bits hs.leads

theorem readOrder_outcome (count missing : Nat) (seen : Array Nat) {c : CodeLengths}
    (hmissing : missing = count - seen.size) (hseen : ∀ length ∈ seen.toList, length < 8)
    (hliterals : c.literals ≤ 288) (hdistances : c.distances ≤ 32) (r : Reader) :
    Outcome (announcementFromOrder c.literals c.distances missing seen.toList) r
      (readOrder count missing seen c r) := by
  induction missing generalizing seen r with
  | zero =>
      have hshort := mem_bySymbol_lt hseen
      rcases build_cases (bySymbol seen.toList)
        (by rw [bySymbol, List.length_map, List.length_range]; decide)
        (fun length hlength => Nat.le_of_lt (Nat.lt_of_lt_of_le (hshort length hlength) (by decide)))
        false .inCodeLengthCode with
        ⟨t, code, hbuild, -, hdecodes, hchecked⟩ | ⟨-, hcrosses, -⟩ | ⟨flaw, hbuild, hchecked⟩
      · simp only [readOrder, orderLengths_eq, Table.ofLengths, hbuild, announcementFromOrder, order,
          pure_bind, hchecked]
        have hempty : Bounded { c with lengths := #[] } :=
          ⟨hliterals, hdistances, Nat.zero_le _, fun _ h => absurd h List.not_mem_nil⟩
        exact readLengths_outcome hempty hdecodes _ (Nat.le_refl _) r
      · exact absurd hcrosses (Table.not_crosses_of_le_rootBits fun length hlength =>
          Nat.le_of_lt (Nat.lt_succ_of_lt (hshort length hlength)))
      · simp only [readOrder, orderLengths_eq, Table.ofLengths, hbuild, announcementFromOrder, order,
          pure_bind, hchecked]
        exact .failed _ _ r (LeadsAt.refl _ _)
  | succ missing ih =>
      have hunfold : announcementFromOrder c.literals c.distances (missing + 1) seen.toList =
          number 3 >>= fun length =>
            announcementFromOrder c.literals c.distances missing (seen.toList ++ [length]) := by
        simp only [announcementFromOrder, order, bind_assoc]
      simp only [readOrder]
      rcases read_cases r 3 with ⟨length, next, hread, hlength, hbits, hleads⟩ |
        ⟨next, hread, -, hsame, hstarves⟩
      · simp only [hread]
        have hleads := hleads.bind_pure fun length =>
          announcementFromOrder c.literals c.distances missing (seen.toList ++ [length])
        rw [← hunfold, ← Array.toList_push] at hleads
        refine (ih (seen.push length) ?_ ?_ next).after (by omega) hleads
        · rw [Array.size_push]
          omega
        · intro other hother
          rw [Array.toList_push, List.mem_append, List.mem_singleton] at hother
          exact hother.elim (hseen other) fun h => h ▸ hlength
      · simp only [hread]
        have hpending := Pending.order { c with stage := .order count seen } count seen rfl hliterals
          hdistances hseen
        rw [← hmissing, hunfold] at hpending
        rw [hunfold]
        exact .starved hpending hsame (hstarves.bind _)

theorem fromOrderCount_outcome {c : CodeLengths} (hliterals : c.literals ≤ 288)
    (hdistances : c.distances ≤ 32) (r : Reader) :
    Outcome (announcementFromOrderCount c.literals c.distances) r (c.fromOrderCount r) := by
  unfold fromOrderCount
  rcases read_cases r 4 with ⟨more, next, hread, -, hbits, hleads⟩ | ⟨next, hread, -, hsame, hstarves⟩
  · simp only [hread, fromOrder]
    exact (readOrder_outcome _ _ #[] (by simp) (by simp) hliterals hdistances next).after (by omega)
      (hleads.bind_pure fun more => announcementFromOrder c.literals c.distances (more + 4) [])
  · simp only [hread]
    exact .starved (.orderCount { c with stage := .orderCount } rfl hliterals hdistances) hsame
      (hstarves.bind _)

theorem fromDistanceCount_outcome {c : CodeLengths} (hliterals : c.literals ≤ 288) (r : Reader) :
    Outcome (announcementFromDistanceCount c.literals) r (c.fromDistanceCount r) := by
  unfold fromDistanceCount
  rcases read_cases r 5 with ⟨more, next, hread, hmore, hbits, hleads⟩ |
    ⟨next, hread, -, hsame, hstarves⟩
  · simp only [hread]
    have houtcome := fromOrderCount_outcome (c := { c with distances := more + 1 }) hliterals
      (by simp only; omega) next
    exact houtcome.after (by omega)
      (hleads.bind_pure fun more => announcementFromOrderCount c.literals (more + 1))
  · simp only [hread]
    exact .starved (.distanceCount { c with stage := .distanceCount } rfl hliterals) hsame
      (hstarves.bind _)

theorem fromLiteralCount_outcome (c : CodeLengths) (r : Reader) :
    Outcome announcement r (c.fromLiteralCount r) := by
  unfold fromLiteralCount
  rcases read_cases r 5 with ⟨more, next, hread, hmore, hbits, hleads⟩ |
    ⟨next, hread, -, hsame, hstarves⟩
  · simp only [hread]
    have houtcome := fromDistanceCount_outcome (c := { c with literals := more + 257 })
      (by simp only; omega) next
    exact houtcome.after (by omega)
      (hleads.bind_pure fun more => announcementFromDistanceCount (more + 257))
  · simp only [hread]
    exact .starved (.literalCount { c with stage := .literalCount } rfl) hsame (hstarves.bind _)

-- Wherever the header stopped, reading on does what is left to do.
theorem decode_outcome {c : CodeLengths} {p : Decoding Announcement} (h : Pending c p) (r : Reader) :
    Outcome p r (c.decode r) := by
  cases h with
  | literalCount hstage =>
      simp only [decode, hstage]
      exact fromLiteralCount_outcome c r
  | distanceCount hstage hliterals =>
      simp only [decode, hstage]
      exact fromDistanceCount_outcome hliterals r
  | orderCount hstage hliterals hdistances =>
      simp only [decode, hstage]
      exact fromOrderCount_outcome hliterals hdistances r
  | order count seen hstage hliterals hdistances hseen =>
      simp only [decode, hstage, fromOrder]
      exact readOrder_outcome count _ seen rfl hseen hliterals hdistances r
  | lengths t code hstage hc hdecodes =>
      simp only [decode, hstage, fromLengths]
      exact readLengths_outcome hc hdecodes _ (Nat.le_refl _) r
  | repeating t code symbol hstage hc hdecodes hsymbol =>
      simp only [decode, hstage]
      exact readRun_outcome hc hdecodes hsymbol (fun c r => c.fromLengths t r)
        (fun lengths next hc' _ => readLengths_outcome hc' hdecodes _ (Nat.le_refl _) next) r

end Unpack.Deflate.CodeLengths
