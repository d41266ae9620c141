import Unpack.Machine.Lengths
import Unpack.Proofs.Deflate.Sound.CodeLengths
import Unpack.Proofs.Machine.FlatTable.Symbol

namespace Unpack.Machine

open Bits (Register Reader)

-- A turn that goes on, and one that does not.
theorem Lengths.Turn.run_on {σ : Type} {turn : σ → Except Trap (Lengths.Turn σ)} {state next : σ}
    (h : turn state = .ok (.on next)) (rounds : Nat) :
    Lengths.Turn.run turn (rounds + 1) state = Lengths.Turn.run turn rounds next := by
  rw [Lengths.Turn.run, h]
  rfl

theorem Lengths.Turn.run_stop {σ : Type} {turn : σ → Except Trap (Lengths.Turn σ)} {state last : σ}
    {outcome : Except Fault Bool} (h : turn state = .ok (.stop outcome last)) (rounds : Nat) :
    Lengths.Turn.run turn (rounds + 1) state = .ok (outcome, last) := by
  rw [Lengths.Turn.run, h]
  rfl

namespace Lengths

open Deflate (CodeLengths codeLengthOrder endOfBlock)
open Deflate.Reference (bySymbol)
open Huffman (Table)

-- Arrays filled as far as lengths are there, with the code to read on with.
structure Filled (c : Lengths) (code : Table) (d : CodeLengths) : Prop where
  literals : c.literals = d.literals
  size : c.lengths.size = d.total
  next : c.next = d.lengths.size
  le : d.lengths.size ≤ d.total
  front : c.lengths.toList.take c.next = d.lengths.toList
  code : ∃ flat, c.code = some flat ∧ flat.Shows code

-- The same place among the code lengths, and the same lengths.
def Shows (c : Lengths) (d : CodeLengths) : Prop :=
  match d.stage with
  | .literalCount => c.stage = .literalCount
  | .distanceCount => c.stage = .distanceCount ∧ c.literals = d.literals
  | .orderCount => c.stage = .orderCount ∧ c.literals = d.literals ∧ c.distances = d.distances
  | .order count seen =>
      c.stage = .order ∧ c.literals = d.literals ∧ c.distances = d.distances ∧ c.orders = count ∧
        c.next = seen.size ∧ c.orderLengths.toList = bySymbol seen.toList
  | .lengths code => (c.stage = .literals ∨ c.stage = .distances) ∧ c.Filled code d
  | .repeating code symbol =>
      (c.stage = .literalRun ∨ c.stage = .distanceRun) ∧ c.symbol = symbol ∧ c.Filled code d
  | .complete => c.stage = .complete ∧ c.literals = d.literals ∧ c.lengths = d.lengths

-- The machine comes to the same answer, and to the same place.
def Agrees (result : Except Trap (Except Fault Bool × Lengths × Register))
    (answer : Except Fault Bool × CodeLengths × Reader) : Prop :=
  ∃ c g, result = .ok (answer.1, c, g) ∧ c.Shows answer.2.1 ∧ g.Shows answer.2.2

theorem shows_start : start.Shows .start := rfl

section Filling

variable {c : Lengths} {d : CodeLengths} {code : Table} {g : Register} {r : Reader}

theorem alphabet_literals (c : Lengths) :
    c.alphabet .literals .distances = .literals ∨ c.alphabet .literals .distances = .distances := by
  unfold alphabet
  split
  · exact .inl rfl
  · exact .inr rfl

theorem alphabet_runs (c : Lengths) :
    c.alphabet .literalRun .distanceRun = .literalRun ∨
      c.alphabet .literalRun .distanceRun = .distanceRun := by
  unfold alphabet
  split
  · exact .inl rfl
  · exact .inr rfl

-- What is read next says nothing about the arrays.
theorem Filled.at (h : c.Filled code d) (stage : Stage) (symbol : Nat) (stage' : CodeLengths.Stage) :
    Filled { c with stage, symbol } code { d with stage := stage' } :=
  ⟨h.literals, h.size, h.next, h.le, h.front, h.code⟩

-- Values written where the next lengths belong.
theorem Filled.paste (h : c.Filled code d) (values : List Nat)
    (hfits : d.lengths.size + values.length ≤ d.total) :
    ∃ lengths, Machine.paste c.lengths c.next values = .ok lengths ∧
      Filled { c with lengths, next := c.next + values.length } code
        { d with lengths := d.lengths ++ values.toArray } := by
  have hsize := h.size
  have hnext := h.next
  have hlist : c.lengths.toList.length = d.total := hsize
  have hfront : (c.lengths.toList.take c.next).length = c.next := by
    rw [List.length_take, hlist]
    omega
  refine ⟨_, if_pos (by omega), h.literals, ?_, ?_, ?_, ?_, h.code⟩
  · simp only [List.size_toArray, List.length_append, List.length_take, List.length_drop, hlist]
    show _ = d.total
    omega
  · simp only [hnext, Array.size_append, List.size_toArray]
  · simp only [Array.size_append, List.size_toArray]
    exact hfits
  · simp only [Array.toList_append]
    rw [List.take_append_of_le_length (by rw [List.length_append, hfront]), List.take_of_length_le
      (by rw [List.length_append, hfront]), h.front]

theorem Filled.put (h : c.Filled code d) (value : Nat) (hmore : d.lengths.size < d.total) :
    ∃ lengths, Machine.put c.lengths c.next value = .ok lengths ∧
      Filled { c with lengths, next := c.next + 1 } code { d with lengths := d.lengths.push value } := by
  obtain ⟨lengths, hpaste, hfilled⟩ := h.paste [value] hmore
  have hsize := h.size
  have hnext := h.next
  have hinside : c.next < c.lengths.size := by omega
  rw [paste_singleton hinside] at hpaste
  refine ⟨lengths, (put_eq hinside value).trans hpaste, ?_⟩
  have hpush : d.lengths.push value = d.lengths ++ [value].toArray := by simp
  rw [hpush]
  exact hfilled

-- With all lengths there, two turns end the call.
theorem Filled.run_of_complete (h : c.Filled code d) (hstage : c.stage = .literals ∨ c.stage = .distances)
    (hcomplete : d.total ≤ d.lengths.size) {fuel : Nat} (hfuel : 2 ≤ fuel) (hg : g.Shows r) :
    Agrees (Turn.run turn fuel (c, g)) (.ok true, { d with stage := .complete }, r) := by
  obtain ⟨rest, rfl⟩ : ∃ rest, fuel = rest + 1 + 1 := ⟨fuel - 2, by omega⟩
  obtain ⟨flat, hflat, -⟩ := h.code
  have hsize := h.size
  have hnext := h.next
  have hturn : turn (c, g) = .ok (.on ({ c with stage := .complete }, g)) := by
    have hlengths : c.lengthsTurn g = .ok (.on ({ c with stage := .complete }, g)) := by
      have hnone : c.lengths.size - c.next = 0 := by omega
      simp only [lengthsTurn, hflat, hnone, readLengths, pure, Except.pure, bind, Except.bind]
    rcases hstage with hstage | hstage <;> simp only [turn, hstage, hlengths]
  have hlast : turn ({ c with stage := .complete }, g) =
      .ok (.stop (.ok true) ({ c with stage := .complete }, g)) := rfl
  rw [Turn.run_on hturn, Turn.run_stop hlast]
  refine ⟨_, g, rfl, ⟨rfl, h.literals, ?_⟩, hg⟩
  have hall := h.front
  rw [List.take_of_length_le (by rw [Array.length_toList]; omega)] at hall
  exact Array.toList_inj.mp hall

-- A length of its own takes no turn.
theorem Filled.turn_of_literal (h : c.Filled code d)
    (hstage : c.stage = .literals ∨ c.stage = .distances) (hmore : d.lengths.size < d.total)
    {symbol : Nat} (hliteral : symbol < 16) {next : Reader}
    (hsymbol : code.symbol r = (.ok (some symbol), next)) (hg : g.Shows r) :
    ∃ c' g', turn (c, g) = turn (c', g') ∧ (c'.stage = .literals ∨ c'.stage = .distances) ∧
      c'.Filled code { d with lengths := d.lengths.push symbol } ∧ g'.Shows next := by
  obtain ⟨flat, hflat, hshows⟩ := h.code
  obtain ⟨g', hlookup, hg'⟩ := hshows.symbol_eq hg
  rw [hsymbol] at hlookup hg'
  obtain ⟨lengths, hput, hfilled⟩ := h.put symbol hmore
  have hsize := h.size
  have hsize' := hfilled.size
  have hnext := h.next
  obtain ⟨rest, hrest⟩ : ∃ rest, c.lengths.size - c.next = rest + 1 :=
    ⟨c.lengths.size - c.next - 1, by omega⟩
  have hrest' : lengths.size - (c.next + 1) = rest := by
    dsimp only at hsize'
    have htotal : lengths.size = d.total := hsize'
    omega
  refine ⟨{ c with lengths, next := c.next + 1 }, g', ?_, hstage, hfilled, hg'⟩
  have hlengths : c.lengthsTurn g = lengthsTurn { c with lengths, next := c.next + 1 } g' := by
    simp only [lengthsTurn, hflat, hrest, hrest', readLengths, hlookup, if_pos hliteral, hput, bind,
      Except.bind]
  rcases hstage with hstage | hstage <;> simp only [turn, hstage, hlengths]

-- A turn for a lookup that does not lead to a length.
theorem Filled.turn_of_symbol (h : c.Filled code d)
    (hstage : c.stage = .literals ∨ c.stage = .distances) (hmore : d.lengths.size < d.total)
    (hg : g.Shows r) :
    ∃ g', g'.Shows (code.symbol r).2 ∧
      ((∀ fault, (code.symbol r).1 = .error fault →
        turn (c, g) = .ok (.stop (.error fault) (c, g'))) ∧
      ((code.symbol r).1 = .ok none → turn (c, g) =
        .ok (.stop (.ok false) ({ c with stage := c.alphabet .literals .distances }, g'))) ∧
      ∀ symbol, (code.symbol r).1 = .ok (some symbol) → 16 ≤ symbol →
        turn (c, g) = .ok (match d.runStartsAlphabet symbol with
          | some alphabet => .stop
              (.error (.corrupted (code.symbol r).2.consumed (.repeatAtStart alphabet))) (c, g')
          | none => .on ({ c with symbol, stage := c.alphabet .literalRun .distanceRun }, g'))) := by
  obtain ⟨flat, hflat, hshows⟩ := h.code
  obtain ⟨g', hlookup, hg'⟩ := hshows.symbol_eq hg
  have hsize := h.size
  have hnext := h.next
  obtain ⟨rest, hrest⟩ : ∃ rest, c.lengths.size - c.next = rest + 1 :=
    ⟨c.lengths.size - c.next - 1, by omega⟩
  have hturn : turn (c, g) = c.lengthsTurn g := by
    rcases hstage with hstage | hstage <;> simp only [turn, hstage]
  rw [hturn]
  refine ⟨g', hg', fun fault hfault => ?_, fun hnone => ?_, fun symbol hsymbol hlarge => ?_⟩
  · rw [hfault] at hlookup
    simp only [lengthsTurn, hflat, hrest, readLengths, hlookup, pure, Except.pure, bind, Except.bind]
  · rw [hnone] at hlookup
    simp only [lengthsTurn, hflat, hrest, readLengths, hlookup, pure, Except.pure, bind, Except.bind]
  · rw [hsymbol] at hlookup
    have hstarts : d.runStartsAlphabet symbol =
        if symbol = 16 ∧ (c.next = 0 ∨ c.next = c.literals) then
          some (if c.next = 0 then .literal else .distance) else none := by
      rw [CodeLengths.runStartsAlphabet, hnext, h.literals]
      grind
    simp only [lengthsTurn, hflat, hrest, readLengths, hlookup, if_neg (Nat.not_lt.mpr hlarge), hstarts,
      ← hg'.consumed, pure, Except.pure, bind, Except.bind]
    by_cases hrefused : symbol = 16 ∧ (c.next = 0 ∨ c.next = c.literals)
    · simp only [if_pos hrefused]
    · simp only [if_neg hrefused, hflat]

theorem cell_runCodes {symbol : Nat} (hlarge : 16 ≤ symbol) (hsmall : symbol < 19) :
    cell runCodes (symbol - 16) = .ok (CodeLengths.runCode symbol) := by
  have hcodes : ∀ index < 3, runCodes[index]? = some (CodeLengths.runCode (index + 16)) := by decide
  have hcode := hcodes (symbol - 16) (by omega)
  rw [Nat.sub_add_cancel hlarge] at hcode
  exact cell_eq hcode

-- The length that stands before the next one.
theorem Filled.cell_previous (h : c.Filled code d) (hsome : d.lengths.size ≠ 0) :
    cell c.lengths (c.next - 1) = .ok (d.lengths.back?.getD 0) := by
  have hnext := h.next
  have hlast : d.lengths.toList[c.next - 1]? = some (d.lengths.back?.getD 0) := by
    have hinside : c.next - 1 < d.lengths.size := by omega
    rw [Array.back?, ← hnext, Array.getElem?_toList, Array.getElem?_eq_getElem hinside]
    rfl
  rw [← h.front, List.getElem?_take_of_lt (by omega), Array.getElem?_toList] at hlast
  exact cell_eq hlast

theorem runCode_bounds {symbol : Nat} (hlarge : 16 ≤ symbol) (hsmall : symbol < 19) :
    (CodeLengths.runCode symbol).1 ≤ 16 ∧ 0 < (CodeLengths.runCode symbol).2 := by
  have hcodes : ∀ index < 3, (CodeLengths.runCode (index + 16)).1 ≤ 16 ∧
      0 < (CodeLengths.runCode (index + 16)).2 := by decide
  have hbounds := hcodes (symbol - 16) (by omega)
  rwa [Nat.sub_add_cancel hlarge] at hbounds

-- A run that fits is written where the next lengths belong.
theorem Filled.runTurn_of_fits (h : c.Filled code d) (hlarge : 16 ≤ c.symbol) (hsmall : c.symbol < 19)
    (hprevious : c.symbol = 16 → d.lengths.size ≠ 0) {extra least more : Nat}
    (hrun : CodeLengths.runCode c.symbol = (extra, least)) {g' : Register}
    (hread : read g extra = .ok (some more, g'))
    (hfits : d.lengths.size + (least + more) ≤ d.total) :
    ∃ c', c.runTurn g = .ok (.on (c', g')) ∧ (c'.stage = .literals ∨ c'.stage = .distances) ∧
      c'.Filled code { d with
        lengths := d.lengths ++
          Array.replicate (least + more) (CodeLengths.runValue c.symbol d.lengths) } := by
  have hcode := cell_runCodes hlarge hsmall
  have hsize := h.size
  have hnext := h.next
  have hcommon := Nat.add_comm more least
  have hroom : ¬c.lengths.size < c.next + (least + more) := by omega
  obtain ⟨lengths, hpaste, hfilled⟩ := h.paste
    (List.replicate (least + more) (CodeLengths.runValue c.symbol d.lengths))
    (by rwa [List.length_replicate])
  rw [List.length_replicate, List.toArray_replicate] at hfilled
  rw [hrun] at hcode
  refine ⟨{ c with
      lengths
      next := c.next + (least + more)
      stage := alphabet { c with lengths, next := c.next + (least + more) } .literals .distances },
    ?_, alphabet_literals _, hfilled.at _ _ _⟩
  rw [runTurn]
  rw [CodeLengths.runValue] at hpaste
  by_cases hrepeat : c.symbol = 16
  · have hsome := hprevious hrepeat
    rw [if_pos hrepeat] at hpaste
    simp only [minus_eq hlarge, hcode, hread, hcommon, if_neg hroom, if_pos hrepeat,
      minus_eq (show 1 ≤ c.next by omega), h.cell_previous hsome, hpaste, pure, Except.pure,
      bind, Except.bind]
  · rw [if_neg hrepeat] at hpaste
    simp only [minus_eq hlarge, hcode, hread, hcommon, if_neg hroom, if_neg hrepeat, hpaste,
      pure, Except.pure, bind, Except.bind]

-- A run goes on from where it was announced, or stops there.
theorem Filled.turn_of_run (h : c.Filled code d)
    (hstage : c.stage = .literalRun ∨ c.stage = .distanceRun) (hlarge : 16 ≤ c.symbol)
    (hsmall : c.symbol < 19) (hprevious : c.symbol = 16 → d.lengths.size ≠ 0) (hg : g.Shows r) :
    ∃ c' g', g'.Shows (d.readRun code c.symbol r).2.2 ∧
      (((d.readRun code c.symbol r).1 = .ok true ∧ turn (c, g) = .ok (.on (c', g')) ∧
          (c'.stage = .literals ∨ c'.stage = .distances) ∧
          c'.Filled code (d.readRun code c.symbol r).2.1 ∧
          (d.readRun code c.symbol r).2.1.total = d.total ∧
          d.lengths.size < (d.readRun code c.symbol r).2.1.lengths.size) ∨
        ((d.readRun code c.symbol r).1 ≠ .ok true ∧
          turn (c, g) = .ok (.stop (d.readRun code c.symbol r).1 (c', g')) ∧
          c'.Shows (d.readRun code c.symbol r).2.1)) := by
  have hturn : turn (c, g) = c.runTurn g := by
    rcases hstage with hstage | hstage <;> simp only [turn, hstage]
  have hcode := cell_runCodes hlarge hsmall
  have hbounds := runCode_bounds hlarge hsmall
  have hsize := h.size
  have hnext := h.next
  have hstays : c.Shows { d with stage := .repeating code c.symbol } :=
    ⟨hstage, rfl, h.at c.stage c.symbol _⟩
  obtain ⟨⟨extra, least⟩, hrun⟩ : ∃ run, CodeLengths.runCode c.symbol = run := ⟨_, rfl⟩
  rw [hrun] at hcode hbounds
  obtain ⟨g', hread, hg'⟩ := read_eq hg hbounds.1
  rw [hturn, CodeLengths.readRun, hrun]
  dsimp only at hread hg' ⊢
  generalize r.read extra = result at hread hg' ⊢
  obtain ⟨_ | more, next⟩ := result
  · refine ⟨c, g', hg', .inr ⟨by simp, ?_, hstays⟩⟩
    simp only [runTurn, minus_eq hlarge, hcode, hread, pure, Except.pure, bind, Except.bind]
  · dsimp only at hread hg' ⊢
    by_cases hfits : d.lengths.size + (least + more) ≤ d.total
    · obtain ⟨c', hgoes, hstage', hfilled⟩ :=
        h.runTurn_of_fits hlarge hsmall hprevious hrun hread hfits
      rw [if_pos hfits]
      refine ⟨c', g', hg', .inl ⟨rfl, hgoes, hstage', hfilled.at c'.stage c'.symbol _, rfl, ?_⟩⟩
      simp only [Array.size_append, Array.size_replicate]
      omega
    · have hroom : d.total < c.next + (least + more) := by omega
      have hcommon := Nat.add_comm more least
      rw [if_neg hfits]
      refine ⟨c, g', hg', .inr ⟨by simp, ?_, hstays⟩⟩
      simp only [runTurn, minus_eq hlarge, hcode, hread, hcommon, if_pos hroom, hg'.consumed, hsize,
        pure, Except.pure, bind, Except.bind]

-- A run comes to the same answer if what is read after it does.
theorem Filled.run_of_run (h : c.Filled code d)
    (hstage : c.stage = .literalRun ∨ c.stage = .distanceRun) (hlarge : 16 ≤ c.symbol)
    (hsmall : c.symbol < 19) (hprevious : c.symbol = 16 → d.lengths.size ≠ 0) (hg : g.Shows r)
    {rest : Nat} (later : CodeLengths → Reader → Except Fault Bool × CodeLengths × Reader)
    (hlater : ∀ {c' : Lengths} {d' : CodeLengths} {g' : Register} {r' : Reader}, c'.Filled code d' →
      c'.stage = .literals ∨ c'.stage = .distances → d'.total = d.total →
      d.lengths.size < d'.lengths.size → g'.Shows r' →
      Agrees (Turn.run turn rest (c', g')) (later d' r')) :
    Agrees (Turn.run turn (rest + 1) (c, g)) (match d.readRun code c.symbol r with
      | (.ok true, d', r') => later d' r'
      | stopped => stopped) := by
  obtain ⟨c', g', hg', ⟨hruns, hturn, hstage', hfilled, htotal, hgrows⟩ | ⟨hstops, hturn, hshows⟩⟩ :=
    h.turn_of_run hstage hlarge hsmall hprevious hg
  · rw [Turn.run_on hturn]
    generalize d.readRun code c.symbol r = result at hruns hfilled htotal hgrows hg' ⊢
    obtain ⟨outcome, d', last⟩ := result
    dsimp only at hruns hfilled htotal hgrows hg'
    subst hruns
    exact hlater hfilled hstage' htotal hgrows hg'
  · rw [Turn.run_stop hturn]
    generalize d.readRun code c.symbol r = result at hstops hshows hg' ⊢
    obtain ⟨outcome, d', last⟩ := result
    dsimp only at hstops hshows hg'
    cases outcome with
    | error fault => exact ⟨c', g', rfl, hshows, hg'⟩
    | ok more =>
        cases more with
        | false => exact ⟨c', g', rfl, hshows, hg'⟩
        | true => exact absurd rfl hstops

-- Reading lengths to their end takes two turns for each length at most, and two
-- to end.
theorem Filled.run_lengths (h : c.Filled code d)
    (hstage : c.stage = .literals ∨ c.stage = .distances) (hcode : code.Ready 19) (rounds : Nat)
    (hrounds : d.total - d.lengths.size ≤ rounds) {fuel : Nat}
    (hfuel : 2 * (d.total - d.lengths.size) + 2 ≤ fuel) (hg : g.Shows r) :
    Agrees (Turn.run turn fuel (c, g)) (CodeLengths.readLengths code rounds d r) := by
  induction rounds generalizing c d g r fuel with
  | zero => exact h.run_of_complete hstage (by omega) (by omega) hg
  | succ rounds ih =>
      rw [CodeLengths.readLengths, Loop.run, CodeLengths.lengthRound]
      by_cases hcomplete : d.total ≤ d.lengths.size
      · rw [if_pos hcomplete]
        exact h.run_of_complete hstage hcomplete (by omega) hg
      rw [if_neg hcomplete]
      have hmore := Nat.lt_of_not_le hcomplete
      have hopen : Shows c { d with stage := .lengths code } := ⟨hstage, h.at c.stage c.symbol _⟩
      obtain ⟨rest, rfl⟩ : ∃ rest, fuel = rest + 1 := ⟨fuel - 1, by omega⟩
      obtain ⟨g', hg', hrefuses, hlacks, hruns⟩ := h.turn_of_symbol hstage hmore hg
      rcases hcode.symbol_cases r with ⟨symbol, next, hresult, hcount, -⟩ | ⟨next, hresult, -⟩ |
        ⟨next, hresult, -⟩
      · simp only [hresult] at hg' hruns ⊢
        by_cases hliteral : symbol < 16
        · rw [if_pos hliteral]
          obtain ⟨c', g'', hsame, hstage', hfilled, hg''⟩ :=
            h.turn_of_literal hstage hmore hliteral hresult hg
          have hrun : Turn.run turn (rest + 1) (c, g) = Turn.run turn (rest + 1) (c', g'') := by
            rw [Turn.run, Turn.run, hsame]
          rw [hrun]
          refine ih hfilled hstage' ?_ ?_ hg''
          · show d.total - (d.lengths.push symbol).size ≤ rounds
            rw [Array.size_push]
            omega
          · show 2 * (d.total - (d.lengths.push symbol).size) + 2 ≤ rest + 1
            rw [Array.size_push]
            omega
        · rw [if_neg hliteral]
          have hturn := hruns symbol rfl (Nat.le_of_not_lt hliteral)
          cases hstarts : d.runStartsAlphabet symbol with
          | some alphabet =>
              simp only [hstarts] at hturn
              exact ⟨c, g', Turn.run_stop hturn rest, hopen, hg'⟩
          | none =>
              simp only [hstarts] at hturn
              rw [Turn.run_on hturn]
              have hprevious : symbol = 16 → d.lengths.size ≠ 0 := by
                rintro rfl hempty
                simp [CodeLengths.runStartsAlphabet, hempty] at hstarts
              obtain ⟨rest, rfl⟩ : ∃ more, rest = more + 1 := ⟨rest - 1, by omega⟩
              have hagrees := (h.at (c.alphabet .literalRun .distanceRun) symbol d.stage).run_of_run
                c.alphabet_runs (Nat.le_of_not_lt hliteral) hcount hprevious hg'
                (CodeLengths.readLengths code rounds)
                fun {c' d' g'' r'} hfilled hstage' (htotal : d'.total = d.total)
                  (hgrows : d.lengths.size < d'.lengths.size) hg'' =>
                  show Agrees (Turn.run turn rest (c', g'')) _ from
                    ih hfilled hstage' (by omega) (by omega) hg''
              generalize d.readRun code symbol next = result at hagrees ⊢
              obtain ⟨_ | _ | _, d', r'⟩ := result
              all_goals exact hagrees
      · simp only [hresult] at hg' hlacks ⊢
        exact ⟨_, g', Turn.run_stop (hlacks trivial) rest,
          ⟨c.alphabet_literals, h.at _ c.symbol _⟩, hg'⟩
      · simp only [hresult] at hg' hrefuses ⊢
        exact ⟨c, g', Turn.run_stop (hrefuses _ rfl) rest, hopen, hg'⟩

-- One more length of the code length code, at the place that the order gives it.
theorem bySymbol_concat {seen : List Nat} {place : Nat}
    (hplace : codeLengthOrder[seen.length]? = some place) (length : Nat) :
    bySymbol (seen ++ [length]) = (bySymbol seen).set place length := by
  obtain ⟨hinside, hplace⟩ := List.getElem?_eq_some_iff.mp hplace
  have hnodup : codeLengthOrder.Nodup := by decide
  have hfirst : codeLengthOrder.idxOf place = seen.length := by
    rw [← hplace]
    exact List.Nodup.idxOf_getElem hnodup _ hinside
  apply List.ext_getElem?
  intro symbol
  rw [List.getElem?_set]
  simp only [bySymbol, List.getElem?_map, List.length_map, List.length_range]
  rcases Nat.lt_or_ge symbol 19 with hsymbol | hsymbol
  · rw [List.getElem?_range hsymbol, Option.map_some, Option.map_some]
    by_cases hsame : place = symbol
    · subst hsame
      rw [if_pos rfl, if_pos hsymbol, hfirst, List.getD_eq_getElem?_getD, List.getElem?_concat_length]
      rfl
    · have hother : codeLengthOrder.idxOf symbol ≠ seen.length := by
        intro hindex
        have hmem : ∀ symbol < 19, symbol ∈ codeLengthOrder := by decide
        have hback := List.getElem_idxOf (List.idxOf_lt_length_of_mem (hmem symbol hsymbol))
        simp only [hindex] at hback
        exact hsame (hplace.symm.trans hback)
      rw [if_neg hsame]
      congr 1
      rcases Nat.lt_or_ge (codeLengthOrder.idxOf symbol) seen.length with hless | hmore
      · rw [List.getD_append _ _ _ _ hless]
      · rw [List.getD_eq_default _ _ hmore, List.getD_eq_default _ _ (by
          rw [List.length_append, List.length_singleton]
          omega)]
  · have hnone : (List.range 19)[symbol]? = none := List.getElem?_eq_none (by simpa using hsymbol)
    rw [hnone]
    split
    · rw [if_neg (by omega)]
      rfl
    · rfl

-- The lengths of the code length code that were seen, at their places.
structure Ordered (c : Lengths) (seen : Array Nat) : Prop where
  next : c.next = seen.size
  lengths : c.orderLengths.toList = bySymbol seen.toList

theorem Ordered.put {seen : Array Nat} (h : c.Ordered seen) (hmore : seen.size < 19) (length : Nat) :
    ∃ place orderLengths, cell codeLengthOrder.toArray c.next = .ok place ∧
      Machine.put c.orderLengths place length = .ok orderLengths ∧
      Ordered { c with orderLengths, next := c.next + 1 } (seen.push length) := by
  have hplaces : ∀ index < 19, ∃ place < 19, codeLengthOrder[index]? = some place := by decide
  obtain ⟨place, hless, hplace⟩ := hplaces seen.size hmore
  have hsize : c.orderLengths.size = 19 := by
    rw [← Array.length_toList, h.lengths, bySymbol, List.length_map, List.length_range]
  have hinside : place < c.orderLengths.size := by omega
  refine ⟨place, _, cell_eq ?_, put_eq hinside length, ?_, ?_⟩
  · rw [h.next, List.getElem?_toArray, hplace]
  · simp only [h.next, Array.size_push]
  · simp only [Array.toList_set, h.lengths, Array.toList_push]
    exact (bySymbol_concat hplace length).symm

-- The lengths of the code length code are read until they are there or the bits
-- end.
theorem Ordered.readOrder (count rest : Nat) {seen : Array Nat} (h : c.Ordered seen)
    (hrest : seen.size + rest ≤ 19) (d : CodeLengths) (hg : g.Shows r) :
    ∃ whole orderLengths next g' seen' r', c.readOrder g rest =
        .ok (whole, { c with orderLengths, next }, g') ∧ g'.Shows r' ∧
      Ordered { c with orderLengths, next } seen' ∧
      (CodeLengths.readOrder count rest seen d r = if whole then
          CodeLengths.readOrder count 0 seen' d r'
        else (.ok false, { d with stage := .order count seen' }, r')) := by
  induction rest generalizing c seen g r with
  | zero => exact ⟨true, c.orderLengths, c.next, g, seen, r, rfl, hg, h, rfl⟩
  | succ rest ih =>
      obtain ⟨g', hread, hg'⟩ := read_eq hg (show 3 ≤ 16 by decide)
      rw [Lengths.readOrder, CodeLengths.readOrder]
      generalize r.read 3 = result at hread hg' ⊢
      obtain ⟨answer, r'⟩ := result
      cases answer with
      | none =>
          refine ⟨false, c.orderLengths, c.next, g', seen, r', ?_, hg', h, rfl⟩
          simp only [hread, pure, Except.pure, bind, Except.bind]
      | some length =>
          obtain ⟨place, orderLengths, hcell, hput, hordered⟩ := h.put (by omega) length
          obtain ⟨whole, orderLengths', next, g'', seen', r'', horder, hg'', hordered', hagrees⟩ :=
            ih hordered (by rw [Array.size_push]; omega) hg'
          refine ⟨whole, orderLengths', next, g'', seen', r'', ?_, hg'', hordered', hagrees⟩
          simp only [hread, hcell, hput, bind, Except.bind]
          exact horder

theorem Ordered.run_order {count : Nat} {seen : Array Nat} (hordered : c.Ordered seen)
    (hstage : c.stage = .order) (hliterals : c.literals = d.literals)
    (hdistances : c.distances = d.distances) (horders : c.orders = count) (hcount : count ≤ 19)
    (hseen : seen.size ≤ count) {fuel : Nat} (hfuel : 2 * d.total + 3 ≤ fuel)
    (hg : g.Shows r) :
    Agrees (Turn.run turn fuel (c, g)) (d.fromOrder count seen r) := by
  obtain ⟨rest, rfl⟩ : ∃ rest, fuel = rest + 1 := ⟨fuel - 1, by omega⟩
  obtain ⟨whole, orderLengths, next, g', seen', r', hread, hg', hordered', hagrees⟩ :=
    hordered.readOrder count (count - seen.size) (by omega) d hg
  have hturn : turn (c, g) = c.orderTurn g := by simp only [turn, hstage]
  rw [← horders, ← hordered.next] at hread
  have hlength : (bySymbol seen'.toList).length = 19 := by
    rw [bySymbol, List.length_map, List.length_range]
  have hsymbols : (bySymbol seen'.toList).length ≤ Huffman.Tree.symbolModulus := by
    rw [hlength]
    decide
  have hbuild := FlatTable.build_eq hsymbols false
  have hstays : Shows { c with orderLengths, next } { d with stage := .order count seen' } :=
    ⟨hstage, hliterals, hdistances, horders, hordered'.next, hordered'.lengths⟩
  rw [CodeLengths.fromOrder, hagrees]
  cases whole with
  | false =>
      have hstop : turn (c, g) = .ok (.stop (.ok false) ({ c with orderLengths, next }, g')) := by
        rw [hturn]
        simp only [orderTurn, hread, pure, Except.pure, bind, Except.bind]
      exact ⟨_, g', Turn.run_stop hstop rest, hstays, hg'⟩
  | true =>
      have hlengths : orderLengths.toList = bySymbol seen'.toList := hordered'.lengths
      rw [if_pos rfl, CodeLengths.readOrder, CodeLengths.orderLengths_eq, Table.ofLengths]
      cases hresult : Table.build (bySymbol seen'.toList) false with
      | error fault =>
          rw [hresult] at hbuild
          have hstop : turn (c, g) = .ok (.stop (.error (CodeLengths.nameCodeLengthCode fault))
              ({ c with orderLengths, next }, g')) := by
            rw [hturn]
            simp only [orderTurn, hread, hlengths, hbuild, pure, Except.pure, bind, Except.bind]
          exact ⟨_, g', Turn.run_stop hstop rest, hstays, hg'⟩
      | ok code =>
          rw [hresult] at hbuild
          obtain ⟨flat, hflat, hshows⟩ := hbuild
          have hon : turn (c, g) = .ok (.on ({ c with
              orderLengths
              code := some flat
              lengths := Array.replicate (c.literals + c.distances) 0
              next := 0
              stage := .literals }, g')) := by
            rw [hturn]
            simp only [orderTurn, hread, hlengths, hflat, pure, Except.pure, bind, Except.bind]
          have hready : code.Ready 19 :=
            ⟨_, Huffman.Table.decodes_of_build hsymbols hresult, Nat.le_of_eq hlength⟩
          rw [Turn.run_on hon]
          refine Filled.run_lengths (d := { d with lengths := #[] }) ?_ (.inl rfl) hready _ (Nat.le_refl _)
            ?_ hg'
          · refine ⟨hliterals, ?_, rfl, Nat.zero_le _, rfl, flat, rfl, hshows⟩
            show (Array.replicate (c.literals + c.distances) 0).size = d.total
            rw [Array.size_replicate, hliterals, hdistances, CodeLengths.total]
          · show 2 * (d.total - 0) + 2 ≤ rest
            omega

theorem run_orderCount (hstage : c.stage = .orderCount) (hliterals : c.literals = d.literals)
    (hdistances : c.distances = d.distances) {fuel : Nat} (hfuel : 2 * d.total + 4 ≤ fuel)
    (hg : g.Shows r) : Agrees (Turn.run turn fuel (c, g)) (d.fromOrderCount r) := by
  obtain ⟨rest, rfl⟩ : ∃ rest, fuel = rest + 1 := ⟨fuel - 1, by omega⟩
  obtain ⟨g', hread, hg'⟩ := read_eq hg (show 4 ≤ 16 by decide)
  rw [CodeLengths.fromOrderCount]
  rcases r.read_cases 4 with ⟨more, r', hresult, hmore, -⟩ | ⟨r', hresult, -, -⟩
  · rw [hresult] at hread hg' ⊢
    have hon : turn (c, g) = .ok (.on ({ c with
        orders := more + 4
        orderLengths := Array.replicate 19 0
        next := 0
        stage := .order }, g')) := by
      simp only [turn, hstage, countTurn, hread, pure, Except.pure, bind, Except.bind]
    rw [Turn.run_on hon]
    have hordered : Ordered { c with
        orders := more + 4
        orderLengths := Array.replicate 19 0
        next := 0
        stage := .order } #[] := ⟨rfl, (by decide : List.replicate 19 0 = bySymbol [])⟩
    have hcount : more + 4 ≤ 19 := by omega
    have hfuel : 2 * d.total + 3 ≤ rest := by omega
    exact hordered.run_order rfl hliterals hdistances rfl hcount (Nat.zero_le _) hfuel hg'
  · rw [hresult] at hread hg' ⊢
    have hstop : turn (c, g) = .ok (.stop (.ok false) (c, g')) := by
      simp only [turn, hstage, countTurn, hread, pure, Except.pure, bind, Except.bind]
    exact ⟨c, g', Turn.run_stop hstop rest, ⟨hstage, hliterals, hdistances⟩, hg'⟩

theorem run_distanceCount (hstage : c.stage = .distanceCount) (hliterals : c.literals = d.literals)
    {fuel : Nat} (hfuel : 2 * (d.literals + 32) + 5 ≤ fuel) (hg : g.Shows r) :
    Agrees (Turn.run turn fuel (c, g)) (d.fromDistanceCount r) := by
  obtain ⟨rest, rfl⟩ : ∃ rest, fuel = rest + 1 := ⟨fuel - 1, by omega⟩
  obtain ⟨g', hread, hg'⟩ := read_eq hg (show 5 ≤ 16 by decide)
  rw [CodeLengths.fromDistanceCount]
  rcases r.read_cases 5 with ⟨more, r', hresult, hmore, -⟩ | ⟨r', hresult, -, -⟩
  · rw [hresult] at hread hg' ⊢
    have hon : turn (c, g) =
        .ok (.on ({ c with distances := more + 1, stage := .orderCount }, g')) := by
      simp only [turn, hstage, countTurn, hread, pure, Except.pure, bind, Except.bind]
    rw [Turn.run_on hon]
    refine run_orderCount (c := { c with distances := more + 1, stage := .orderCount })
      (d := { d with distances := more + 1 }) rfl hliterals rfl ?_ hg'
    show 2 * (d.literals + (more + 1)) + 4 ≤ rest
    omega
  · rw [hresult] at hread hg' ⊢
    have hstop : turn (c, g) = .ok (.stop (.ok false) (c, g')) := by
      simp only [turn, hstage, countTurn, hread, pure, Except.pure, bind, Except.bind]
    exact ⟨c, g', Turn.run_stop hstop rest, ⟨hstage, hliterals⟩, hg'⟩

theorem run_literalCount (hstage : c.stage = .literalCount) (d : CodeLengths) {fuel : Nat}
    (hfuel : 646 ≤ fuel) (hg : g.Shows r) :
    Agrees (Turn.run turn fuel (c, g)) (d.fromLiteralCount r) := by
  obtain ⟨rest, rfl⟩ : ∃ rest, fuel = rest + 1 := ⟨fuel - 1, by omega⟩
  obtain ⟨g', hread, hg'⟩ := read_eq hg (show 5 ≤ 16 by decide)
  rw [CodeLengths.fromLiteralCount]
  rcases r.read_cases 5 with ⟨more, r', hresult, hmore, -⟩ | ⟨r', hresult, -, -⟩
  · rw [hresult] at hread hg' ⊢
    obtain ⟨literals, hliterals⟩ : ∃ literals, more + 257 = literals := ⟨_, rfl⟩
    have hon : turn (c, g) = .ok (.on ({ c with literals, stage := .distanceCount }, g')) := by
      simp only [turn, hstage, countTurn, hread, hliterals, pure, Except.pure, bind, Except.bind]
    rw [Turn.run_on hon]
    dsimp only
    rw [hliterals]
    refine run_distanceCount (c := { c with literals, stage := .distanceCount })
      (d := { d with literals }) rfl rfl ?_ hg'
    show 2 * (literals + 32) + 5 ≤ rest
    omega
  · rw [hresult] at hread hg' ⊢
    have hstop : turn (c, g) = .ok (.stop (.ok false) (c, g')) := by
      simp only [turn, hstage, countTurn, hread, pure, Except.pure, bind, Except.bind]
    exact ⟨c, g', Turn.run_stop hstop rest, hstage, hg'⟩

-- Wherever the reading of code lengths stopped, it goes on alike.
theorem Shows.decode (h : c.Shows d) (hsound : d.Sound) (hg : g.Shows r) :
    Agrees (c.decode g) (d.decode r) := by
  rw [Shows] at h
  rw [CodeLengths.Sound] at hsound
  rw [Lengths.decode, CodeLengths.decode]
  cases hstage : d.stage with
  | literalCount =>
      rw [hstage] at h
      exact run_literalCount h d (by decide) hg
  | distanceCount =>
      rw [hstage] at h hsound
      have hfuel : 2 * (d.literals + 32) + 5 ≤ rounds := by
        simp only [rounds]
        omega
      exact run_distanceCount h.1 h.2 hfuel hg
  | orderCount =>
      rw [hstage] at h hsound
      have hfuel : 2 * d.total + 4 ≤ rounds := by
        simp only [rounds, CodeLengths.total]
        omega
      exact run_orderCount h.1 h.2.1 h.2.2 hfuel hg
  | order count seen =>
      rw [hstage] at h hsound
      obtain ⟨hplace, hliterals, hdistances, horders, hnext, hlengths⟩ := h
      obtain ⟨hbound, hbound', hcount, hseen, -⟩ := hsound
      have hfuel : 2 * d.total + 3 ≤ rounds := by
        simp only [rounds, CodeLengths.total]
        omega
      exact Ordered.run_order ⟨hnext, hlengths⟩ hplace hliterals hdistances horders hcount hseen hfuel hg
  | lengths code =>
      rw [hstage] at h hsound
      obtain ⟨hc, hcode⟩ := hsound
      have := hc.literals
      have := hc.distances
      have hfuel : 2 * (d.total - d.lengths.size) + 2 ≤ rounds := by
        simp only [rounds, CodeLengths.total]
        omega
      exact h.2.run_lengths h.1 hcode _ (Nat.le_refl _) hfuel hg
  | repeating code symbol =>
      rw [hstage] at h hsound
      obtain ⟨hplace, rfl, hfilled⟩ := h
      obtain ⟨hc, hcode, hlarge, hsmall, hprevious⟩ := hsound
      have := hc.literals
      have := hc.distances
      dsimp only
      rw [show rounds = 699 + 1 from rfl]
      refine hfilled.run_of_run hplace hlarge hsmall hprevious hg
        (fun d' r' => d'.fromLengths code r') ?_
      intro c' d' g' r' hfilled' hstage' htotal hgrows hg'
      have hfuel : 2 * (d'.total - d'.lengths.size) + 2 ≤ 699 := by
        rw [htotal, CodeLengths.total]
        omega
      exact hfilled'.run_lengths hstage' hcode _ (Nat.le_refl _) hfuel hg'
  | complete =>
      rw [hstage] at h
      have hstop : turn (c, g) = .ok (.stop (.ok true) (c, g)) := by
        simp only [turn, h.1, pure, Except.pure]
      rw [show rounds = 699 + 1 from rfl, Turn.run_stop hstop]
      refine ⟨c, g, rfl, ?_, hg⟩
      rw [Shows, hstage]
      exact h

-- Both tables, once all lengths are there.
theorem Shows.codes (h : c.Shows d) (hsound : d.Sound) (hstage : d.stage = .complete) :
    (∃ fault, d.codes = .error fault ∧ (c.literalTable = .ok (.error fault) ∨
      (∃ literal, c.literalTable = .ok (.ok literal)) ∧ c.distanceTable = .ok (.error fault))) ∨
    ∃ codes literal distance, d.codes = .ok codes ∧ c.literalTable = .ok (.ok literal) ∧
      literal.Shows codes.literal ∧ c.distanceTable = .ok (.ok distance) ∧
      distance.Shows codes.distance := by
  rw [Shows, hstage] at h
  rw [CodeLengths.Sound, hstage] at hsound
  obtain ⟨-, hliterals, hlengths⟩ := h
  obtain ⟨hc, hsize⟩ := hsound
  have := hc.literals
  have := hc.distances
  have hannounced : d.announced = c.lengths.toList := by
    simp [CodeLengths.announced, hstage, hsize, hlengths]
  have htotal : d.lengths.toList.length = d.literals + d.distances := hsize
  have hborder : min c.literals c.lengths.size = d.literals := by
    rw [hlengths, hliterals, hsize, CodeLengths.total]
    omega
  have hsymbols : d.literalLengths.length ≤ Huffman.Tree.symbolModulus := by
    rw [CodeLengths.literalLengths, hannounced, hlengths, List.length_take, Huffman.Tree.symbolModulus]
    omega
  have hsymbols' : d.distanceLengths.length ≤ Huffman.Tree.symbolModulus := by
    rw [CodeLengths.distanceLengths, hannounced, hlengths, List.length_drop, htotal,
      Huffman.Tree.symbolModulus]
    omega
  have hbuild := FlatTable.build_eq hsymbols false
  have hbuild' := FlatTable.build_eq hsymbols' true
  have hliteral : c.literalTable = if d.literalLengths.getD endOfBlock 0 = 0 then
      .ok (.error (.invalidTable .noEndOfBlock)) else FlatTable.build d.literalLengths false := by
    rw [literalTable, hborder, CodeLengths.literalLengths, hannounced]
    rfl
  have hdistance : c.distanceTable = FlatTable.build d.distanceLengths true := by
    rw [distanceTable, hborder, CodeLengths.distanceLengths, hannounced]
  rw [CodeLengths.codes, CodeLengths.literalTable, CodeLengths.distanceTable, Table.ofLengths,
    Table.ofDistanceLengths, hliteral, hdistance]
  split
  · exact .inl ⟨_, rfl, .inl rfl⟩
  · cases hresult : Table.build d.literalLengths false with
    | error fault =>
        rw [hresult] at hbuild
        exact .inl ⟨fault, rfl, .inl hbuild⟩
    | ok literal =>
        rw [hresult] at hbuild
        obtain ⟨flat, hflat, hshows⟩ := hbuild
        cases hresult' : Table.build d.distanceLengths true with
        | error fault =>
            rw [hresult'] at hbuild'
            exact .inl ⟨fault, rfl, .inr ⟨⟨flat, hflat⟩, hbuild'⟩⟩
        | ok distance =>
            rw [hresult'] at hbuild'
            obtain ⟨flat', hflat', hshows'⟩ := hbuild'
            exact .inr ⟨_, flat, flat', rfl, hflat, hshows, hflat', hshows'⟩

end Filling

end Lengths

end Unpack.Machine
