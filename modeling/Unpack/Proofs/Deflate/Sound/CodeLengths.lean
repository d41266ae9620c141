import Unpack.Proofs.Bits.Advance
import Unpack.Proofs.Deflate.CodeLengths

namespace Unpack

open Bits (Reader)

-- The faults that tell of a slip in the decoder and not of wrong data: bytes
-- written into a full window, and a part of the state that is not there.
def Fault.isInternal : Fault → Bool
  | .windowFull .. | .corrupted _ (.described _) => true
  | _ => false

namespace Huffman.Table

-- A table of some code for at most `count` symbols.
def Ready (t : Table) (count : Nat) : Prop :=
  ∃ lengths, t.Decodes lengths ∧ lengths.length ≤ count

variable {t : Table} {count : Nat}

theorem Ready.mono (h : t.Ready count) {more : Nat} (hmore : count ≤ more) : t.Ready more :=
  h.imp fun _ h => ⟨h.1, Nat.le_trans h.2 hmore⟩

-- A code is consumed whole or not at all, and what bits lead to depends on the
-- bits alone.
theorem Ready.symbol_cases (h : t.Ready count) (r : Reader) :
    (∃ symbol next, t.symbol r = (.ok (some symbol), next) ∧ symbol < count ∧
      next.bits.length < r.bits.length) ∨
    (∃ next, t.symbol r = (.ok none, next) ∧ r.Same next ∧
      ∀ again, r.Same again → ∃ last, t.symbol again = (.ok none, last) ∧ again.Same last) ∨
    (∃ next, t.symbol r = (.error (.invalidCode r.consumed), next) ∧ r.Same next) := by
  obtain ⟨lengths, hdecodes, hcount⟩ := h
  have hlookup := hdecodes.lookup_symbol r
  generalize hresult : t.symbol r = result at hlookup
  cases hlookup with
  | found symbol next hcode hstarts hnext =>
      have hle := hstarts.length_le
      have hpositive := Nat.pos_of_ne_zero hcode
      have hsymbol := hcode.lt_length
      rw [length_code] at hle
      refine Or.inl ⟨symbol, next, rfl, by omega, ?_⟩
      rw [hnext.bits, List.length_drop]
      omega
  | short next hnone hopen hnext =>
      refine Or.inr (Or.inl ⟨next, rfl, ⟨hnext.bits, hnext.consumed⟩, fun again hagain => ?_⟩)
      have hlookup := hdecodes.lookup_symbol again
      generalize t.symbol again = result at hlookup
      cases hlookup with
      | found symbol last hcode hstarts _ =>
          exact absurd (hagain.bits ▸ hstarts) (hnone symbol hcode)
      | short last _ _ hlast => exact ⟨last, rfl, hlast.bits, hlast.consumed⟩
      | refused last _ hlong hdegenerate _ =>
          rcases hopen with hfew | hcomplete
          · rw [hagain.bits] at hlong
            omega
          · exact absurd hcomplete hdegenerate.not_complete
  | refused next hnone hlong hdegenerate hnext =>
      exact Or.inr (Or.inr ⟨next, rfl, hnext.bits, hnext.consumed⟩)

end Huffman.Table

namespace Deflate.CodeLengths

open Huffman (Table maxLength)
open Reference (bySymbol mem_bySymbol_lt runBits)

-- What holds of code lengths wherever their reading stops.
def Sound (c : CodeLengths) : Prop :=
  match c.stage with
  | .literalCount => True
  | .distanceCount => c.literals ≤ 288
  | .orderCount => c.literals ≤ 288 ∧ c.distances ≤ 32
  | .order count seen =>
      c.literals ≤ 288 ∧ c.distances ≤ 32 ∧ count ≤ 19 ∧ seen.size ≤ count ∧
        ∀ length ∈ seen.toList, length < 8
  | .lengths code => c.Bounded ∧ code.Ready 19
  | .repeating code symbol =>
      c.Bounded ∧ code.Ready 19 ∧ 16 ≤ symbol ∧ symbol < 19 ∧ (symbol = 16 → c.lengths.size ≠ 0)
  | .complete => c.Bounded ∧ c.lengths.size = c.total

-- Reading on from the same bits finds nothing to do.
def Idle (c : CodeLengths) (r : Reader) : Prop :=
  ∀ again, r.Same again → ∃ next, c.decode again = (.ok false, c, next) ∧ again.Same next

-- What reading code lengths comes to.
inductive Turn : Except Fault Bool × CodeLengths × Reader → Prop where
  | failed (fault : Fault) (c : CodeLengths) (next : Reader) (hplain : fault.isInternal = false)
      (hsound : c.Sound) : Turn (.error fault, c, next)
  | halted (c : CodeLengths) (next : Reader) (hsound : c.Sound) (hidle : c.Idle next) :
      Turn (.ok false, c, next)
  | complete (c : CodeLengths) (next : Reader) (hstage : c.stage = .complete) (hsound : c.Sound) :
      Turn (.ok true, c, next)

variable {c : CodeLengths} {code : Table}

-- A table is built, or the lengths are refused.
theorem build_ready (lengths : List Nat) (hcount : lengths.length ≤ Huffman.Tree.symbolModulus)
    (hshort : ∀ length ∈ lengths, length ≤ maxLength) (lenient : Bool) :
    (∃ t, Table.build lengths lenient = .ok t ∧ t.Ready lengths.length) ∨
      ∃ fault, Table.build lengths lenient = .error fault ∧ fault.isInternal = false := by
  rcases build_cases lengths hcount hshort lenient id with
    ⟨t, built, hbuild, hlengths, hdecodes, -⟩ | ⟨hbuild, -⟩ | ⟨flaw, hbuild, -⟩
  · exact Or.inl ⟨t, hbuild, _, hdecodes, Nat.le_of_eq (congrArg List.length hlengths)⟩
  · exact Or.inr ⟨_, hbuild, rfl⟩
  · exact Or.inr ⟨_, hbuild, rfl⟩

theorem bounded_stage (hc : c.Bounded) (stage : Stage) : Bounded { c with stage } :=
  ⟨hc.literals, hc.distances, hc.size, hc.lengths⟩

-- A number that is not there is asked for again.
theorem idle_of_read {stage : Stage} {k : Nat → Reader → Except Fault Bool × CodeLengths × Reader}
    {n : Nat} (hdecode : ∀ r, decode { c with stage } r =
      match r.read n with
      | (none, r) => (.ok false, { c with stage }, r)
      | (some number, r) => k number r) {r next : Reader} (hfew : r.bits.length < n)
    (hsame : r.Same next) : Idle { c with stage } next := by
  intro again hagain
  have hlength := congrArg List.length (hsame.trans hagain).bits
  obtain ⟨last, hread, hbits, hconsumed⟩ := again.read_of_lt n (by omega)
  rw [hdecode, hread]
  exact ⟨last, rfl, hbits, hconsumed⟩

theorem readRun_turn (hc : c.Bounded) (hcode : code.Ready 19) {symbol : Nat} (hsymbol : 16 ≤ symbol)
    (hcount : symbol < 19) (hprevious : symbol = 16 → c.lengths.size ≠ 0) (r : Reader) :
    (∃ lengths next, c.readRun code symbol r =
        (.ok true, { c with stage := .lengths code, lengths }, next) ∧
      Bounded { c with stage := .lengths code, lengths } ∧ c.lengths.size < lengths.size) ∨
    (c.readRun code symbol r).1 ≠ .ok true ∧ Turn (c.readRun code symbol r) := by
  have hsound : Sound { c with stage := .repeating code symbol } :=
    ⟨bounded_stage hc _, hcode, hsymbol, hcount, hprevious⟩
  have hpositive := runBase_pos symbol
  rw [readRun, runCode_eq hsymbol]
  rcases r.read_cases (runBits symbol) with ⟨more, next, hread, -, -⟩ | ⟨next, hread, hfew, hsame⟩
  · simp only [hread]
    split
    · rename_i hfits
      refine Or.inl ⟨_, next, rfl, hc.append hfits (runValue_le hc symbol) _, ?_⟩
      simp only [Array.size_append, Array.size_replicate]
      omega
    · exact Or.inr ⟨by simp, .failed _ _ next rfl hsound⟩
  · refine Or.inr ?_
    have hidle : Idle { c with stage := .repeating code symbol } next := by
      intro again hagain
      have hlength := congrArg List.length (hsame.trans hagain).bits
      obtain ⟨last, hread, hbits, hconsumed⟩ := again.read_of_lt (runBits symbol) (by omega)
      refine ⟨last, ?_, hbits, hconsumed⟩
      simp only [decode, readRun, runCode_eq hsymbol, hread]
    simp only [hread]
    exact ⟨by simp, .halted _ next hsound hidle⟩

-- All lengths are there.
theorem Turn.done (hc : c.Bounded) (hall : c.total ≤ c.lengths.size) (r : Reader) :
    Turn (.ok true, { c with stage := .complete }, r) :=
  .complete _ r rfl ⟨bounded_stage hc _, Nat.le_antisymm hc.size hall⟩

theorem lengthRound_turn (hc : c.Bounded) (hcode : code.Ready 19) (r : Reader) :
    (lengthRound code (c, r)).elim (fun s => s.1.Bounded) Turn := by
  have hsound : Sound { c with stage := .lengths code } := ⟨bounded_stage hc _, hcode⟩
  rw [lengthRound]
  by_cases hall : c.total ≤ c.lengths.size
  · rw [if_pos hall]
    exact .done hc hall r
  rw [if_neg hall]
  have hmissing := Nat.lt_of_not_le hall
  rcases hcode.symbol_cases r with ⟨symbol, next, hresult, hcount, -⟩ |
    ⟨next, hresult, hsame, hagain⟩ | ⟨next, hresult, -⟩
  · simp only [hresult]
    by_cases hliteral : symbol < 16
    · rw [if_pos hliteral]
      exact hc.push hliteral hmissing
    · rw [if_neg hliteral]
      split
      · exact .failed _ _ next rfl hsound
      · rename_i hnone
        have hprevious : symbol = 16 → c.lengths.size ≠ 0 := by
          rintro rfl hempty
          simp [runStartsAlphabet, hempty] at hnone
        rcases readRun_turn hc hcode (Nat.le_of_not_lt hliteral) hcount hprevious next with
          ⟨lengths, last, hrun, hlonger, -⟩ | ⟨hstopped, hturn⟩
        · simp only [hrun]
          exact hlonger
        · generalize c.readRun code symbol next = result at hstopped hturn
          obtain ⟨fault | _ | _, c', last⟩ := result
          · exact hturn
          · exact hturn
          · exact absurd rfl hstopped
  · simp only [hresult]
    refine .halted _ next hsound fun again hsame' => ?_
    obtain ⟨last, hnone, hlast⟩ := hagain again (hsame.trans hsame')
    refine ⟨last, ?_, hlast⟩
    obtain ⟨missing, hrest⟩ := Nat.exists_eq_succ_of_ne_zero (Nat.sub_ne_zero_of_lt hmissing)
    have hround : lengthRound code ({ c with stage := .lengths code }, again) =
        .inr (.ok false, { c with stage := .lengths code }, last) := by
      refine (if_neg hall).trans ?_
      rw [hnone]
    show readLengths code (c.total - c.lengths.size) { c with stage := .lengths code } again = _
    rw [hrest, readLengths, Loop.run, hround]
  · simp only [hresult]
    exact .failed _ _ next rfl hsound

theorem readLengths_turn (hc : c.Bounded) (hcode : code.Ready 19) (rounds : Nat)
    (hrounds : c.total - c.lengths.size ≤ rounds) (r : Reader) :
    Turn (readLengths code rounds c r) := by
  refine Loop.run_rule_of_measure (P := fun s => s.1.Bounded)
    (fun s : CodeLengths × Reader => s.1.total - s.1.lengths.size) (fun s hs => ?_)
    (fun s hs hnone => .done hs (Nat.le_of_sub_eq_zero hnone) s.2) hrounds hc
  have hround := lengthRound_turn hs hcode s.2
  cases hresult : lengthRound code s with
  | inl s' =>
      rw [hresult] at hround
      exact ⟨hround, lengthRound_grows hresult⟩
  | inr result =>
      rw [hresult] at hround
      exact hround

theorem plain_nameCodeLengthCode {fault : Fault} (h : fault.isInternal = false) :
    (nameCodeLengthCode fault).isInternal = false := by
  cases fault <;> exact h

theorem readOrder_turn (count missing : Nat) (seen : Array Nat) (hmissing : seen.size + missing = count)
    (hcount : count ≤ 19) (hseen : ∀ length ∈ seen.toList, length < 8) (hliterals : c.literals ≤ 288)
    (hdistances : c.distances ≤ 32) (r : Reader) : Turn (readOrder count missing seen c r) := by
  induction missing generalizing seen r with
  | zero =>
      have hlength : (bySymbol seen.toList).length = 19 := by
        rw [bySymbol, List.length_map, List.length_range]
      rw [readOrder, orderLengths_eq, Table.ofLengths]
      have hshort : ∀ length ∈ bySymbol seen.toList, length ≤ maxLength := fun length hmem =>
        Nat.le_of_lt (Nat.lt_of_lt_of_le (mem_bySymbol_lt hseen length hmem) (by decide))
      rcases build_ready (bySymbol seen.toList) (by rw [hlength]; decide) hshort false with
        ⟨t, hbuild, hready⟩ | ⟨fault, hbuild, hplain⟩
      · have hempty : Bounded { c with lengths := #[] } :=
          ⟨hliterals, hdistances, Nat.zero_le _, fun _ h => absurd h List.not_mem_nil⟩
        rw [hbuild]
        rw [hlength] at hready
        exact readLengths_turn hempty hready _ (Nat.le_refl _) r
      · rw [hbuild]
        exact .failed _ _ r (plain_nameCodeLengthCode hplain)
          ⟨hliterals, hdistances, hcount, by omega, hseen⟩
  | succ missing ih =>
      rw [readOrder]
      rcases r.read_cases 3 with ⟨length, next, hread, hlength, -⟩ | ⟨next, hread, hfew, hsame⟩
      · simp only [hread]
        refine ih (seen.push length) ?_ ?_ next
        · rw [Array.size_push]
          omega
        · intro other hother
          rw [Array.toList_push, List.mem_append, List.mem_singleton] at hother
          exact hother.elim (hseen other) fun h => h ▸ hlength
      · simp only [hread]
        have hdecode : ∀ r, decode { c with stage := .order count seen } r =
            readOrder count (missing + 1) seen { c with stage := .order count seen } r := by
          intro r
          rw [show missing + 1 = count - seen.size by omega]
          rfl
        exact .halted _ next ⟨hliterals, hdistances, hcount, by omega, hseen⟩
          (idle_of_read hdecode hfew hsame)

theorem fromOrderCount_turn (hliterals : c.literals ≤ 288) (hdistances : c.distances ≤ 32)
    (r : Reader) : Turn (c.fromOrderCount r) := by
  rcases r.read_cases 4 with ⟨more, next, hread, hmore, -⟩ | ⟨next, hread, hfew, hsame⟩
  · simp only [fromOrderCount, hread, fromOrder]
    exact readOrder_turn _ _ #[] (by simp) (by omega) (fun _ h => absurd h List.not_mem_nil)
      hliterals hdistances next
  · simp only [fromOrderCount, hread]
    exact .halted _ next ⟨hliterals, hdistances⟩ (idle_of_read (fun _ => rfl) hfew hsame)

theorem fromDistanceCount_turn (hliterals : c.literals ≤ 288) (r : Reader) :
    Turn (c.fromDistanceCount r) := by
  rcases r.read_cases 5 with ⟨more, next, hread, hmore, -⟩ | ⟨next, hread, hfew, hsame⟩
  · simp only [fromDistanceCount, hread]
    have hdistances : more + 1 ≤ 32 := by omega
    exact fromOrderCount_turn (c := { c with distances := more + 1 }) hliterals hdistances next
  · simp only [fromDistanceCount, hread]
    exact .halted _ next hliterals (idle_of_read (fun _ => rfl) hfew hsame)

theorem fromLiteralCount_turn (c : CodeLengths) (r : Reader) : Turn (c.fromLiteralCount r) := by
  rcases r.read_cases 5 with ⟨more, next, hread, hmore, -⟩ | ⟨next, hread, hfew, hsame⟩
  · simp only [fromLiteralCount, hread]
    exact fromDistanceCount_turn (show more + 257 ≤ 288 by omega) next
  · simp only [fromLiteralCount, hread]
    exact .halted _ next trivial (idle_of_read (fun _ => rfl) hfew hsame)

-- Wherever the reading of code lengths stopped, it goes on, halts for more bits
-- or fails, and stays sound.
theorem decode_turn (h : c.Sound) (r : Reader) : Turn (c.decode r) := by
  rw [Sound] at h
  rw [decode]
  cases hstage : c.stage with
  | literalCount => exact c.fromLiteralCount_turn r
  | distanceCount =>
      rw [hstage] at h
      exact fromDistanceCount_turn h r
  | orderCount =>
      rw [hstage] at h
      exact fromOrderCount_turn h.1 h.2 r
  | order count seen =>
      rw [hstage] at h
      obtain ⟨hliterals, hdistances, hcount, hsize, hseen⟩ := h
      exact readOrder_turn count _ seen (by omega) hcount hseen hliterals hdistances r
  | lengths code =>
      rw [hstage] at h
      exact readLengths_turn h.1 h.2 _ (Nat.le_refl _) r
  | repeating code symbol =>
      rw [hstage] at h
      obtain ⟨hc, hcode, hsymbol, hcount, hprevious⟩ := h
      dsimp only
      rcases readRun_turn hc hcode hsymbol hcount hprevious r with
        ⟨lengths, next, hrun, hlonger, -⟩ | ⟨hstopped, hturn⟩
      · simp only [hrun]
        exact readLengths_turn hlonger hcode _ (Nat.le_refl _) next
      · generalize c.readRun code symbol r = result at hstopped hturn
        obtain ⟨outcome, c', last⟩ := result
        cases outcome with
        | error fault => exact hturn
        | ok more =>
            cases more with
            | false => exact hturn
            | true => exact absurd rfl hstopped
  | complete =>
      refine .complete c r hstage ?_
      rw [Sound]
      exact h

-- The tables of a block, once all lengths are there.
theorem codes_ready (h : c.Sound) (hstage : c.stage = .complete) :
    (∃ codes, c.codes = .ok codes ∧ codes.literal.Ready 288 ∧ codes.distance.Ready 32) ∨
      ∃ fault, c.codes = .error fault ∧ fault.isInternal = false := by
  rw [Sound, hstage] at h
  obtain ⟨hc, hsize⟩ := h
  have hliterals := hc.literals
  have hdistances := hc.distances
  have hannounced : c.announced = c.lengths.toList := by
    simp [announced, hstage, hsize]
  have hlength : c.announced.length = c.literals + c.distances := by
    rw [hannounced, Array.length_toList, hsize, total]
  have hshort : ∀ length ∈ c.announced, length ≤ maxLength := hannounced ▸ hc.lengths
  have hcount : c.literalLengths.length = c.literals := by
    rw [literalLengths, List.length_take]
    omega
  have hcount' : c.distanceLengths.length = c.distances := by
    rw [distanceLengths, List.length_drop]
    omega
  have hliteral := build_ready c.literalLengths (by rw [hcount, Huffman.Tree.symbolModulus]; omega)
    (fun length hmem => hshort length (List.mem_of_mem_take hmem)) false
  have hdistance := build_ready c.distanceLengths (by rw [hcount', Huffman.Tree.symbolModulus]; omega)
    (fun length hmem => hshort length (List.mem_of_mem_drop hmem)) true
  rw [hcount] at hliteral
  rw [hcount'] at hdistance
  rw [codes, literalTable, distanceTable, Table.ofLengths, Table.ofDistanceLengths]
  split
  · exact Or.inr ⟨_, rfl, rfl⟩
  · rcases hliteral with ⟨t, hbuild, hready⟩ | ⟨fault, hbuild, hplain⟩
    · rcases hdistance with ⟨u, hbuild', hready'⟩ | ⟨fault, hbuild', hplain⟩
      · refine Or.inl ⟨⟨t, u⟩, ?_, hready.mono hliterals, hready'.mono hdistances⟩
        rw [hbuild, hbuild']
        rfl
      · refine Or.inr ⟨fault, ?_, hplain⟩
        rw [hbuild, hbuild']
        rfl
    · refine Or.inr ⟨fault, ?_, hplain⟩
      rw [hbuild]
      rfl

end Deflate.CodeLengths

end Unpack
