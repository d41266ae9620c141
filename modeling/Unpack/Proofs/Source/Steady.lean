import Mathlib.Data.Nat.Find
import Unpack.Source.Basic

namespace Unpack.Source

variable {σ : Type} [Source σ]

-- A read that brings bytes takes them from those that are left. No bytes mean
-- that none are left.
structure Brings (rest : σ → List UInt8) (source : σ) (n : Nat) (bytes : ByteArray) (next : σ) :
    Prop where
  split : rest source = bytes.data.toList ++ rest next
  fits : bytes.size ≤ n
  ended : bytes.size = 0 → rest source = []
  left_le : left next ≤ left source
  left_lt : bytes.size ≠ 0 → left next < left source

-- A read that fails loses nothing, and not all reads fail.
structure Spares (rest : σ → List UInt8) (source next : σ) : Prop where
  same : rest next = rest source
  left_lt : left next < left source

-- Sources that bring all their bytes in the end, in pieces of any size, however
-- often a read fails in between.
structure Steady (valid : σ → Prop) (rest : σ → List UInt8) : Prop where
  keeps : ∀ source n, valid source → valid (read source n).2
  brings : ∀ source n bytes next, valid source → 0 < n → read source n = (.ok bytes, next) →
    Brings rest source n bytes next
  spares : ∀ source n fault next, valid source → 0 < n → read source n = (.error fault, next) →
    Spares rest source next

-- The source became the other one by reads alone, each of them made while more
-- than `floor` bytes were left.
inductive Asked (rest : σ → List UInt8) (floor : Nat) : σ → σ → Prop where
  | refl (source : σ) : Asked rest floor source source
  | read {source last : σ} (n : Nat) (hmore : floor < (rest source).length)
      (hlater : Asked rest floor (read source n).2 last) : Asked rest floor source last

theorem Asked.trans {rest : σ → List UInt8} {floor : Nat} {source next last : σ}
    (h : Asked rest floor source next) (hlater : Asked rest floor next last) :
    Asked rest floor source last := by
  induction h with
  | refl source => exact hlater
  | read n hmore hnext ih => exact .read n hmore (ih hlater)

section Steady

variable {valid : σ → Prop} {rest : σ → List UInt8} {source : σ} {n : Nat}

theorem Spares.trans {next last : σ} (h : Spares rest source next) (hlater : Spares rest next last) :
    Spares rest source last :=
  ⟨hlater.same.trans h.same, Nat.lt_trans hlater.left_lt h.left_lt⟩

theorem Brings.after {next last : σ} {bytes : ByteArray} (h : Brings rest next n bytes last)
    (hspared : Spares rest source next) : Brings rest source n bytes last := by
  have hless := hspared.left_lt
  refine ⟨hspared.same ▸ h.split, h.fits, fun hnone => hspared.same ▸ h.ended hnone, ?_, fun _ => ?_⟩
  · exact Nat.le_trans h.left_le (Nat.le_of_lt hless)
  · exact Nat.lt_of_le_of_lt h.left_le hless

-- What a read comes to, interruptions left aside.
inductive Once (valid : σ → Prop) (rest : σ → List UInt8) (source : σ) (n : Nat) :
    Except Fault ByteArray × σ → Prop where
  | brings (bytes : ByteArray) (next : σ) (hvalid : valid next)
      (hbrings : Brings rest source n bytes next)
      (hasked : ∀ floor, floor < (rest source).length → Asked rest floor source next) :
      Once valid rest source n (.ok bytes, next)
  | spares (fault : Fault) (next : σ) (hvalid : valid next) (hspares : Spares rest source next)
      (hasked : ∀ floor, floor < (rest source).length → Asked rest floor source next) :
      Once valid rest source n (.error fault, next)

theorem Steady.read_once (h : Steady valid rest) (hvalid : valid source) (hn : 0 < n) :
    Once valid rest source n (read source n) := by
  have hnext := h.keeps source n hvalid
  have hasked : ∀ floor, floor < (rest source).length →
      Asked rest floor source (read source n).2 :=
    fun floor hmore => .read n hmore (.refl _)
  cases hread : read source n with
  | mk answer next =>
      rw [hread] at hnext hasked
      cases answer with
      | ok bytes => exact .brings bytes next hnext (h.brings _ _ _ _ hvalid hn hread) hasked
      | error fault => exact .spares fault next hnext (h.spares _ _ _ _ hvalid hn hread) hasked

theorem Once.after {next : σ} {result : Except Fault ByteArray × σ}
    (h : Once valid rest next n result) (hspared : Spares rest source next)
    (hasked : ∀ floor, floor < (rest source).length → Asked rest floor source next) :
    Once valid rest source n result := by
  have hlater : ∀ {last}, (∀ floor, floor < (rest next).length → Asked rest floor next last) →
      ∀ floor, floor < (rest source).length → Asked rest floor source last := by
    intro last hlast floor hmore
    exact (hasked floor hmore).trans (hlast floor (hspared.same.symm ▸ hmore))
  cases h with
  | brings bytes last hvalid hbrings hlast =>
      exact .brings bytes last hvalid (hbrings.after hspared) (hlater hlast)
  | spares fault last hvalid hspares hlast =>
      exact .spares fault last hvalid (hspared.trans hspares) (hlater hlast)

theorem Steady.readThrough (h : Steady valid rest) (hvalid : valid source) (hn : 0 < n)
    (rounds : Nat) : Once valid rest source n (readThrough rounds source n) := by
  induction rounds generalizing source with
  | zero => exact h.read_once hvalid hn
  | succ rounds ih =>
      have honce := h.read_once hvalid hn
      rw [Source.readThrough]
      generalize read source n = result at honce
      cases honce with
      | brings bytes next hnext hbrings hasked => exact .brings bytes next hnext hbrings hasked
      | spares fault next hnext hspares hasked =>
          dsimp only
          by_cases hagain : fault.isInterruption = true
          · rw [if_pos hagain]
            exact (ih hnext).after hspares hasked
          · rw [if_neg hagain]
            exact .spares fault next hnext hspares hasked

theorem Steady.readOnce (h : Steady valid rest) (hvalid : valid source) (hn : 0 < n) :
    Once valid rest source n (readOnce source n) :=
  h.readThrough hvalid hn _

-- Some read fails in earnest while just these bytes are left.
def Breaks (valid : σ → Prop) (rest : σ → List UInt8) (bytes : List UInt8) : Prop :=
  ∃ source n fault, valid source ∧ 0 < n ∧ rest source = bytes ∧
    (read source n).1 = .error fault ∧ fault.isInterruption = false

-- Interruptions do not last as long as the rounds.
theorem Steady.breaks_of_readThrough (h : Steady valid rest) (hvalid : valid source) (hn : 0 < n)
    {rounds : Nat} (hrounds : left source ≤ rounds) {fault : Fault}
    (hfails : (Source.readThrough rounds source n).1 = .error fault) :
    Breaks valid rest (rest source) := by
  induction rounds generalizing source with
  | zero =>
      have honce := h.read_once hvalid hn
      rw [Source.readThrough] at hfails
      generalize read source n = result at honce hfails
      cases honce with
      | brings bytes next hnext hbrings hasked => cases hfails
      | spares fault next hnext hspares hasked =>
          have := hspares.left_lt
          omega
  | succ rounds ih =>
      have honce := h.read_once hvalid hn
      rw [Source.readThrough] at hfails
      generalize hread : read source n = result at honce hfails
      cases honce with
      | brings bytes next hnext hbrings hasked => cases hfails
      | spares fault next hnext hspares hasked =>
          have hless := hspares.left_lt
          dsimp only at hfails
          by_cases hagain : fault.isInterruption = true
          · rw [if_pos hagain] at hfails
            rw [← hspares.same]
            exact ih hnext (by omega) hfails
          · exact ⟨source, n, fault, hvalid, hn, rfl, congrArg Prod.fst hread, by simpa using hagain⟩

-- What a read of exactly `n` bytes comes to, with `got` at hand before.
inductive Fetches (valid : σ → Prop) (rest : σ → List UInt8) (reading : String) (got : ByteArray)
    (source : σ) (n : Nat) : Except Fault ByteArray × σ → Prop where
  | whole (bytes : ByteArray) (next : σ) (hvalid : valid next) (hsize : bytes.size = n)
      (hsplit : got.data.toList ++ rest source = bytes.data.toList ++ rest next) :
      Fetches valid rest reading got source n (.ok bytes, next)
  | short (next : σ) (hvalid : valid next) (hfew : got.size + (rest source).length < n)
      (hnone : rest next = []) :
      Fetches valid rest reading got source n (.error (.unexpectedEnd reading), next)
  | broken (fault : Fault) (next : σ) (taken : List UInt8) (hvalid : valid next)
      (hsplit : rest source = taken ++ rest next) (hfew : got.size + taken.length < n)
      (hless : left next < left source) (hbreaks : Breaks valid rest (rest next)) :
      Fetches valid rest reading got source n (.error fault, next)

theorem Fetches.valid_next {reading : String} {got : ByteArray}
    {result : Except Fault ByteArray × σ} (h : Fetches valid rest reading got source n result) :
    valid result.2 := by
  cases h with
  | whole bytes next hvalid hsize hsplit => exact hvalid
  | short next hvalid hfew hnone => exact hvalid
  | broken fault next taken hvalid hsplit hfew hless hbreaks => exact hvalid

theorem Fetches.after {reading : String} {got bytes : ByteArray} {next : σ}
    {result : Except Fault ByteArray × σ}
    (h : Fetches valid rest reading (got ++ bytes) next n result)
    (hsplit : rest source = bytes.data.toList ++ rest next) (hleft : left next ≤ left source) :
    Fetches valid rest reading got source n result := by
  have hsize := ByteArray.size_append (a := got) (b := bytes)
  have hlength := congrArg List.length hsplit
  have hbytes : bytes.data.toList.length = bytes.size := rfl
  rw [List.length_append, hbytes] at hlength
  cases h with
  | whole all last hvalid hall hrest =>
      refine .whole all last hvalid hall ?_
      rw [hsplit, ← List.append_assoc, ← hrest, ByteArray.data_append, Array.toList_append]
  | short last hvalid hfew hnone => exact .short last hvalid (by omega) hnone
  | broken fault last taken hvalid hrest hfew hless hbreaks =>
      refine .broken fault last (bytes.data.toList ++ taken) hvalid ?_ ?_
        (Nat.lt_of_lt_of_le hless hleft) hbreaks
      · rw [hsplit, hrest, List.append_assoc]
      · rw [List.length_append, hbytes]
        omega

theorem Steady.readRest (h : Steady valid rest) (hvalid : valid source) (reading : String)
    (rounds : Nat) (got : ByteArray) (hgot : got.size ≤ n) (hrounds : n < got.size + rounds) :
    Fetches valid rest reading got source n (Source.readRest reading n rounds got source) := by
  induction rounds generalizing source got with
  | zero => omega
  | succ rounds ih =>
      rw [Source.readRest]
      by_cases hmore : got.size < n
      · have hmissing : 0 < n - got.size := by omega
        have honce := h.readOnce hvalid hmissing
        have hbreaks : ∀ fault,
            (Source.readThrough (left source) source (n - got.size)).1 = .error fault →
              Breaks valid rest (rest source) :=
          fun _ => h.breaks_of_readThrough hvalid hmissing (Nat.le_refl _)
        rw [if_pos hmore]
        rw [Source.readOnce] at honce ⊢
        generalize Source.readThrough (left source) source (n - got.size) = result at honce hbreaks
        cases honce with
        | brings bytes next hnext hbrings hasked =>
            dsimp only
            by_cases hnone : bytes.size = 0
            · rw [if_pos hnone]
              have hempty := hbrings.ended hnone
              have hnil : rest next = [] := by
                have hsplit := hbrings.split
                rw [hempty] at hsplit
                exact (List.append_eq_nil_iff.mp hsplit.symm).2
              refine .short next hnext ?_ hnil
              rw [hempty, List.length_nil]
              omega
            · rw [if_neg hnone]
              have hfits := hbrings.fits
              have hsize := ByteArray.size_append (a := got) (b := bytes)
              exact (ih hnext (got ++ bytes) (by omega) (by omega)).after hbrings.split
                hbrings.left_le
        | spares fault next hnext hspares hasked =>
            refine .broken _ next [] hnext ?_ hmore hspares.left_lt ?_
            · rw [hspares.same, List.nil_append]
            · rw [hspares.same]
              exact hbreaks fault rfl
      · rw [if_neg hmore]
        exact .whole got source hvalid (by omega) rfl

theorem Steady.readExactly (h : Steady valid rest) (hvalid : valid source) (reading : String)
    (n : Nat) :
    Fetches valid rest reading ByteArray.empty source n (Source.readExactly reading source n) :=
  h.readRest hvalid reading (n + 1) ByteArray.empty (Nat.zero_le _) (by simp)

end Steady

-- A caller that reads on whatever happens, for `sizes i` bytes in call `i`: the
-- source before that call, its answer, and the bytes of all answers before it.
def after (sizes : Nat → Nat) (source : σ) : Nat → σ
  | 0 => source
  | calls + 1 => (read (after sizes source calls) (sizes calls)).2

def answer (sizes : Nat → Nat) (source : σ) (call : Nat) : Except Fault ByteArray :=
  (read (after sizes source call) (sizes call)).1

def brought : Except Fault ByteArray → List UInt8
  | .ok bytes => bytes.data.toList
  | .error _ => []

def gathered (sizes : Nat → Nat) (source : σ) : Nat → List UInt8
  | 0 => []
  | calls + 1 => gathered sizes source calls ++ brought (answer sizes source calls)

-- What each call keeps holds from some call on.
theorem after_keeps {P : σ → Prop} {sizes : Nat → Nat} {source : σ} {call later : Nat}
    (hkeeps : ∀ call source, P source → P (read source (sizes call)).2)
    (h : P (after sizes source call)) (hlater : call ≤ later) : P (after sizes source later) := by
  induction later, hlater using Nat.le_induction with
  | base => exact h
  | succ later hlater ih => exact hkeeps later _ ih

-- Calls that take from a budget come to an end.
theorem exists_first_call (stops : Nat → Prop) (budget : Nat → Nat)
    (h : ∀ call, stops call ∨ budget (call + 1) < budget call) :
    ∃ call, stops call ∧ ∀ earlier, earlier < call → ¬stops earlier := by
  classical
  have hstops : ∃ call, stops call := by
    by_contra hnever
    have hspent : ∀ call, budget call + call ≤ budget 0 := by
      intro call
      induction call with
      | zero => exact Nat.le_refl _
      | succ call ih =>
          have hless := (h call).resolve_left fun hcall => hnever ⟨call, hcall⟩
          omega
    have := hspent (budget 0 + 1)
    omega
  exact ⟨Nat.find hstops, Nat.find_spec hstops, fun earlier => Nat.find_min hstops⟩

end Unpack.Source
