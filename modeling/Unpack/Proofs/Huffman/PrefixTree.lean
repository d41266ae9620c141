import Unpack.Proofs.Bits.BitList
import Unpack.Proofs.Huffman.Canonical

namespace Unpack.Huffman.Tree

-- Where bits lead. Leaves and vacant places hold on to what comes after.
def walk : Tree → List Bool → Tree
  | .node zero one, bit :: bits => if bit then one.walk bits else zero.walk bits
  | tree, _ => tree

def leaf? : Tree → Option (Nat × Nat)
  | .leaf symbol length => some (symbol, length)
  | _ => none

-- The leaf that some first part of the bits leads to.
def find (tree : Tree) (bits : List Bool) : Option (Nat × Nat) :=
  (tree.walk bits).leaf?

@[simp] theorem walk_nil (tree : Tree) : tree.walk [] = tree := by
  cases tree <;> rfl

@[simp] theorem walk_leaf (symbol length : Nat) (bits : List Bool) :
    (leaf symbol length).walk bits = leaf symbol length := by
  cases bits <;> rfl

@[simp] theorem walk_vacant (bits : List Bool) : vacant.walk bits = vacant := by
  cases bits <;> rfl

theorem walk_append (tree : Tree) (front back : List Bool) :
    tree.walk (front ++ back) = (tree.walk front).walk back := by
  induction front generalizing tree with
  | nil => simp
  | cons bit front ih =>
      cases tree with
      | vacant => simp
      | leaf symbol length => simp
      | node zero one =>
          rw [List.cons_append, walk, walk]
          split
          · exact ih one
          · exact ih zero

theorem find_eq_some_iff (tree : Tree) (bits : List Bool) (symbol length : Nat) :
    tree.find bits = some (symbol, length) ↔ tree.walk bits = leaf symbol length := by
  unfold find
  cases tree.walk bits <;> simp [leaf?]

-- A place with more below it is left only with all bits used up.
theorem height_walk (tree : Tree) (bits : List Bool) (zero one : Tree)
    (h : tree.walk bits = node zero one) :
    (node zero one).height + bits.length ≤ tree.height := by
  induction bits generalizing tree with
  | nil =>
      rw [walk_nil] at h
      rw [h, List.length_nil]
      omega
  | cons bit bits ih =>
      cases tree with
      | vacant => simp at h
      | leaf symbol length => simp at h
      | node left right =>
          rw [walk] at h
          simp only [height, List.length_cons] at ih ⊢
          cases bit with
          | true =>
              have := ih right h
              omega
          | false =>
              have := ih left h
              omega

def slotAt (depth : Nat) : Tree → Slot
  | .vacant => .vacant
  | .leaf symbol length => .leaf symbol length
  | .node zero one => .branch (depth + (node zero one).height) (.node zero one)

-- Following the bits of a number is following the list of its bits.
theorem slot_eq_walk (tree : Tree) (bits : List Bool) (depth : Nat) :
    tree.slot bits.length (Bits.value bits) depth =
      (tree.walk bits).slotAt (depth + bits.length) := by
  induction bits generalizing tree depth with
  | nil => cases tree <;> rfl
  | cons bit bits ih =>
      cases tree with
      | vacant => rfl
      | leaf symbol length => rfl
      | node zero one =>
          have hbit := bit.toNat_le
          rw [List.length_cons, slot, Bits.value, walk,
            show (bit.toNat + 2 * Bits.value bits) / 2 = Bits.value bits by omega, ih, ih,
            show depth + 1 + bits.length = depth + (bits.length + 1) by omega]
          cases bit with
          | true => rw [if_neg (by simp), if_pos rfl]
          | false => rw [if_pos (by simp), if_neg (by simp)]

theorem walk_halves (tree : Tree) (bit : Bool) (bits : List Bool) :
    (if bit then tree.halves.2 else tree.halves.1).walk bits = tree.walk (bit :: bits) := by
  cases tree with
  | vacant => cases bit <;> simp [halves]
  | leaf symbol length => cases bit <;> simp [halves]
  | node zero one => cases bit <;> rfl

theorem insert_succ (leaf : Tree) (number count : Nat) (tree : Tree) :
    insert leaf number (count + 1) tree =
      if number.testBit count then
        node tree.halves.1 (insert leaf number count tree.halves.2)
      else
        node (insert leaf number count tree.halves.1) tree.halves.2 := rfl

-- A new leaf is where its code leads, hides nothing but what is below it, and
-- turns the places above it into ways on.
theorem find_insert_of_begins (symbol length number count : Nat) (tree : Tree) (bits : List Bool)
    (h : codeBits number count <+: bits) :
    (insert (leaf symbol length) number count tree).find bits = some (symbol, length) := by
  rw [find_eq_some_iff]
  induction count generalizing tree bits with
  | zero => exact walk_leaf _ _ _
  | succ count ih =>
      cases bits with
      | nil => simp [codeBits] at h
      | cons bit bits =>
          rw [codeBits, List.cons_prefix_cons] at h
          obtain ⟨rfl, hrest⟩ := h
          rw [insert_succ]
          by_cases hbit : number.testBit count = true
          · rw [if_pos hbit, hbit, walk, if_pos rfl]
            exact ih _ bits hrest
          · rw [if_neg hbit, walk, if_neg hbit]
            exact ih _ bits hrest

theorem find_insert_of_short (symbol length number count : Nat) (tree : Tree) (bits : List Bool)
    (h : bits <+: codeBits number count) (hshort : bits.length < count) :
    (insert (leaf symbol length) number count tree).find bits = none := by
  induction count generalizing tree bits with
  | zero => omega
  | succ count ih =>
      rw [insert_succ]
      cases bits with
      | nil => split <;> rfl
      | cons bit bits =>
          rw [codeBits, List.cons_prefix_cons] at h
          obtain ⟨rfl, hrest⟩ := h
          rw [List.length_cons] at hshort
          by_cases hbit : number.testBit count = true
          · rw [if_pos hbit, hbit, find, walk, if_pos rfl]
            exact ih _ bits hrest (by omega)
          · rw [if_neg hbit, find, walk, if_neg hbit]
            exact ih _ bits hrest (by omega)

theorem find_insert_of_apart (symbol length number count : Nat) (tree : Tree) (bits : List Bool)
    (hbelow : ¬codeBits number count <+: bits) (habove : ¬bits <+: codeBits number count) :
    (insert (leaf symbol length) number count tree).find bits = tree.find bits := by
  induction count generalizing tree bits with
  | zero => exact absurd List.nil_prefix hbelow
  | succ count ih =>
      cases bits with
      | nil => exact absurd List.nil_prefix habove
      | cons bit bits =>
          rw [codeBits, List.cons_prefix_cons] at hbelow habove
          have hother : tree.find (bit :: bits) =
              (if bit then tree.halves.2 else tree.halves.1).find bits := by
            rw [find, find, walk_halves]
          rw [insert_succ, hother]
          by_cases hsame : bit = number.testBit count
          · subst hsame
            have hbelow' : ¬codeBits number count <+: bits := fun h => hbelow ⟨rfl, h⟩
            have habove' : ¬bits <+: codeBits number count := fun h => habove ⟨rfl, h⟩
            by_cases hbit : number.testBit count = true
            · rw [if_pos hbit, hbit, find, walk, if_pos rfl, if_pos rfl]
              exact ih _ bits hbelow' habove'
            · rw [if_neg hbit, find, walk, if_neg hbit, if_neg hbit]
              exact ih _ bits hbelow' habove'
          · by_cases hbit : number.testBit count = true
            · have hfalse : bit = false := by
                cases bit
                · rfl
                · exact absurd hbit.symm hsame
              rw [if_pos hbit, hfalse]
              rfl
            · have htrue : bit = true := by
                cases bit
                · exact absurd (Bool.not_eq_true _ ▸ hbit).symm hsame
                · rfl
              rw [if_neg hbit, htrue]
              rfl

theorem height_insert_le (symbol length number count : Nat) (tree : Tree) :
    (insert (leaf symbol length) number count tree).height ≤ max count tree.height := by
  induction count generalizing tree with
  | zero => simp [insert, height]
  | succ count ih =>
      have hhalves : tree.halves.1.height + 1 ≤ max 1 tree.height ∧
          tree.halves.2.height + 1 ≤ max 1 tree.height := by
        cases tree <;> simp only [halves, height] <;> omega
      have hzero := ih tree.halves.1
      have hone := ih tree.halves.2
      rw [insert_succ]
      split <;> rw [height] <;> omega

-- The codes of the symbols before `count` are in place, and nothing else.
structure Holds (lengths : List Nat) (count : Nat) (state : Array Nat × Tree) : Prop where
  size : state.1.size = 16
  next : ∀ length < 16, length ≠ 0 →
    state.1.getD length 0 = firstCode lengths length + (lengths.take count).count length
  find : ∀ bits symbol length, state.2.find bits = some (symbol, length) ↔
    symbol < count ∧ HasCode lengths symbol ∧ length = lengthOf lengths symbol ∧
      code lengths symbol <+: bits

theorem holds_zero (lengths : List Nat) :
    Holds lengths 0 ((Array.range (maxLength + 1)).map (firstCode lengths), .vacant) := by
  refine ⟨by simp [maxLength], ?_, ?_⟩
  · intro length hlength _
    simp [Array.getD, maxLength, hlength]
  · intro bits symbol length
    simp [find, leaf?]

-- A symbol without a code changes nothing.
theorem Holds.skip {lengths : List Nat} {count : Nat} (hcount : count < lengths.length)
    (hzero : lengths[count] = 0) {state : Array Nat × Tree} (h : Holds lengths count state) :
    Holds lengths (count + 1) state := by
  have hunused : ¬HasCode lengths count := by
    intro hcode
    rw [HasCode, show lengthOf lengths count = lengths[count] from
      List.getD_eq_getElem _ _ hcount] at hcode
    exact hcode hzero
  refine ⟨h.size, ?_, ?_⟩
  · intro length hlt hne
    rw [h.next length hlt hne, List.take_succ_eq_append_getElem hcount, List.count_append, hzero,
      List.count_singleton, if_neg (by simpa using Ne.symm hne), Nat.add_zero]
  · intro bits symbol length
    rw [h.find]
    refine and_congr_left fun hcode => ?_
    have hne : symbol ≠ count := fun heq => hunused (heq ▸ hcode.1)
    omega

-- The counter of the symbol's length goes up by one.
theorem Holds.next_modify {lengths : List Nat} {count : Nat} (hcount : count < lengths.length)
    {state : Array Nat × Tree} (h : Holds lengths count state) (length : Nat) (hlt : length < 16)
    (hne : length ≠ 0) :
    (state.1.modify lengths[count] (· + 1)).getD length 0 =
      firstCode lengths length + (lengths.take (count + 1)).count length := by
  have hcounted := h.next length hlt hne
  rw [List.take_succ_eq_append_getElem hcount, List.count_append, List.count_singleton]
  by_cases hsame : lengths[count] = length
  · rw [if_pos (by simpa using hsame), Array.getD_eq_getD_getElem?, Array.getElem?_modify,
      if_pos hsame, ← Nat.add_assoc, ← hcounted]
    simp [Array.getD_eq_getD_getElem?, h.size, hlt]
  · rw [if_neg (by simpa using hsame), Array.getD_eq_getD_getElem?, Array.getElem?_modify,
      if_neg hsame, ← Array.getD_eq_getD_getElem?, hcounted, Nat.add_zero]

-- No other code begins with the symbol's code, or is the beginning of it.
theorem Holds.find_insert {lengths : List Nat} (hfits : Fits lengths) {count : Nat}
    (hused : HasCode lengths count) {state : Array Nat × Tree} (h : Holds lengths count state)
    (bits : List Bool) (symbol length : Nat) :
    (insert (leaf count (lengthOf lengths count)) (codeNumber lengths count)
      (lengthOf lengths count) state.2).find bits = some (symbol, length) ↔
      symbol < count + 1 ∧ HasCode lengths symbol ∧ length = lengthOf lengths symbol ∧
        code lengths symbol <+: bits := by
  by_cases hbegins : code lengths count <+: bits
  · rw [find_insert_of_begins _ _ _ _ _ _ hbegins]
    constructor
    · rintro h
      cases h
      exact ⟨Nat.lt_succ_self _, hused, rfl, hbegins⟩
    · rintro ⟨_, hcode, rfl, hbits⟩
      rw [code_unique hfits hused hcode hbegins hbits]
  · by_cases hends : bits <+: code lengths count
    · have hshort : bits.length < lengthOf lengths count := by
        have hle := hends.length_le
        rw [length_code] at hle
        rcases Nat.lt_or_eq_of_le hle with hlt | heq
        · exact hlt
        · exact absurd ((hends.eq_of_length (by simpa using heq)) ▸ List.prefix_refl _) hbegins
      rw [find_insert_of_short _ _ _ _ _ _ hends hshort]
      constructor
      · intro h
        cases h
      · rintro ⟨_, hcode, _, hbits⟩
        have heq := code_prefix_injective hfits hcode hused
          (by simpa using (hbits.trans hends).length_le) (hbits.trans hends)
        exact absurd (heq ▸ hbits) hbegins
    · rw [find_insert_of_apart _ _ _ _ _ _ hbegins hends, h.find]
      constructor
      · rintro ⟨hlt, hrest⟩
        exact ⟨by omega, hrest⟩
      · rintro ⟨hlt, hcode, hsame, hbits⟩
        have hne : symbol ≠ count := fun heq => hbegins (heq ▸ hbits)
        exact ⟨by omega, hcode, hsame, hbits⟩

theorem holds_succ {lengths : List Nat} (hfits : Fits lengths) (hsymbols : lengths.length ≤ 65536)
    {count : Nat} (hcount : count < lengths.length) {state : Array Nat × Tree}
    (h : Holds lengths count state) :
    Holds lengths (count + 1) (place state (lengths[count], count)) := by
  have hlength : lengthOf lengths count = lengths[count] := List.getD_eq_getElem _ _ hcount
  by_cases hzero : lengths[count] = 0
  · simp only [place, hzero, if_true]
    exact h.skip hcount hzero
  · have hused : HasCode lengths count := by
      rw [HasCode, hlength]
      exact hzero
    have hle := hfits.1 _ (List.getElem_mem hcount)
    simp only [maxLength] at hle
    have hnumber : state.1.getD lengths[count] 0 = codeNumber lengths count := by
      rw [h.next _ (by omega) hzero, codeNumber, hlength]
    have hsymbol : count % symbolModulus = count :=
      Nat.mod_eq_of_lt (Nat.lt_of_lt_of_le hcount hsymbols)
    simp only [place, hzero, if_false, hsymbol, hnumber]
    refine ⟨by simp [h.size], h.next_modify hcount, ?_⟩
    rw [← hlength]
    exact h.find_insert hfits hused

theorem holds_foldl {lengths : List Nat} (hfits : Fits lengths) (hsymbols : lengths.length ≤ 65536)
    (todo : List Nat) (count : Nat) (hcount : count ≤ lengths.length)
    (htodo : lengths.drop count = todo) {state : Array Nat × Tree} (h : Holds lengths count state) :
    Holds lengths lengths.length ((todo.zipIdx count).foldl place state) := by
  induction todo generalizing count state with
  | nil =>
      have hend : count = lengths.length :=
        Nat.le_antisymm hcount (List.drop_eq_nil_iff.mp htodo)
      rw [← hend]
      exact h
  | cons length todo ih =>
      have hless : count < lengths.length := by
        apply Nat.lt_of_not_le
        intro hge
        rw [List.drop_of_length_le hge] at htodo
        cases htodo
      rw [List.drop_eq_getElem_cons hless, List.cons.injEq] at htodo
      obtain ⟨rfl, hrest⟩ := htodo
      rw [List.zipIdx_cons, List.foldl_cons]
      exact ih (count + 1) hless hrest (holds_succ hfits hsymbols hless h)

-- The tree finds exactly the symbols whose codes begin the bits.
theorem find_ofLengths {lengths : List Nat} (hfits : Fits lengths)
    (hsymbols : lengths.length ≤ 65536) (bits : List Bool) (symbol length : Nat) :
    (ofLengths lengths).find bits = some (symbol, length) ↔
      HasCode lengths symbol ∧ length = lengthOf lengths symbol ∧ code lengths symbol <+: bits := by
  have h := holds_foldl hfits hsymbols lengths 0 (Nat.zero_le _) rfl (holds_zero lengths)
  rw [ofLengths, h.find]
  exact ⟨fun hfound => hfound.2, fun hcode => ⟨hcode.1.lt_length, hcode⟩⟩

theorem height_ofLengths_le (lengths : List Nat) (bound : Nat)
    (hbound : ∀ length ∈ lengths, length ≤ bound) : (ofLengths lengths).height ≤ bound := by
  have hfold : ∀ (entries : List (Nat × Nat)) (state : Array Nat × Tree),
      (∀ entry ∈ entries, entry.1 ≤ bound) → state.2.height ≤ bound →
        (entries.foldl place state).2.height ≤ bound := by
    intro entries
    induction entries with
    | nil => exact fun _ _ h => h
    | cons entry entries ih =>
        intro state hentries hstate
        apply ih _ (fun e he => hentries e (List.mem_cons_of_mem _ he))
        have hentry := hentries entry List.mem_cons_self
        unfold place
        dsimp only
        split
        · exact hstate
        · exact Nat.le_trans (height_insert_le _ _ _ _ _) (by omega)
  apply hfold
  · intro entry hentry
    exact hbound _ (List.fst_mem_of_mem_zipIdx hentry)
  · exact Nat.zero_le _

end Unpack.Huffman.Tree
