import Unpack.Proofs.Bits.Reader
import Unpack.Proofs.Huffman.Layout
import Unpack.Proofs.Huffman.PrefixTree

namespace Unpack.Huffman

open Bits (Reader)

-- A table for the code with the given lengths.
structure Table.Decodes (t : Table) (lengths : List Nat) : Prop where
  count : lengths.length ≤ Tree.symbolModulus
  code : Complete lengths ∨ Degenerate lengths
  built : t = .ofTree (.ofLengths lengths) (lengths.foldl max 0)

-- Where a symbol was decoded: the reader has moved past its code.
structure Consumes (before after : Reader) (count : Nat) : Prop where
  bits : after.bits = before.bits.drop count
  consumed : after.consumed = before.consumed + count

namespace Table

variable {t : Table} {lengths : List Nat}

theorem Decodes.fits (h : t.Decodes lengths) : Fits lengths :=
  h.code.elim Complete.fits Degenerate.fits

theorem Decodes.find (h : t.Decodes lengths) (bits : List Bool) (symbol length : Nat) :
    t.tree.find bits = some (symbol, length) ↔
      HasCode lengths symbol ∧ length = lengthOf lengths symbol ∧ Huffman.code lengths symbol <+: bits := by
  rw [h.built]
  exact Tree.find_ofLengths h.fits h.count bits symbol length

theorem Decodes.root (h : t.Decodes lengths) (bits : List Bool) (hbits : bits.length = rootBits) :
    t.root[Bits.value bits % 512] =
      (t.tree.walk bits).slotAt rootBits := by
  have hvalue : Bits.value bits % 512 = Bits.value bits := by
    have hlt := Bits.value_lt bits
    rw [hbits] at hlt
    exact Nat.mod_eq_of_lt hlt
  have hslot := Tree.slot_eq_walk t.tree bits 0
  rw [hbits, Nat.zero_add] at hslot
  simp only [h.built, ofTree, Vector.getElem_ofFn, hvalue] at hslot ⊢
  exact hslot

-- Places that some bits lead to for good.
theorem Decodes.find_of_leaf (bits more : List Bool) {symbol length : Nat}
    (hleaf : t.tree.walk bits = .leaf symbol length) :
    t.tree.find (bits ++ more) = some (symbol, length) := by
  rw [Tree.find_eq_some_iff, Tree.walk_append, hleaf, Tree.walk_leaf]

theorem Decodes.find_of_vacant (bits more : List Bool) (hvacant : t.tree.walk bits = .vacant) :
    t.tree.find (bits ++ more) = none := by
  rw [Tree.find, Tree.walk_append, hvacant, Tree.walk_vacant]
  rfl

-- A complete code has no vacant place.
theorem Decodes.walk_ne_vacant (h : t.Decodes lengths) (hcomplete : Complete lengths)
    (bits : List Bool) : t.tree.walk bits ≠ .vacant := by
  intro hvacant
  obtain ⟨symbol, hcode, hstarts⟩ :=
    hcomplete.exists_code (bits ++ List.replicate maxLength false) (by simp)
  have hfound := (h.find _ symbol _).mpr ⟨hcode, rfl, hstarts⟩
  rw [Decodes.find_of_vacant bits _ hvacant] at hfound
  cases hfound

-- What a lookup comes to.
inductive Lookup (lengths : List Nat) (r : Reader) : Except Fault (Option Nat) × Reader → Prop where
  | found (symbol : Nat) (next : Reader) (hcode : HasCode lengths symbol)
      (hstarts : Huffman.code lengths symbol <+: r.bits)
      (hnext : Consumes r next (lengthOf lengths symbol)) : Lookup lengths r (.ok (some symbol), next)
  | short (next : Reader) (hnone : ∀ symbol, HasCode lengths symbol →
      ¬Huffman.code lengths symbol <+: r.bits)
      (hopen : r.bits.length < rootBits ∨ Complete lengths)
      (hnext : Consumes r next 0) : Lookup lengths r (.ok none, next)
  | refused (next : Reader) (hnone : ∀ symbol, HasCode lengths symbol →
      ¬Huffman.code lengths symbol <+: r.bits)
      (hlong : rootBits ≤ r.bits.length) (hdegenerate : Degenerate lengths)
      (hnext : Consumes r next 0) : Lookup lengths r (.error (.invalidCode r.consumed), next)

theorem Decodes.lookup_of_find (h : t.Decodes lengths) (r : Reader) (n symbol length : Nat)
    (hlength : length ≤ n) (hfind : t.tree.find r.bits = some (symbol, length)) :
    Lookup lengths r (.ok (some symbol), (r.fetch n).drop length) := by
  obtain ⟨hcode, rfl, hstarts⟩ := (h.find _ _ _).mp hfind
  have hle := hstarts.length_le
  rw [length_code] at hle
  exact .found symbol _ hcode hstarts ⟨Reader.bits_drop_fetch r n _ hlength hle,
    Reader.consumed_drop_fetch r n _ hlength hle⟩

theorem Decodes.none_of_find (h : t.Decodes lengths) (bits : List Bool)
    (hfind : t.tree.find bits = none) (symbol : Nat) (hcode : HasCode lengths symbol) :
    ¬Huffman.code lengths symbol <+: bits := by
  intro hstarts
  rw [(h.find bits symbol _).mpr ⟨hcode, rfl, hstarts⟩] at hfind
  cases hfind

theorem consumes_fetch (r : Reader) (n : Nat) : Consumes r (r.fetch n) 0 :=
  ⟨Reader.bits_fetch r n, Reader.consumed_fetch r n⟩

theorem Decodes.lookup_takeLast (h : t.Decodes lengths) (r : Reader) (n : Nat)
    (hshort : r.bits.length < n) (hopen : r.bits.length < rootBits ∨ Complete lengths) :
    Lookup lengths r (t.takeLast (r.fetch n)) := by
  have hlook := Reader.look_eq_some r r.bits.length (Nat.le_refl _)
  have hslot := Tree.slot_eq_walk t.tree r.bits 0
  have havailable : (r.fetch n).available = r.bits.length := by
    rw [Reader.available_fetch, Reader.length_bits]
  rw [List.take_length] at hlook
  simp only [takeLast, havailable, Reader.look_fetch, hlook, Option.getD_some, hslot]
  cases hwalk : t.tree.walk r.bits with
  | leaf symbol length =>
      have hfind := (Tree.find_eq_some_iff t.tree r.bits symbol length).mpr hwalk
      have hlength : length ≤ n := by
        obtain ⟨_, rfl, hstarts⟩ := (h.find _ _ _).mp hfind
        have := hstarts.length_le
        rw [length_code] at this
        omega
      exact h.lookup_of_find r n symbol length hlength hfind
  | vacant =>
      have hfind : t.tree.find r.bits = none := by rw [Tree.find, hwalk]; rfl
      exact .short _ (h.none_of_find _ hfind) hopen (consumes_fetch r n)
  | node zero one =>
      have hfind : t.tree.find r.bits = none := by rw [Tree.find, hwalk]; rfl
      exact .short _ (h.none_of_find _ hfind) hopen (consumes_fetch r n)

theorem Lookup.of_fetch {r : Reader} {n : Nat} {result : Except Fault (Option Nat) × Reader}
    (h : Lookup lengths (r.fetch n) result) : Lookup lengths r result := by
  have hbits := Reader.bits_fetch r n
  have hconsumed := Reader.consumed_fetch r n
  have hback : ∀ next count, Consumes (r.fetch n) next count → Consumes r next count :=
    fun _ _ hnext => ⟨by rw [hnext.bits, hbits], by rw [hnext.consumed, hconsumed]⟩
  cases h with
  | found symbol next hcode hstarts hnext =>
      exact .found symbol next hcode (hbits ▸ hstarts) (hback _ _ hnext)
  | short next hnone hopen hnext =>
      exact .short next (hbits ▸ hnone) (hbits ▸ hopen) (hback _ _ hnext)
  | refused next hnone hlong hdegenerate hnext =>
      rw [hconsumed]
      exact .refused next (hbits ▸ hnone) (hbits ▸ hlong) hdegenerate (hback _ _ hnext)

theorem Lookup.degenerate_of_error {r : Reader} {result : Except Fault (Option Nat) × Reader}
    (h : Lookup lengths r result) {fault : Fault} (hfault : result.1 = .error fault) :
    Degenerate lengths := by
  cases h with
  | found => cases hfault
  | short => cases hfault
  | refused _ _ _ hdegenerate => exact hdegenerate

-- A code with a place beyond the root has more than one symbol.
theorem Decodes.complete_of_node (h : t.Decodes lengths) (bits : List Bool)
    (hbits : 2 ≤ bits.length) (zero one : Tree) (hwalk : t.tree.walk bits = .node zero one) :
    Complete lengths := by
  rcases h.code with hcomplete | hdegenerate
  · exact hcomplete
  · have hheight := Tree.height_walk _ _ _ _ hwalk
    have hle := Tree.height_ofLengths_le lengths 1 hdegenerate.le_one
    rw [h.built] at hheight
    simp only [ofTree] at hheight
    omega

-- A full look that meets no leaf.
theorem Decodes.lookup_of_vacant (h : t.Decodes lengths) (r next : Reader) (n : Nat)
    (hn : rootBits ≤ n) (hbits : n ≤ r.bits.length) (hvacant : t.tree.walk (r.bits.take n) = .vacant)
    (hnext : Consumes r next 0) :
    Lookup lengths r (.error (.invalidCode next.consumed), next) := by
  have hfind := Decodes.find_of_vacant (r.bits.take n) (r.bits.drop n) hvacant
  rw [List.take_append_drop] at hfind
  have hconsumed : next.consumed = r.consumed := hnext.consumed
  rw [hconsumed]
  rcases h.code with hcomplete | hdegenerate
  · exact absurd hvacant (h.walk_ne_vacant hcomplete _)
  · exact .refused next (h.none_of_find _ hfind) (Nat.le_trans hn hbits) hdegenerate hnext

-- The second look, at as many bits as the longest code below the root's place
-- has.
theorem Decodes.lookup_branch (h : t.Decodes lengths) (r : Reader) (zero one : Tree)
    (hwalk : t.tree.walk (r.bits.take rootBits) = .node zero one) (hcomplete : Complete lengths) :
    let width := rootBits + (Tree.node zero one).height
    Lookup lengths r (match r.look width with
      | none => t.takeLast (r.fetch width)
      | some bits => take (r.fetch width)
          ((Tree.node zero one).slot (width - rootBits) (bits >>> rootBits) rootBits)) := by
  intro width
  rcases Nat.lt_or_ge r.bits.length width with hfew | hwide
  · rw [Reader.look_eq_none r _ hfew]
    exact h.lookup_takeLast r _ hfew (Or.inr hcomplete)
  · have hbelow : ((r.bits.take width).drop rootBits).length = width - rootBits := by
      rw [List.length_drop, List.length_take, Nat.min_eq_left hwide]
    have hfront : r.bits.take rootBits ++ (r.bits.take width).drop rootBits = r.bits.take width := by
      have hcut : r.bits.take rootBits = (r.bits.take width).take rootBits := by
        rw [List.take_take, Nat.min_eq_left (Nat.le_add_right _ _)]
      rw [hcut, List.take_append_drop]
    have hwalk' := Tree.walk_append t.tree (r.bits.take rootBits) ((r.bits.take width).drop rootBits)
    rw [hfront, hwalk] at hwalk'
    have hslot := Tree.slot_eq_walk (.node zero one) ((r.bits.take width).drop rootBits) rootBits
    rw [hbelow, ← hwalk', Bits.value_drop, ← Nat.shiftRight_eq_div_pow] at hslot
    simp only [Reader.look_eq_some r _ hwide, hslot]
    cases hend : t.tree.walk (r.bits.take width) with
    | leaf symbol length =>
        have hfind := Decodes.find_of_leaf _ (r.bits.drop width) hend
        rw [List.take_append_drop] at hfind
        have hlength : length ≤ width := by
          obtain ⟨_, rfl, hstarts⟩ :=
            (h.find _ _ _).mp ((Tree.find_eq_some_iff _ _ _ _).mpr hend)
          have := hstarts.length_le
          rwa [length_code, List.length_take, Nat.min_eq_left hwide] at this
        exact h.lookup_of_find r _ symbol length hlength hfind
    | vacant =>
        exact h.lookup_of_vacant r _ width (Nat.le_add_right _ _) hwide hend (consumes_fetch r _)
    | node left right =>
        have hheight := Tree.height_walk (.node zero one) _ left right (hwalk' ▸ hend)
        rw [hbelow, Nat.add_sub_cancel_left] at hheight
        simp only [Tree.height] at hheight
        omega

theorem Decodes.lookup_symbol (h : t.Decodes lengths) (r : Reader) :
    Lookup lengths r (t.symbol r) := by
  unfold symbol
  simp only [Reader.look_fetch]
  rcases Nat.lt_or_ge r.bits.length rootBits with hfew | hmany
  · rw [Reader.look_eq_none r _ hfew]
    exact h.lookup_takeLast r _ hfew (Or.inl hfew)
  · have hstem : (r.bits.take rootBits).length = rootBits := by
      rw [List.length_take, Nat.min_eq_left hmany]
    have hsplit := List.take_append_drop rootBits r.bits
    rw [Reader.look_eq_some r _ hmany]
    simp only [h.root _ hstem]
    cases hwalk : t.tree.walk (r.bits.take rootBits) with
    | leaf symbol length =>
        have hfind := Decodes.find_of_leaf _ (r.bits.drop rootBits) hwalk
        rw [hsplit] at hfind
        have hlength : length ≤ rootBits := by
          obtain ⟨_, rfl, hstarts⟩ :=
            (h.find _ _ _).mp ((Tree.find_eq_some_iff _ _ _ _).mpr hwalk)
          have := hstarts.length_le
          rwa [length_code, hstem] at this
        exact h.lookup_of_find r _ symbol length hlength hfind
    | vacant =>
        exact h.lookup_of_vacant r _ rootBits (Nat.le_refl _) hmany hwalk (consumes_fetch r _)
    | node zero one =>
        have hcomplete := h.complete_of_node _ (by rw [hstem]; decide) _ _ hwalk
        have hbranch := h.lookup_branch (r.fetch rootBits) zero one
          (by rwa [Reader.bits_fetch]) hcomplete
        simp only [Reader.look_fetch] at hbranch
        exact hbranch.of_fetch

theorem excess?_eq_none_iff (lengths : List Nat) :
    excess? lengths = none ↔ ∀ length ∈ lengths, length ≤ maxLength := by
  simp only [excess?, List.find?_eq_none, decide_eq_true_eq, Nat.not_lt]
  constructor
  · intro h length hmem
    obtain ⟨symbol, hlt, rfl⟩ := List.getElem_of_mem hmem
    exact h (lengths[symbol], symbol) (List.mk_mem_zipIdx_iff_getElem?.mpr (by simp))
  · intro h entry hentry
    exact h _ (List.fst_mem_of_mem_zipIdx hentry)

theorem isDegenerate_iff (lengths : List Nat) : isDegenerate lengths = true ↔ Degenerate lengths := by
  unfold isDegenerate Degenerate
  generalize lengths.filter (· ≠ 0) = used
  rcases used with _ | ⟨length, _ | ⟨other, rest⟩⟩ <;> simp

theorem build_of_excess {lengths : List Nat} {length symbol : Nat}
    (h : excess? lengths = some (length, symbol)) (mayDegenerate : Bool) :
    build lengths mayDegenerate = .error (.invalidTable (.lengthTooLong length symbol)) := by
  rw [build, h]

-- Room is laid out first, and only then the points are compared.
theorem build_of_short {lengths : List Nat} (hcount : lengths.length ≤ Tree.symbolModulus)
    (hshort : ∀ length ∈ lengths, length ≤ maxLength) (mayDegenerate : Bool) :
    build lengths mayDegenerate =
      if Crosses lengths then .error .overflow
      else if Complete lengths ∨ mayDegenerate = true ∧ Degenerate lengths then
        .ok (ofTree (.ofLengths lengths) (lengths.foldl max 0))
      else .error (.invalidTable (imbalance lengths)) := by
  have hused := usedPoints_eq hcount
  rw [pointsUpTo_maxLength hshort] at hused
  rw [build, (excess?_eq_none_iff lengths).mpr hshort, hused]
  dsimp only
  by_cases hcrosses : Crosses lengths
  · rw [if_pos hcrosses, if_pos hcrosses]
    rfl
  · rw [if_neg hcrosses, if_neg hcrosses]
    have hcomplete : (lengths.map points).sum = codeSpace ↔ Complete lengths :=
      ⟨fun h => ⟨hshort, h⟩, fun h => h.2⟩
    have hfits : (lengths.map points).foldr (· + ·) 0 < 0x100000000 := by
      rw [← List.sum_eq_foldr]
      have := sum_points_le lengths
      simp only [Tree.symbolModulus] at hcount
      omega
    simp only [bind, Except.bind, hcomplete, isDegenerate_iff, if_pos hfits, imbalance]
    split
    · rfl
    · split <;> rfl

theorem build_eq_ok_iff (lengths : List Nat) (hcount : lengths.length ≤ Tree.symbolModulus)
    (mayDegenerate : Bool) (t : Table) :
    build lengths mayDegenerate = .ok t ↔
      (Complete lengths ∨ mayDegenerate = true ∧ Degenerate lengths) ∧
        t = .ofTree (.ofLengths lengths) (lengths.foldl max 0) := by
  have hfits : Complete lengths ∨ mayDegenerate = true ∧ Degenerate lengths → Fits lengths :=
    fun h => h.elim Complete.fits fun h => h.2.fits
  cases hexcess : excess? lengths with
  | some entry =>
      have hlong : ¬Fits lengths := fun h =>
        nomatch hexcess.symm.trans ((excess?_eq_none_iff lengths).mpr h.1)
      rw [build_of_excess hexcess]
      exact ⟨fun h => (nomatch h), fun h => absurd (hfits h.1) hlong⟩
  | none =>
      rw [build_of_short hcount ((excess?_eq_none_iff lengths).mp hexcess)]
      by_cases hcode : Complete lengths ∨ mayDegenerate = true ∧ Degenerate lengths
      · rw [if_neg (not_crosses_of_fits (hfits hcode)), if_pos hcode]
        exact ⟨fun h => ⟨hcode, (Except.ok.inj h).symm⟩, fun h => congrArg Except.ok h.2.symm⟩
      · rw [if_neg hcode]
        constructor
        · intro h
          split at h <;> cases h
        · exact fun h => absurd h.1 hcode

-- What counts is where the stems lead, unless a length is refused before.
theorem build_eq_overflow_iff {lengths : List Nat} (hcount : lengths.length ≤ Tree.symbolModulus)
    (mayDegenerate : Bool) :
    build lengths mayDegenerate = .error .overflow ↔
      (∀ length ∈ lengths, length ≤ maxLength) ∧ Crosses lengths := by
  cases hexcess : excess? lengths with
  | some entry =>
      have hlong : ¬∀ length ∈ lengths, length ≤ maxLength := fun h =>
        nomatch hexcess.symm.trans ((excess?_eq_none_iff lengths).mpr h)
      rw [build_of_excess hexcess]
      exact ⟨fun h => (nomatch h), fun h => absurd h.1 hlong⟩
  | none =>
      have hshort := (excess?_eq_none_iff lengths).mp hexcess
      rw [build_of_short hcount hshort]
      by_cases hcrosses : Crosses lengths
      · rw [if_pos hcrosses]
        exact iff_of_true rfl ⟨hshort, hcrosses⟩
      · rw [if_neg hcrosses]
        refine iff_of_false (fun h => ?_) fun h => hcrosses h.2
        split at h <;> cases h

theorem decodes_of_build {lengths : List Nat} (hcount : lengths.length ≤ Tree.symbolModulus)
    {mayDegenerate : Bool} {t : Table} (h : build lengths mayDegenerate = .ok t) :
    t.Decodes lengths := by
  obtain ⟨hcode, hbuilt⟩ := (build_eq_ok_iff lengths hcount mayDegenerate t).mp h
  exact ⟨hcount, hcode.imp_right And.right, hbuilt⟩

-- Every stem has its place in the root, and the second look, at all the bits
-- that the root asks for, ends at a leaf or at a vacant place.
theorem Decodes.stem_in_bounds (h : t.Decodes lengths) (r : Reader) (stem : Nat)
    (hlook : r.look rootBits = some stem) :
    ∃ hstem : stem < 512, ∀ width tree, t.root[stem] = .branch width tree →
      ∀ bits, r.look width = some bits → ∀ deeper below,
        tree.slot (width - rootBits) (bits >>> rootBits) rootBits ≠ .branch deeper below := by
  rcases Nat.lt_or_ge r.bits.length rootBits with hfew | hmany
  · rw [Reader.look_eq_none r _ hfew] at hlook
    cases hlook
  · have hlength : (r.bits.take rootBits).length = rootBits := by
      rw [List.length_take, Nat.min_eq_left hmany]
    rw [Reader.look_eq_some r _ hmany, Option.some.injEq] at hlook
    have hstem : stem < 512 := by
      have hlt := Bits.value_lt (r.bits.take rootBits)
      rw [hlook, hlength] at hlt
      exact hlt
    refine ⟨hstem, fun width tree hbranch bits hbits deeper below hslot => ?_⟩
    have hroot := h.root _ hlength
    simp only [hlook, Nat.mod_eq_of_lt hstem, hbranch] at hroot
    cases hwalk : t.tree.walk (r.bits.take rootBits) with
    | vacant => simp [hwalk, Tree.slotAt] at hroot
    | leaf symbol length => simp [hwalk, Tree.slotAt] at hroot
    | node zero one =>
        simp only [hwalk, Tree.slotAt, Slot.branch.injEq] at hroot
        obtain ⟨rfl, rfl⟩ := hroot
        have hcomplete := h.complete_of_node _ (by rw [hlength]; decide) _ _ hwalk
        have hlookup := h.lookup_branch r zero one hwalk hcomplete
        simp only [hbits, hslot, take] at hlookup
        exact (hlookup.degenerate_of_error rfl).not_complete hcomplete

-- A table is built exactly for a code that fills the code space, or that has
-- at most one symbol where that is allowed. It decodes the symbol whose
-- canonical code begins the bits, and nothing else.
theorem symbol_iff_canonical_code (lengths : List Nat)
    (hcount : lengths.length ≤ Tree.symbolModulus) :
    ((∃ t, ofLengths lengths = .ok t) ↔ Complete lengths) ∧
    ((∃ t, ofDistanceLengths lengths = .ok t) ↔ Complete lengths ∨ Degenerate lengths) ∧
    ∀ t, ofLengths lengths = .ok t ∨ ofDistanceLengths lengths = .ok t → ∀ r : Reader,
      (∀ symbol, HasCode lengths symbol → Huffman.code lengths symbol <+: r.bits →
        ∃ next, t.symbol r = (.ok (some symbol), next) ∧
          Consumes r next (Huffman.code lengths symbol).length) ∧
      ((∀ symbol, HasCode lengths symbol → ¬Huffman.code lengths symbol <+: r.bits) →
        (r.bits.length < rootBits ∨ Complete lengths →
          ∃ next, t.symbol r = (.ok none, next) ∧ Consumes r next 0) ∧
        (rootBits ≤ r.bits.length → ¬Complete lengths →
          ∃ next, t.symbol r = (.error (.invalidCode r.consumed), next) ∧ Consumes r next 0)) ∧
      ∀ stem, r.look rootBits = some stem → ∃ hstem : stem < 512,
        ∀ width tree, t.root[stem] = .branch width tree → ∀ bits, r.look width = some bits →
          ∀ deeper below,
            tree.slot (width - rootBits) (bits >>> rootBits) rootBits ≠ .branch deeper below := by
  refine ⟨?_, ?_, ?_⟩
  · simp [ofLengths, build_eq_ok_iff lengths hcount]
  · simp [ofDistanceLengths, build_eq_ok_iff lengths hcount]
  · intro t ht r
    have hdecodes : t.Decodes lengths :=
      ht.elim (decodes_of_build hcount) (decodes_of_build hcount)
    have hlookup := hdecodes.lookup_symbol r
    refine ⟨fun symbol hcode hstarts => ?_, fun hnone => ⟨fun hopen => ?_, fun hlong hpartial => ?_⟩,
      hdecodes.stem_in_bounds r⟩
    · generalize t.symbol r = result at hlookup
      cases hlookup with
      | found other next hother hbegins hnext =>
          rw [code_unique hdecodes.fits hcode hother hstarts hbegins, length_code]
          exact ⟨next, rfl, hnext⟩
      | short next hnone => exact absurd hstarts (hnone symbol hcode)
      | refused next hnone => exact absurd hstarts (hnone symbol hcode)
    · generalize t.symbol r = result at hlookup
      cases hlookup with
      | found symbol next hcode hbegins => exact absurd hbegins (hnone symbol hcode)
      | short next _ _ hnext => exact ⟨next, rfl, hnext⟩
      | refused next _ hlong hdegenerate =>
          rcases hopen with hfew | hcomplete
          · omega
          · exact absurd hcomplete hdegenerate.not_complete
    · generalize t.symbol r = result at hlookup
      cases hlookup with
      | found symbol next hcode hbegins => exact absurd hbegins (hnone symbol hcode)
      | short next _ hopen =>
          rcases hopen with hfew | hcomplete
          · omega
          · exact absurd hcomplete hpartial
      | refused next _ _ _ hnext => exact ⟨next, rfl, hnext⟩

section Refusal

variable {r : Reader}

-- No code begins with these bits, whatever follows.
def Refuses (t : Table) (r : Reader) : Prop :=
  ∀ more : Reader, r.bits <+: more.bits →
    ∃ fault next, t.symbol more = (.error fault, next) ∧ next.bits = more.bits

theorem Refuses.more (h : t.Refuses r) {more : Reader} (hfront : r.bits <+: more.bits) :
    t.Refuses more :=
  fun most hmost => h most (hfront.trans hmost)

theorem Refuses.same (h : t.Refuses r) {next : Reader} (hbits : next.bits = r.bits) :
    t.Refuses next :=
  h.more (hbits ▸ List.prefix_refl _)

theorem Refuses.symbol (h : t.Refuses r) :
    ∃ fault next, t.symbol r = (.error fault, next) ∧ t.Refuses next := by
  obtain ⟨fault, next, hsymbol, hbits⟩ := h r (List.prefix_refl _)
  exact ⟨fault, next, hsymbol, h.same hbits⟩

theorem takeLast_ne_error (t : Table) (r : Reader) (fault : Fault) :
    (t.takeLast r).1 ≠ .error fault := by
  rw [takeLast]
  split <;> exact nofun

-- What a slot makes of one reader it makes of all.
theorem take_eq_error {slot : Slot} {fault : Fault} (h : (take r slot).1 = .error fault)
    (more : Reader) : take more slot = (.error (.invalidCode more.consumed), more) := by
  cases slot with
  | leaf symbol length => cases h
  | vacant => rfl
  | branch width tree => rfl

-- Bits are refused only after a full look at them.
theorem refuses_of_error {fault : Fault} (h : (t.symbol r).1 = .error fault) : t.Refuses r := by
  intro more hfront
  unfold symbol at h ⊢
  simp only [Reader.look_fetch] at h ⊢
  cases hstem : r.look rootBits with
  | none =>
      rw [hstem] at h
      exact absurd h (t.takeLast_ne_error _ _)
  | some stem =>
      rw [hstem] at h
      rw [Reader.look_of_prefix hfront hstem]
      have hbound : stem % 512 < 512 := Nat.mod_lt _ (by decide)
      dsimp only at h ⊢
      cases hslot : t.root[stem % 512] with
      | leaf symbol length =>
          rw [hslot] at h
          cases h
      | vacant => exact ⟨_, _, rfl, Reader.bits_fetch _ _⟩
      | branch width tree =>
          rw [hslot] at h
          dsimp only at h ⊢
          cases hdeep : r.look width with
          | none =>
              -- With too few bits the answer is open, and no fault.
              rw [hdeep] at h
              exact absurd h (t.takeLast_ne_error _ _)
          | some bits =>
              rw [hdeep] at h
              rw [Reader.look_of_prefix hfront hdeep]
              refine ⟨_, _, take_eq_error h _, ?_⟩
              rw [Reader.bits_fetch, Reader.bits_fetch]

theorem refuses_of_symbol {fault : Fault} {next : Reader} (h : t.symbol r = (.error fault, next)) :
    t.Refuses next := by
  have hrefuses := refuses_of_error (congrArg Prod.fst h)
  obtain ⟨fault', next', hsymbol, hsame⟩ := hrefuses.symbol
  cases h.symm.trans hsymbol
  exact hsame

end Refusal

end Table

end Unpack.Huffman
