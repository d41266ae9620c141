import Unpack.Proofs.Machine.FlatTable.Build

namespace Unpack.Machine.FlatTable

open Bits (Register Reader reverse value)
open Huffman (HasCode lengthOf codeBits length_code length_codeBits)
open Huffman.Table (rootBits Deep deepStart)

variable {flat : FlatTable} {t : Huffman.Table} {lengths : List Nat} {bits : List Bool} {entry : Int}
  {g : Register} {r : Reader}

-- An entry for all symbols tells what the tree leads to.
theorem Owned.walk (h : Owned lengths lengths.length bits entry) (hdecodes : t.Decodes lengths) :
    (∃ symbol length, t.tree.walk bits = .leaf symbol length ∧ entry = symbolEntry symbol length ∧
      0 < length ∧ length < 16 ∧ length ≤ bits.length ∧ symbol < 65536) ∨
    ((∀ symbol length, t.tree.walk bits ≠ .leaf symbol length) ∧ entry = 0) := by
  cases h with
  | taken symbol hlt hcode hstarts =>
      have hle := hstarts.length_le
      rw [length_code] at hle
      exact .inl ⟨symbol, _, hdecodes.walk_eq_leaf_iff.mpr ⟨hcode, rfl, hstarts⟩, rfl,
        Nat.pos_of_ne_zero hcode, Nat.lt_succ_of_le (hdecodes.fits.1 _ hcode.lengthOf_mem), hle,
        Nat.lt_of_lt_of_le hlt hdecodes.count⟩
  | free hnone =>
      refine .inr ⟨fun symbol length hleaf => ?_, rfl⟩
      obtain ⟨hcode, _, hstarts⟩ := hdecodes.walk_eq_leaf_iff.mp hleaf
      exact hnone symbol hcode.lt_length hcode hstarts

theorem takeEntry_eq (hdecodes : t.Decodes lengths) (h : Owned lengths lengths.length bits entry)
    (hg : g.Shows r) (hheld : bits.length ≤ g.held) (depth : Nat) :
    ∃ g', takeEntry g entry =
        .ok ((Huffman.Table.take r ((t.tree.walk bits).slotAt depth)).1, g') ∧
      g'.Shows (Huffman.Table.take r ((t.tree.walk bits).slotAt depth)).2 := by
  unfold takeEntry
  rcases h.walk hdecodes with
    ⟨symbol, length, hleaf, rfl, hpositive, hlength, hle, hsymbol⟩ | ⟨hnone, rfl⟩
  · rw [if_neg (by rw [low_symbolEntry symbol hlength]; omega), hleaf]
    obtain ⟨g', hdrop, hshows⟩ := drop_eq hg (Nat.le_trans hle hheld)
    refine ⟨g', ?_, hshows⟩
    simp only [symbolEntry_div symbol hlength, natural_eq, low_symbolEntry symbol hlength, hdrop,
      Nat.mod_eq_of_lt hsymbol, bind, Except.bind, pure, Except.pure]
    rfl
  · have hzero : low 0 = 0 := rfl
    rw [if_pos hzero, hg.consumed]
    cases hwalk : t.tree.walk bits with
    | leaf symbol length => exact absurd hwalk (hnone symbol length)
    | vacant => exact ⟨g, rfl, hg⟩
    | node zero one => exact ⟨g, rfl, hg⟩

-- With all bits looked at the tree leads to a symbol or leaves it open.
theorem takeLast_eq_walk (t : Huffman.Table) (r : Reader) :
    t.takeLast r = match t.tree.walk r.bits with
      | .leaf symbol length => (.ok (some symbol), r.drop length)
      | _ => (.ok none, r) := by
  have hlook := Reader.look_eq_some r r.bits.length (Nat.le_refl _)
  have hslot := Huffman.Tree.slot_eq_walk t.tree r.bits 0
  rw [List.take_length] at hlook
  simp only [Huffman.Table.takeLast, ← Reader.length_bits, hlook, Option.getD_some, hslot]
  cases t.tree.walk r.bits <;> rfl

theorem value_append_zeros (bits : List Bool) (count : Nat) :
    value (bits ++ List.replicate count false) = value bits := by
  have hzeros : ∀ count, value (List.replicate count false) = 0 := by
    intro count
    induction count with
    | zero => rfl
    | succ count ih => rw [List.replicate_succ, value, ih]; rfl
  rw [Bits.value_append, hzeros, Nat.mul_zero, Nat.add_zero]

-- An entry found with zeros behind the last bits counts only if its code ends
-- before them.
theorem takeLast_eq (hdecodes : t.Decodes lengths) {count : Nat}
    (h : Owned lengths lengths.length (r.bits ++ List.replicate count false) entry)
    (hg : g.Shows r) (hheld : r.bits.length ≤ g.held) :
    ∃ g', takeLast g entry r.bits.length = .ok ((t.takeLast r).1, g') ∧
      g'.Shows (t.takeLast r).2 := by
  have hfront := List.prefix_append r.bits (List.replicate count false)
  unfold takeLast
  rw [takeLast_eq_walk]
  rcases h.walk hdecodes with
    ⟨symbol, length, hleaf, rfl, hpositive, hlength, hle, hsymbol⟩ | ⟨hnone, rfl⟩
  · obtain ⟨hcode, hsame, hstarts⟩ := hdecodes.walk_eq_leaf_iff.mp hleaf
    by_cases hwhole : length ≤ r.bits.length
    · have hbegins := List.prefix_of_prefix_length_le hstarts hfront (by rw [length_code]; omega)
      rw [if_neg (by rw [low_symbolEntry symbol hlength]; omega),
        hdecodes.walk_eq_leaf_iff.mpr ⟨hcode, hsame, hbegins⟩]
      obtain ⟨g', hdrop, hshows⟩ := drop_eq hg (Nat.le_trans hwhole hheld)
      refine ⟨g', ?_, hshows⟩
      simp only [symbolEntry_div symbol hlength, natural_eq, low_symbolEntry symbol hlength, hdrop,
        Nat.mod_eq_of_lt hsymbol, bind, Except.bind, pure, Except.pure]
    · rw [if_pos (by rw [low_symbolEntry symbol hlength]; omega)]
      cases hwalk : t.tree.walk r.bits with
      | leaf other short =>
          -- Only one code begins the bits and the zeros.
          obtain ⟨hother, hshort, hbegins⟩ := hdecodes.walk_eq_leaf_iff.mp hwalk
          have hone := Huffman.code_unique hdecodes.fits hother hcode (hbegins.trans hfront) hstarts
          have := hbegins.length_le
          rw [length_code, hone] at this
          omega
      | vacant => exact ⟨g, rfl, hg⟩
      | node zero one => exact ⟨g, rfl, hg⟩
  · have hzero : low 0 = 0 := rfl
    rw [if_pos (.inl hzero)]
    cases hwalk : t.tree.walk r.bits with
    | leaf other short =>
        obtain ⟨hother, hshort, hbegins⟩ := hdecodes.walk_eq_leaf_iff.mp hwalk
        exact absurd (hdecodes.walk_eq_leaf_iff.mpr ⟨hother, hshort, hbegins.trans hfront⟩)
          (hnone other short)
    | vacant => exact ⟨g, rfl, hg⟩
    | node zero one => exact ⟨g, rfl, hg⟩

-- A look at the last bits, fewer than were asked for.
theorem peek_rest {n : Nat} (hn : n ≤ 16) (hg : g.Shows (r.fetch n)) (hfew : r.bits.length < n) :
    g.available % 256 = r.bits.length ∧
      ∃ g', peek g r.bits.length = .ok (some (value r.bits), g') ∧ g'.Shows (r.fetch n) ∧
        r.bits.length ≤ g'.held := by
  have hcount : g.available % 256 = r.bits.length := by
    rw [hg.available_eq, Reader.bits_fetch]
    omega
  have hlook : (r.fetch n).look r.bits.length = some (value r.bits) := by
    rw [Reader.look_fetch, Reader.look_eq_some r _ (Nat.le_refl _), List.take_length]
  have hsame : (r.fetch n).fetch r.bits.length = r.fetch n := by
    apply Reader.fetch_of_le
    simp only [Reader.fetched_fetch, Reader.bytes_fetch, Reader.position_fetch]
    omega
  obtain ⟨g', hpeek, hshows, hheld⟩ := peek_eq hg (show r.bits.length ≤ 16 by omega)
  rw [hlook, hsame] at *
  exact ⟨hcount, g', hpeek, hshows, hheld rfl⟩

theorem exists_stem (hbits : bits.length = rootBits) :
    ∃ stem < 512, codeBits stem rootBits = bits ∧ reverse rootBits stem = value bits := by
  obtain ⟨stem, hlt, hstem⟩ := Huffman.exists_codeBits bits
  rw [hbits] at hlt hstem
  exact ⟨stem, hlt, hstem, by rw [← Bits.value_codeBits, hstem]⟩

-- Too few bits for the first look.
theorem Holds.symbol_of_few (h : flat.Holds t lengths) (hg : g.Shows r)
    (hfew : r.bits.length < rootBits) :
    ∃ g', flat.symbol g = .ok ((t.symbol r).1, g') ∧ g'.Shows (t.symbol r).2 := by
  obtain ⟨hdecodes, hentered, _⟩ := h
  have hlook := Reader.look_eq_none r _ hfew
  obtain ⟨g₁, hpeek₁, hg₁, _⟩ := peek_eq hg (show rootBits ≤ 16 by decide)
  obtain ⟨hcount, g₂, hpeek₂, hg₂, hheld⟩ := peek_rest (show rootBits ≤ 16 by decide) hg₁ hfew
  have hlast : t.symbol r = t.takeLast (r.fetch rootBits) := by
    simp only [Huffman.Table.symbol, Reader.look_fetch, hlook]
  rw [hlook] at hpeek₁
  have hbits : (r.fetch rootBits).bits = r.bits := Reader.bits_fetch r rootBits
  -- What is missing is taken for zeros.
  obtain ⟨padded, hpadded⟩ :
      ∃ padded, r.bits ++ List.replicate (rootBits - r.bits.length) false = padded := ⟨_, rfl⟩
  obtain ⟨stem, hlt, hstem, hplace⟩ := exists_stem (show padded.length = rootBits by
    rw [← hpadded, List.length_append, List.length_replicate]
    omega)
  rw [← hpadded, value_append_zeros] at hplace
  unfold FlatTable.symbol
  simp only [hpeek₁, hcount, hpeek₂, Option.getD_some, bind, Except.bind, ← hplace, hlast]
  by_cases hflat : ∀ width, ¬Deep lengths width stem
  · obtain ⟨entry, hentry, howned⟩ := hentered.root stem hlt hflat
    rw [hstem, ← hpadded, ← hbits] at howned
    obtain ⟨g', htake, hshows⟩ := takeLast_eq hdecodes howned hg₂ (by rw [hbits]; exact hheld)
    rw [hbits] at htake
    have hpositive : ¬entry < 0 := by
      cases howned with
      | taken symbol => exact Int.not_lt.mpr (symbolEntry_nonneg symbol _)
      | free => decide
    refine ⟨g', ?_, hshows⟩
    simp only [cell_eq hentry, if_neg hpositive]
    exact htake
  · obtain ⟨width, hdeep⟩ := Classical.not_forall_not.mp hflat
    have hstart := hdeep.le_start
    have hnegative : startEntry (deepStart lengths width stem) width < 0 :=
      startEntry_neg (by omega) (Nat.lt_succ_of_le hdeep.short)
    -- No code that the root resolves begins the bits, so they leave it open.
    have hopen : t.takeLast (r.fetch rootBits) = (.ok none, r.fetch rootBits) := by
      rw [takeLast_eq_walk, hbits]
      cases hwalk : t.tree.walk r.bits with
      | leaf symbol length =>
          obtain ⟨hcode, _, hstarts⟩ := hdecodes.walk_eq_leaf_iff.mp hwalk
          refine absurd ?_ (hdeep.not_resolved hdecodes.fits hcode)
          rw [hstem, ← hpadded]
          exact hstarts.trans (List.prefix_append _ _)
      | vacant => rfl
      | node zero one => rfl
    rw [hopen]
    refine ⟨g₂, ?_, hg₂⟩
    simp only [cell_eq (hentered.pointer width stem hdeep), if_pos hnegative, pure, Except.pure]

-- A full first look ends the lookup, or leads to a second one.
theorem symbol_eq_take (hdecodes : t.Decodes lengths) (hmany : rootBits ≤ r.bits.length)
    (hend : ∀ zero one, t.tree.walk (r.bits.take rootBits) ≠ .node zero one) :
    t.symbol r = Huffman.Table.take (r.fetch rootBits)
      ((t.tree.walk (r.bits.take rootBits)).slotAt rootBits) := by
  have hroot := hdecodes.root (r.bits.take rootBits) (by rw [List.length_take, Nat.min_eq_left hmany])
  simp only [Huffman.Table.symbol, Reader.look_fetch, Reader.look_eq_some r _ hmany, hroot]
  cases hwalk : t.tree.walk (r.bits.take rootBits) with
  | leaf symbol length => rfl
  | vacant => rfl
  | node zero one => exact absurd hwalk (hend zero one)

theorem symbol_eq_of_node (hdecodes : t.Decodes lengths) (hmany : rootBits ≤ r.bits.length)
    {zero one : Huffman.Tree} (hnode : t.tree.walk (r.bits.take rootBits) = .node zero one)
    {width : Nat} (hwidth : rootBits + (Huffman.Tree.node zero one).height = width) :
    t.symbol r = if r.bits.length < width then t.takeLast (r.fetch width) else
      Huffman.Table.take (r.fetch width) ((t.tree.walk (r.bits.take width)).slotAt width) := by
  have hroot := hdecodes.root (r.bits.take rootBits) (by rw [List.length_take, Nat.min_eq_left hmany])
  rw [hnode, Huffman.Tree.slotAt, hwidth] at hroot
  have hfetch : (r.fetch rootBits).fetch width = r.fetch width :=
    Reader.fetch_fetch r (hwidth ▸ Nat.le_add_right _ _)
  simp only [Huffman.Table.symbol, Reader.look_fetch, Reader.look_eq_some r _ hmany, hroot, hfetch]
  rcases Nat.lt_or_ge r.bits.length width with hfew | hwide
  · rw [Reader.look_eq_none r _ hfew, if_pos hfew]
  · rw [Reader.look_eq_some r _ hwide, if_neg (Nat.not_lt.mpr hwide)]
    have hfront : r.bits.take rootBits ++ (r.bits.take width).drop rootBits = r.bits.take width := by
      have hcut : r.bits.take rootBits = (r.bits.take width).take rootBits := by
        rw [List.take_take, Nat.min_eq_left (hwidth ▸ Nat.le_add_right _ _)]
      rw [hcut, List.take_append_drop]
    have hbelow : ((r.bits.take width).drop rootBits).length = width - rootBits := by
      rw [List.length_drop, List.length_take, Nat.min_eq_left hwide]
    have hslot := Huffman.Tree.slot_eq_walk (.node zero one) ((r.bits.take width).drop rootBits) rootBits
    rw [hbelow, Bits.value_drop, ← Nat.shiftRight_eq_div_pow, ← hnode, ← Huffman.Tree.walk_append,
      hfront, Nat.add_sub_cancel' (hwidth ▸ Nat.le_add_right _ _)] at hslot
    rw [hnode] at hslot
    simp only [hslot]

-- The root leads further down.
theorem Holds.symbol_of_deep (h : flat.Holds t lengths) (hg : g.Shows r)
    (hmany : rootBits ≤ r.bits.length) {width stem : Nat} (hdeep : Deep lengths width stem)
    (hstem : codeBits stem rootBits = r.bits.take rootBits) :
    ∃ g', flat.symbol g = .ok ((t.symbol r).1, g') ∧ g'.Shows (t.symbol r).2 := by
  obtain ⟨hdecodes, hentered, _⟩ := h
  obtain ⟨zero, one, hnode, hheight⟩ := hdecodes.walk_of_deep hdeep
  rw [hstem] at hnode
  have hlong := hdeep.long
  have hwidth : width < 16 := Nat.lt_succ_of_le hdeep.short
  have hstart := hdeep.le_start
  have hnegative : ¬0 ≤ startEntry (deepStart lengths width stem) width :=
    Int.not_le.mpr (startEntry_neg (by omega) hwidth)
  obtain ⟨g₁, hpeek₁, hg₁, _⟩ := peek_eq hg (show rootBits ≤ 16 by decide)
  rw [Reader.look_eq_some r _ hmany, ← hstem, Bits.value_codeBits] at hpeek₁
  have hpointer := cell_eq (hentered.pointer width stem hdeep)
  obtain ⟨g₂, hpeek₂, hg₂, hheld₂⟩ := peek_eq hg₁ (show width ≤ 16 by omega)
  rw [Reader.look_fetch] at hpeek₂ hheld₂
  rw [Reader.fetch_fetch r (Nat.le_of_lt hlong)] at hg₂
  have hsymbol := symbol_eq_of_node hdecodes hmany hnode hheight
  unfold FlatTable.symbol
  simp only [hpeek₁, hpointer, if_neg hnegative, neg_startEntry_div _ hwidth, natural_eq,
    low_startEntry _ hwidth, hpeek₂, bind, Except.bind]
  -- What follows the stem, with zeros for what is missing.
  have hplace : ∀ bits : List Bool, bits.length = width → bits.take rootBits = r.bits.take rootBits →
      ∃ entry, cell flat.entries (deepStart lengths width stem + value bits / 512) = .ok entry ∧
        Owned lengths lengths.length bits entry := by
    intro bits hbits hsame
    obtain ⟨entry, hentry, howned⟩ := hentered.below width stem hdeep (bits.drop rootBits)
      (by rw [List.length_drop, hbits])
    rw [hstem, ← hsame, List.take_append_drop] at howned
    rw [Bits.value_drop] at hentry
    exact ⟨entry, cell_eq hentry, howned⟩
  rcases Nat.lt_or_ge r.bits.length width with hfew | hwide
  · rw [if_pos hfew] at hsymbol
    rw [Reader.look_eq_none r _ hfew]
    obtain ⟨hcount, g₃, hpeek₃, hg₃, hheld⟩ := peek_rest (show width ≤ 16 by omega) hg₂ hfew
    have hbits : (r.fetch width).bits = r.bits := Reader.bits_fetch r width
    obtain ⟨entry, hentry, howned⟩ := hplace
      (r.bits ++ List.replicate (width - r.bits.length) false)
      (by rw [List.length_append, List.length_replicate]; omega)
      (List.take_append_of_le_length hmany)
    rw [value_append_zeros] at hentry
    rw [← hbits] at howned
    obtain ⟨g', htake, hshows⟩ := takeLast_eq hdecodes howned hg₃ (by rw [hbits]; exact hheld)
    rw [hbits] at htake
    rw [hsymbol]
    refine ⟨g', ?_, hshows⟩
    simp only [hcount, hpeek₃, Option.getD_some, hentry]
    exact htake
  · rw [if_neg (Nat.not_lt.mpr hwide)] at hsymbol
    rw [Reader.look_eq_some r _ hwide] at hheld₂ ⊢
    have hbits : (r.bits.take width).length = width := by
      rw [List.length_take, Nat.min_eq_left hwide]
    obtain ⟨entry, hentry, howned⟩ := hplace (r.bits.take width) hbits
      (by rw [List.take_take, Nat.min_eq_left (Nat.le_of_lt hlong)])
    obtain ⟨g', htake, hshows⟩ := takeEntry_eq hdecodes howned hg₂
      (by rw [hbits]; exact hheld₂ rfl) width
    rw [hsymbol]
    refine ⟨g', ?_, hshows⟩
    simp only [hentry]
    exact htake

-- Looking a symbol up in the flat table and in the other one comes to the same.
theorem Shows.symbol_eq (h : flat.Shows t) (hg : g.Shows r) :
    ∃ g', flat.symbol g = .ok ((t.symbol r).1, g') ∧ g'.Shows (t.symbol r).2 := by
  obtain ⟨lengths, hholds⟩ := h
  rcases Nat.lt_or_ge r.bits.length rootBits with hfew | hmany
  · exact hholds.symbol_of_few hg hfew
  · have hbits : (r.bits.take rootBits).length = rootBits := by
      rw [List.length_take, Nat.min_eq_left hmany]
    obtain ⟨stem, hlt, hstem, hplace⟩ := exists_stem hbits
    by_cases hflat : ∀ width, ¬Deep lengths width stem
    · obtain ⟨hdecodes, hentered, _⟩ := hholds
      obtain ⟨entry, hentry, howned⟩ := hentered.root stem hlt hflat
      have hend : ∀ zero one, t.tree.walk (r.bits.take rootBits) ≠ .node zero one := by
        intro zero one hnode
        have hcomplete := hdecodes.complete_of_node _ (by rw [hbits]; decide) _ _ hnode
        obtain ⟨width, hdeep⟩ :=
          hdecodes.exists_deep_of_node hcomplete hlt (hstem.symm ▸ hnode)
        exact hflat width hdeep
      obtain ⟨g₁, hpeek₁, hg₁, hheld₁⟩ := peek_eq hg (show rootBits ≤ 16 by decide)
      rw [Reader.look_eq_some r _ hmany] at hpeek₁ hheld₁
      rw [hstem] at howned
      obtain ⟨g', htake, hshows⟩ := takeEntry_eq hdecodes howned hg₁
        (by rw [hbits]; exact hheld₁ rfl) rootBits
      have hpositive : 0 ≤ entry := by
        cases howned with
        | taken symbol => exact symbolEntry_nonneg symbol _
        | free => decide
      rw [symbol_eq_take hdecodes hmany hend]
      refine ⟨g', ?_, hshows⟩
      unfold FlatTable.symbol
      simp only [hpeek₁, ← hplace, cell_eq hentry, if_pos hpositive, bind, Except.bind]
      exact htake
    · obtain ⟨width, hdeep⟩ := Classical.not_forall_not.mp hflat
      exact hholds.symbol_of_deep hg hmany hdeep hstem

end Unpack.Machine.FlatTable
