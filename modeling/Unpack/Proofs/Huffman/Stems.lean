import Unpack.Proofs.Bits.Register
import Unpack.Proofs.Huffman.Lookup

namespace Unpack.Huffman.Table

open Unpack.Huffman.Tree (population firstCode)

variable {lengths : List Nat}

theorem pointsUpTo_eq_firstCode (lengths : List Nat) {length : Nat} (hlength : length ≤ 15) :
    pointsUpTo lengths length = firstCode lengths (length + 1) * 2 ^ (15 - length) := by
  induction length with
  | zero => simp [pointsUpTo_zero, firstCode, population]
  | succ length ih =>
      have hpow : 2 ^ (15 - length) = 2 * 2 ^ (15 - (length + 1)) := by
        rw [← Nat.pow_succ']
        congr 1
        omega
      rw [pointsUpTo_succ, ih (by omega), firstCode_succ lengths (length + 1), ← Nat.add_mul, hpow,
        ← Nat.mul_assoc, Nat.mul_comm _ 2]

theorem pointsUpTo_le_codeSpace (hfits : Fits lengths) (length : Nat) :
    pointsUpTo lengths length ≤ codeSpace := by
  rcases Nat.le_total length maxLength with hle | hle
  · exact Nat.le_trans (pointsUpTo_mono lengths hle)
      (pointsUpTo_maxLength hfits.1 ▸ hfits.2)
  · have hall : pointsUpTo lengths length = (lengths.map points).sum := by
      rw [pointsUpTo, List.filter_eq_self.mpr fun used hused =>
        decide_eq_true (Nat.le_trans (hfits.1 used hused) hle)]
    exact hall ▸ hfits.2

-- The stems that the codes up to a length fill. A stem is nine bits long, so
-- that 128 points begin with it.
def stemsUpTo (lengths : List Nat) (length : Nat) : Nat :=
  pointsUpTo lengths length / 128

theorem stemsUpTo_mono (lengths : List Nat) : Monotone (stemsUpTo lengths) :=
  fun _ _ hle => Nat.div_le_div_right (pointsUpTo_mono lengths hle)

theorem stemsUpTo_le (hfits : Fits lengths) (length : Nat) : stemsUpTo lengths length ≤ 512 :=
  Nat.div_le_div_right (pointsUpTo_le_codeSpace hfits length)

theorem stemsUpTo_maxLength (hcomplete : Complete lengths) : stemsUpTo lengths maxLength = 512 := by
  rw [stemsUpTo, pointsUpTo_maxLength hcomplete.1, hcomplete.2]
  rfl

theorem stemsUpTo_eq (lengths : List Nat) {length : Nat} (hlong : rootBits ≤ length)
    (hshort : length ≤ maxLength) :
    stemsUpTo lengths length = firstCode lengths (length + 1) / 2 ^ (length + 1 - rootBits) := by
  simp only [rootBits, maxLength] at *
  have hpow : 128 = 2 ^ (length + 1 - 9) * 2 ^ (15 - length) := by
    rw [← Nat.pow_add, show length + 1 - 9 + (15 - length) = 7 by omega]
  rw [stemsUpTo, pointsUpTo_eq_firstCode lengths hshort, hpow,
    Nat.mul_div_mul_right _ _ (Nat.two_pow_pos _)]

-- A stem that codes of more than nine bits begin with, the longest of them
-- `width` bits long.
structure Deep (lengths : List Nat) (width stem : Nat) : Prop where
  long : rootBits < width
  short : width ≤ maxLength
  after : stemsUpTo lengths (width - 1) ≤ stem
  before : stem < stemsUpTo lengths width

namespace Deep

variable {width stem : Nat}

theorem stem_lt (h : Deep lengths width stem) (hfits : Fits lengths) : stem < 512 :=
  Nat.lt_of_lt_of_le h.before (stemsUpTo_le hfits width)

theorem width_unique (h : Deep lengths width stem) {other : Nat} (hother : Deep lengths other stem) :
    width = other := by
  have hapart : ∀ {narrow wide}, Deep lengths narrow stem → Deep lengths wide stem →
      ¬narrow < wide := by
    intro narrow wide hnarrow hwide hlt
    have := stemsUpTo_mono lengths (Nat.le_sub_one_of_lt hlt)
    have := hnarrow.before
    have := hwide.after
    omega
  exact Nat.le_antisymm (Nat.le_of_not_lt (hapart hother h)) (Nat.le_of_not_lt (hapart h hother))

-- The codes of `width` bits go on from the shorter ones into this stem.
theorem exists_code (h : Deep lengths width stem) :
    ∃ symbol, HasCode lengths symbol ∧ lengthOf lengths symbol = width ∧
      codeBits stem rootBits <+: code lengths symbol := by
  obtain ⟨hlong, hshort, hafter, hbefore⟩ := h
  obtain ⟨length, rfl⟩ : ∃ length, width = length + 1 := ⟨width - 1, by omega⟩
  rw [Nat.add_sub_cancel, stemsUpTo_eq lengths (Nat.le_of_lt_succ hlong) (by omega)] at hafter
  have hdouble : stemsUpTo lengths (length + 1) =
      (firstCode lengths (length + 1) + population lengths (length + 1)) /
        2 ^ (length + 1 - rootBits) := by
    rw [stemsUpTo_eq lengths (Nat.le_of_lt hlong) hshort, firstCode_succ, Nat.succ_sub
      (Nat.le_of_lt hlong), Nat.pow_succ', Nat.mul_div_mul_left _ _ (by decide)]
  rw [hdouble] at hbefore
  obtain ⟨unit, hunit⟩ : ∃ unit, 2 ^ (length + 1 - rootBits) = unit := ⟨_, rfl⟩
  have hpositive : 0 < unit := hunit ▸ Nat.two_pow_pos _
  rw [hunit] at hafter hbefore
  have hfirst := (Nat.div_lt_iff_lt_mul hpositive).mp (Nat.lt_succ_of_le hafter)
  have hlast := (Nat.le_div_iff_mul_le hpositive).mp hbefore
  rw [Nat.succ_mul] at hfirst hlast
  -- The first code of this length that is not below the stem.
  obtain ⟨number, hnumber⟩ :
      ∃ number, max (firstCode lengths (length + 1)) (stem * unit) = number := ⟨_, rfl⟩
  have hstem : number / unit = stem := by
    apply Nat.div_eq_of_lt_le
    · omega
    · rw [Nat.succ_mul]
      omega
  have hindex : number - firstCode lengths (length + 1) < lengths.count (length + 1) := by
    have hpopulation : population lengths (length + 1) = lengths.count (length + 1) :=
      population_of_ne_zero lengths (Nat.succ_ne_zero length)
    omega
  obtain ⟨symbol, _, hsame, hsymbols⟩ := exists_symbol_of_lt_count lengths _ _ hindex
  have hcode : codeNumber lengths symbol = number := by
    rw [codeNumber, hsame, hsymbols]
    omega
  refine ⟨symbol, by rw [HasCode, hsame]; omega, hsame, ?_⟩
  rw [code, hsame, hcode, ← hstem, ← hunit]
  exact codeBits_prefix number (length + 1) rootBits (Nat.le_of_lt hlong)

end Deep

-- Somewhere on the way up the value is passed.
theorem exists_passed {f : Nat → Nat} {low more value : Nat} (hlow : f low ≤ value)
    (hhigh : value < f (low + more)) :
    ∃ place, low < place ∧ place ≤ low + more ∧ f (place - 1) ≤ value ∧ value < f place := by
  induction more with
  | zero => exact absurd hhigh (Nat.not_lt_of_le hlow)
  | succ more ih =>
      rcases Nat.lt_or_ge value (f (low + more)) with hbelow | habove
      · obtain ⟨place, hafter, hbefore, hpassed⟩ := ih hbelow
        exact ⟨place, hafter, by omega, hpassed⟩
      · exact ⟨low + more + 1, by omega, Nat.le_refl _, habove, hhigh⟩

theorem exists_deep (hcomplete : Complete lengths) {symbol : Nat} (hcode : HasCode lengths symbol)
    (hlong : rootBits < lengthOf lengths symbol) :
    ∃ width, lengthOf lengths symbol ≤ width ∧
      Deep lengths width (codeNumber lengths symbol / 2 ^ (lengthOf lengths symbol - rootBits)) := by
  have hshort := hcomplete.1 _ hcode.lengthOf_mem
  have hlt := codeNumber_lt hcomplete.fits hcode
  obtain ⟨length, hlength⟩ : ∃ length, lengthOf lengths symbol = length + 1 :=
    ⟨lengthOf lengths symbol - 1, by omega⟩
  obtain ⟨stem, hstem⟩ : ∃ stem, codeNumber lengths symbol /
      2 ^ (lengthOf lengths symbol - rootBits) = stem := ⟨_, rfl⟩
  rw [hstem]
  rw [hlength] at hlong hshort hlt hstem ⊢
  have hafter : stemsUpTo lengths length ≤ stem := by
    rw [stemsUpTo_eq lengths (Nat.le_of_lt_succ hlong) (by omega), ← hstem, codeNumber, hlength]
    exact Nat.div_le_div_right (Nat.le_add_right _ _)
  have hbefore : stem < stemsUpTo lengths (length + (maxLength - length)) := by
    have hhalf : 2 ^ (length + 1) = 512 * 2 ^ (length + 1 - rootBits) := by
      simp only [rootBits] at *
      rw [show 512 = 2 ^ 9 from rfl, ← Nat.pow_add]
      congr 1
      omega
    rw [Nat.add_sub_cancel' (by omega), stemsUpTo_maxLength hcomplete, ← hstem,
      Nat.div_lt_iff_lt_mul (Nat.two_pow_pos _), ← hhalf]
    exact hlt
  obtain ⟨width, hwide, hfar, hpassed⟩ := exists_passed hafter hbefore
  exact ⟨width, hwide, by omega, by omega, hpassed.1, hpassed.2⟩

theorem codeBits_stem_prefix_code (symbol : Nat)
    (hlong : rootBits ≤ lengthOf lengths symbol) :
    codeBits (codeNumber lengths symbol / 2 ^ (lengthOf lengths symbol - rootBits)) rootBits <+:
      code lengths symbol :=
  codeBits_prefix _ _ _ hlong

-- No code that begins with the stem is longer than its width.
theorem Deep.lengthOf_le {width stem : Nat} (h : Deep lengths width stem)
    (hcomplete : Complete lengths) {symbol : Nat} (hcode : HasCode lengths symbol)
    (hstarts : codeBits stem rootBits <+: code lengths symbol) :
    lengthOf lengths symbol ≤ width := by
  rcases Nat.lt_or_ge rootBits (lengthOf lengths symbol) with hlong | hshort
  · obtain ⟨other, hle, hdeep⟩ := exists_deep hcomplete hcode hlong
    have hsame : codeBits stem rootBits = codeBits
        (codeNumber lengths symbol / 2 ^ (lengthOf lengths symbol - rootBits)) rootBits :=
      (List.prefix_of_prefix_length_le hstarts
        (codeBits_stem_prefix_code symbol (Nat.le_of_lt hlong)) (by simp)).eq_of_length (by simp)
    rw [← codeBits_injective (h.stem_lt hcomplete.fits) (hdeep.stem_lt hcomplete.fits) hsame]
      at hdeep
    exact h.width_unique hdeep ▸ hle
  · exact Nat.le_trans hshort (Nat.le_of_lt h.long)

-- A stem is either resolved or deep.
theorem Deep.not_resolved {width stem : Nat} (h : Deep lengths width stem) (hfits : Fits lengths)
    {symbol : Nat} (hcode : HasCode lengths symbol) :
    ¬code lengths symbol <+: codeBits stem rootBits := by
  intro hstarts
  obtain ⟨other, hother, hlength, hbegins⟩ := h.exists_code
  have hle := hstarts.length_le
  rw [length_code, length_codeBits] at hle
  have hlong := h.long
  have hsame := code_prefix_injective hfits hcode hother (by omega) (hstarts.trans hbegins)
  rw [hsame] at hle
  omega

section Slots

-- Where the first codes of a stem below the root are looked up. Wider stems
-- have their places before narrower ones.
def deepStart (lengths : List Nat) (width stem : Nat) : Nat :=
  512 + slotsUpTo lengths maxLength - slotsUpTo lengths width +
    (stem - stemsUpTo lengths (width - 1)) * 2 ^ (width - rootBits)

theorem slotsUpTo_mono (lengths : List Nat) : Monotone (slotsUpTo lengths) :=
  monotone_nat_of_le_succ fun _ => Nat.le_add_right _ _

theorem root_le_slotsUpTo (lengths : List Nat) (length : Nat) : 512 ≤ slotsUpTo lengths length :=
  slotsUpTo_mono lengths (Nat.zero_le length)

variable {width stem : Nat}

-- The bits behind the root lead to one of the places of the stem.
theorem Deep.div_lt (h : Deep lengths width stem) {number : Nat} (hlt : number < 2 ^ width) :
    number / 512 < 2 ^ (width - rootBits) := by
  have hunits : 2 ^ width = 512 * 2 ^ (width - rootBits) := by
    rw [show 512 = 2 ^ rootBits from rfl, ← Nat.pow_add, Nat.add_sub_cancel' (Nat.le_of_lt h.long)]
  rw [hunits] at hlt
  exact Nat.div_lt_of_lt_mul hlt

theorem Deep.le_start (h : Deep lengths width stem) : 512 ≤ deepStart lengths width stem := by
  have := slotsUpTo_mono lengths h.short
  rw [deepStart]
  omega

variable (hfits : Fits lengths)

include hfits

-- Points that fit are shown in full.
theorem maskedStem_pointsUpTo (length : Nat) :
    maskedStem (pointsUpTo lengths length) = stemsUpTo lengths length := by
  have hle := pointsUpTo_le_codeSpace hfits length
  simp only [codeSpace] at hle
  rw [maskedStem, Nat.mod_eq_of_lt (by omega), stemsUpTo]

theorem slotsUpTo_succ {length : Nat} (hlong : rootBits ≤ length) :
    slotsUpTo lengths (length + 1) = slotsUpTo lengths length +
      (stemsUpTo lengths (length + 1) - stemsUpTo lengths length) * 2 ^ (length + 1 - rootBits) := by
  rw [slotsUpTo, if_pos hlong, maskedStem_pointsUpTo hfits, maskedStem_pointsUpTo hfits]

-- The places of a stem are between those of wider and of narrower ones.
theorem Deep.start_add_le (h : Deep lengths width stem) :
    deepStart lengths width stem + 2 ^ (width - rootBits) ≤
      512 + slotsUpTo lengths maxLength - slotsUpTo lengths (width - 1) := by
  obtain ⟨hlong, hshort, hafter, hbefore⟩ := h
  obtain ⟨length, rfl⟩ : ∃ length, width = length + 1 := ⟨width - 1, by omega⟩
  rw [Nat.add_sub_cancel] at hafter ⊢
  have hslots := slotsUpTo_succ hfits (Nat.le_of_lt_succ hlong)
  have hmono := slotsUpTo_mono lengths hshort
  have hunits : (stem - stemsUpTo lengths length) * 2 ^ (length + 1 - rootBits) +
      2 ^ (length + 1 - rootBits) ≤
        (stemsUpTo lengths (length + 1) - stemsUpTo lengths length) * 2 ^ (length + 1 - rootBits) := by
    rw [← Nat.succ_mul]
    exact Nat.mul_le_mul_right _ (by omega)
  rw [deepStart, Nat.add_sub_cancel]
  omega

theorem Deep.start_add_le_slots (h : Deep lengths width stem) :
    deepStart lengths width stem + 2 ^ (width - rootBits) ≤ slotsUpTo lengths maxLength := by
  have hle := h.start_add_le hfits
  have hroot := root_le_slotsUpTo lengths (width - 1)
  omega

-- Different stems have different places.
theorem Deep.stem_eq_of_start_add_eq (h : Deep lengths width stem) {other more i j : Nat}
    (hother : Deep lengths more other) (hi : i < 2 ^ (width - rootBits))
    (hj : j < 2 ^ (more - rootBits))
    (hsame : deepStart lengths width stem + i = deepStart lengths more other + j) :
    stem = other := by
  have hnarrow : ∀ {wide narrow left right k l}, Deep lengths wide left →
      Deep lengths narrow right → k < 2 ^ (wide - rootBits) → narrow < wide →
        deepStart lengths wide left + k < deepStart lengths narrow right + l := by
    intro wide narrow left right k l hwide hnarrow hk hlt
    have := hwide.start_add_le hfits
    have := slotsUpTo_mono lengths (Nat.le_sub_one_of_lt hlt)
    have := slotsUpTo_mono lengths hnarrow.short
    simp only [deepStart] at *
    omega
  have hordered : ∀ {left right k l}, Deep lengths width left → Deep lengths width right →
      k < 2 ^ (width - rootBits) → left < right →
        deepStart lengths width left + k < deepStart lengths width right + l := by
    intro left right k l hleft hright hk hlt
    have := hleft.after
    have hunits : (left - stemsUpTo lengths (width - 1)) * 2 ^ (width - rootBits) +
        2 ^ (width - rootBits) ≤
          (right - stemsUpTo lengths (width - 1)) * 2 ^ (width - rootBits) := by
      rw [← Nat.succ_mul]
      exact Nat.mul_le_mul_right _ (by omega)
    simp only [deepStart]
    omega
  rcases Nat.lt_trichotomy width more with hless | rfl | hmore
  · exact absurd hsame (Nat.ne_of_gt (hnarrow hother h hj hless))
  · rcases Nat.lt_trichotomy stem other with hbefore | hequal | hafter
    · exact absurd hsame (Nat.ne_of_lt (hordered h hother hi hbefore))
    · exact hequal
    · exact absurd hsame (Nat.ne_of_gt (hordered hother h hj hafter))
  · exact absurd hsame (Nat.ne_of_lt (hnarrow h hother hi hmore))

end Slots

-- A tree has a place with more below it at every depth short of its height.
theorem exists_walk_eq_node (tree : Tree) {count : Nat} (hcount : count < tree.height) :
    ∃ bits : List Bool, bits.length = count ∧ ∃ zero one, tree.walk bits = .node zero one := by
  induction tree generalizing count with
  | vacant => exact absurd hcount (Nat.not_lt_zero count)
  | leaf => exact absurd hcount (Nat.not_lt_zero count)
  | node zero one ihzero ihone =>
      cases count with
      | zero => exact ⟨[], rfl, zero, one, rfl⟩
      | succ count =>
          rw [Tree.height] at hcount
          rcases Nat.lt_or_ge count zero.height with hbelow | habove
          · obtain ⟨bits, hbits, hnode⟩ := ihzero hbelow
            exact ⟨false :: bits, congrArg Nat.succ hbits, hnode⟩
          · obtain ⟨bits, hbits, hnode⟩ := ihone (show count < one.height by omega)
            exact ⟨true :: bits, congrArg Nat.succ hbits, hnode⟩

section Walking

variable {t : Table} {symbol length : Nat} {bits : List Bool}

theorem Decodes.walk_eq_leaf_iff (h : t.Decodes lengths) : t.tree.walk bits = .leaf symbol length ↔
    HasCode lengths symbol ∧ length = lengthOf lengths symbol ∧ Huffman.code lengths symbol <+: bits := by
  rw [← Tree.find_eq_some_iff, h.find]

theorem Decodes.walk_eq_node (h : t.Decodes lengths) (hcomplete : Complete lengths)
    (hopen : ∀ symbol, HasCode lengths symbol → ¬Huffman.code lengths symbol <+: bits) :
    ∃ zero one, t.tree.walk bits = .node zero one := by
  cases hwalk : t.tree.walk bits with
  | vacant => exact absurd hwalk (h.walk_ne_vacant hcomplete bits)
  | leaf symbol length =>
      obtain ⟨hcode, _, hstarts⟩ := h.walk_eq_leaf_iff.mp hwalk
      exact absurd hstarts (hopen symbol hcode)
  | node zero one => exact ⟨zero, one, rfl⟩

-- Under a place with more below it there is a longer code.
theorem Decodes.exists_code_of_node (h : t.Decodes lengths) (hcomplete : Complete lengths)
    {zero one : Tree} (hnode : t.tree.walk bits = .node zero one) :
    ∃ symbol, HasCode lengths symbol ∧ bits.length < lengthOf lengths symbol ∧
      bits <+: Huffman.code lengths symbol := by
  obtain ⟨symbol, hcode, hstarts⟩ :=
    hcomplete.exists_code (bits ++ List.replicate maxLength false) (by simp)
  have hlong : ¬Huffman.code lengths symbol <+: bits := by
    intro hshort
    rw [h.walk_eq_leaf_iff.mpr ⟨hcode, rfl, hshort⟩] at hnode
    cases hnode
  have hfront := List.prefix_append bits (List.replicate maxLength false)
  rcases Nat.lt_or_ge bits.length (lengthOf lengths symbol) with hlt | hge
  · exact ⟨symbol, hcode, hlt,
      List.prefix_of_prefix_length_le hfront hstarts (by rw [length_code]; omega)⟩
  · exact absurd (List.prefix_of_prefix_length_le hstarts hfront (by rw [length_code]; omega)) hlong

-- A place of the root with more below it belongs to a deep stem.
theorem Decodes.exists_deep_of_node (h : t.Decodes lengths) (hcomplete : Complete lengths)
    {stem : Nat} (hstem : stem < 512) {zero one : Tree}
    (hnode : t.tree.walk (codeBits stem rootBits) = .node zero one) :
    ∃ width, Deep lengths width stem := by
  obtain ⟨symbol, hcode, hlong, hstarts⟩ := h.exists_code_of_node hcomplete hnode
  rw [length_codeBits] at hlong
  obtain ⟨width, _, hdeep⟩ := exists_deep hcomplete hcode hlong
  have hsame : codeBits stem rootBits = codeBits
      (codeNumber lengths symbol / 2 ^ (lengthOf lengths symbol - rootBits)) rootBits :=
    (List.prefix_of_prefix_length_le hstarts
      (codeBits_stem_prefix_code symbol (Nat.le_of_lt hlong)) (by simp)).eq_of_length (by simp)
  rw [← codeBits_injective hstem (hdeep.stem_lt hcomplete.fits) hsame] at hdeep
  exact ⟨width, hdeep⟩

theorem Decodes.complete_of_deep (h : t.Decodes lengths) {width stem : Nat}
    (hdeep : Deep lengths width stem) : Complete lengths := by
  rcases h.code with hcomplete | hdegenerate
  · exact hcomplete
  · obtain ⟨symbol, hcode, hlength, _⟩ := hdeep.exists_code
    have := hdegenerate.le_one _ hcode.lengthOf_mem
    have hlong := hdeep.long
    simp only [rootBits] at hlong
    omega

-- A deep stem leads to a place as high as its codes are long.
theorem Decodes.walk_of_deep (h : t.Decodes lengths) {width stem : Nat}
    (hdeep : Deep lengths width stem) :
    ∃ zero one, t.tree.walk (codeBits stem rootBits) = .node zero one ∧
      rootBits + (Tree.node zero one).height = width := by
  have hcomplete := h.complete_of_deep hdeep
  have hlong := hdeep.long
  obtain ⟨zero, one, hnode⟩ := h.walk_eq_node hcomplete fun symbol hcode =>
    hdeep.not_resolved hcomplete.fits hcode
  refine ⟨zero, one, hnode, Nat.le_antisymm (Nat.le_of_not_lt fun hhigh => ?_) ?_⟩
  · obtain ⟨below, hbelow, left, right, hwalk⟩ :=
      exists_walk_eq_node (.node zero one) (show width - rootBits < _ by omega)
    rw [← hnode, ← Tree.walk_append] at hwalk
    obtain ⟨symbol, hcode, hlength, hstarts⟩ := h.exists_code_of_node hcomplete hwalk
    have hle := hdeep.lengthOf_le hcomplete hcode ((List.prefix_append _ _).trans hstarts)
    rw [List.length_append, length_codeBits, hbelow] at hlength
    omega
  · obtain ⟨symbol, hcode, hlength, hstarts⟩ := hdeep.exists_code
    obtain ⟨front, hfront⟩ : ∃ front, (Huffman.code lengths symbol).take (width - 1) = front := ⟨_, rfl⟩
    have hsize : front.length = width - 1 := by
      rw [← hfront, List.length_take, length_code]
      omega
    have hbegins : front <+: Huffman.code lengths symbol := hfront ▸ List.take_prefix _ _
    obtain ⟨left, right, hwalk⟩ := h.walk_eq_node hcomplete (show ∀ other, HasCode lengths other →
        ¬Huffman.code lengths other <+: front from fun other hother hshort => by
      have hle := hshort.length_le
      rw [length_code, hsize] at hle
      have := code_prefix_injective hcomplete.fits hother hcode (by omega) (hshort.trans hbegins)
      rw [this] at hle
      omega)
    have hstem : codeBits stem rootBits <+: front :=
      List.prefix_of_prefix_length_le hstarts hbegins (by rw [length_codeBits, hsize]; omega)
    obtain ⟨below, hbelow⟩ := hstem
    rw [← hbelow, Tree.walk_append, hnode] at hwalk
    have hheight := Tree.height_walk _ _ _ _ hwalk
    rw [← hbelow, List.length_append, length_codeBits] at hsize
    have hpositive : 0 < (Tree.node left right).height := Nat.succ_pos _
    omega

end Walking

end Unpack.Huffman.Table
