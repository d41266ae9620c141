import Unpack.Proofs.Machine.FlatTable.Pointers

namespace Unpack.Machine.FlatTable

open Bits (reverse value)
open Huffman (maxLength Fits Complete Degenerate HasCode lengthOf codeBits codeNumber length_code
  length_codeBits)
open Huffman.Table (Layout rootBits Deep deepStart stemsUpTo slotsUpTo)
open Huffman.Tree (firstCode)

theorem symbolEntry_div (symbol : Nat) {length : Nat} (hlength : length < 16) :
    symbolEntry symbol length / 16 = symbol := by
  unfold symbolEntry
  omega

theorem low_symbolEntry (symbol : Nat) {length : Nat} (hlength : length < 16) :
    low (symbolEntry symbol length) = length := by
  unfold low symbolEntry
  omega

theorem symbolEntry_nonneg (symbol length : Nat) : 0 ≤ symbolEntry symbol length := by
  unfold symbolEntry
  omega

theorem neg_startEntry_div (start : Nat) {width : Nat} (hwidth : width < 16) :
    -(startEntry start width / 16) = start := by
  unfold startEntry
  omega

theorem low_startEntry (start : Nat) {width : Nat} (hwidth : width < 16) :
    low (startEntry start width) = width := by
  unfold low startEntry
  omega

theorem startEntry_neg {start width : Nat} (hstart : 0 < start) (hwidth : width < 16) :
    startEntry start width < 0 := by
  unfold startEntry
  omega

-- The places of all numbers from `code` on that end like it are set.
theorem spread_eq (place : Nat → Nat) (entry : Int) (length limit : Nat) (entries : Array Int)
    (code : Nat) (hplaces : ∀ number, code ≤ number → number < limit →
      number % 2 ^ length = code % 2 ^ length → place number < entries.size) :
    ∃ entries', spread place entry length limit entries code = .ok entries' ∧
      entries'.size = entries.size ∧
      (∀ number, code ≤ number → number < limit → number % 2 ^ length = code % 2 ^ length →
        entries'[place number]? = some entry) ∧
      ∀ other, (∀ number, code ≤ number → number < limit →
        number % 2 ^ length = code % 2 ^ length → other ≠ place number) →
          entries'[other]? = entries[other]? := by
  have hpositive := Nat.two_pow_pos length
  unfold spread
  rw [Nat.one_shiftLeft]
  split
  · rename_i hbelow
    have hinside := hplaces code (Nat.le_refl _) hbelow rfl
    -- The next number is the next one with this end.
    have hnext : ∀ number, code ≤ number → number % 2 ^ length = code % 2 ^ length →
        number = code ∨ code + 2 ^ length ≤ number := by
      intro number hle hend
      rcases Nat.lt_or_ge number (code + 2 ^ length) with hlt | hge
      · left
        have hdivided := Nat.sub_mod_eq_zero_of_mod_eq hend
        rw [Nat.mod_eq_of_lt (by omega)] at hdivided
        omega
      · exact .inr hge
    have hstep : (code + 2 ^ length) % 2 ^ length = code % 2 ^ length := Nat.add_mod_right _ _
    obtain ⟨entries', hspread, hsize, hset, hkept⟩ := spread_eq place entry length limit
      (entries.set (place code) entry hinside) (code + 2 ^ length) fun number hle hlt hend => by
        rw [Array.size_set]
        exact hplaces number (Nat.le_trans (Nat.le_add_right _ _) hle) hlt (hend.trans hstep)
    rw [hstep] at hset hkept
    rw [put_eq hinside]
    refine ⟨entries', hspread, by rw [hsize, Array.size_set], fun number hle hlt hend => ?_,
      fun other hothers => ?_⟩
    · by_cases hagain : ∃ later, code + 2 ^ length ≤ later ∧ later < limit ∧
          later % 2 ^ length = code % 2 ^ length ∧ place number = place later
      · obtain ⟨later, hfar, hless, hsame, hplace⟩ := hagain
        rw [hplace]
        exact hset later hfar hless hsame
      · have hfirst : number = code := (hnext number hle hend).resolve_right fun hfar =>
          hagain ⟨number, hfar, hlt, hend, rfl⟩
        rw [hkept _ fun later hfar hless hsame hplace => hagain ⟨later, hfar, hless, hsame, hplace⟩,
          hfirst, Array.getElem?_set_self]
    · rw [hkept other fun later hfar hless hsame =>
        hothers later (Nat.le_trans (Nat.le_add_right _ _) hfar) hless hsame,
        Array.getElem?_set_ne _ (hothers code (Nat.le_refl _) hbelow rfl).symm]
  · rename_i habove
    exact ⟨entries, rfl, rfl, fun number hle hlt => absurd (Nat.lt_of_le_of_lt hle hlt) habove,
      fun other _ => rfl⟩
termination_by limit - code
decreasing_by
  have := Nat.two_pow_pos length
  omega

-- The symbol, if it is one of the first ones, whose code begins the bits.
inductive Owned (lengths : List Nat) (count : Nat) (bits : List Bool) : Int → Prop where
  | taken (symbol : Nat) (hlt : symbol < count) (hcode : HasCode lengths symbol)
      (hstarts : Huffman.code lengths symbol <+: bits) :
      Owned lengths count bits (symbolEntry symbol (lengthOf lengths symbol))
  | free (hnone : ∀ symbol < count, HasCode lengths symbol →
      ¬Huffman.code lengths symbol <+: bits) : Owned lengths count bits 0

variable {lengths : List Nat} {count : Nat} {bits : List Bool}

theorem Owned.skip {entry : Int} (h : Owned lengths count bits entry)
    (hother : HasCode lengths count → ¬Huffman.code lengths count <+: bits) :
    Owned lengths (count + 1) bits entry := by
  cases h with
  | taken symbol hlt hcode hstarts => exact .taken symbol (Nat.lt_succ_of_lt hlt) hcode hstarts
  | free hnone =>
      refine .free fun symbol hlt hcode => ?_
      rcases Nat.lt_succ_iff_lt_or_eq.mp hlt with hless | rfl
      · exact hnone symbol hless hcode
      · exact hother hcode

-- The numbers that end like a code are those of bits that begin with it.
theorem value_mod_eq_value_iff {front : List Bool} (hlength : front.length ≤ bits.length) :
    value bits % 2 ^ front.length = value front ↔ front <+: bits := by
  rw [← Bits.value_take, List.prefix_iff_eq_take]
  constructor
  · intro hvalue
    exact (Bits.value_injective (by rw [List.length_take, Nat.min_eq_left hlength]) hvalue).symm
  · intro hfront
    rw [← hfront]

theorem spread_code_eq (place : Nat → Nat) (entry : Int) (limit : Nat) (entries : Array Int)
    (code : List Bool) (hplaces : ∀ number < limit, place number < entries.size) :
    ∃ entries', spread place entry code.length limit entries (value code) = .ok entries' ∧
      entries'.size = entries.size ∧
      (∀ number < limit, number % 2 ^ code.length = value code →
        entries'[place number]? = some entry) ∧
      ∀ other, (∀ number < limit, number % 2 ^ code.length = value code → other ≠ place number) →
        entries'[other]? = entries[other]? := by
  have hend : value code % 2 ^ code.length = value code := Nat.mod_eq_of_lt (Bits.value_lt code)
  obtain ⟨entries', hspread, hsize, hset, hkept⟩ := spread_eq place entry code.length limit entries
    (value code) fun number _ hlt _ => hplaces number hlt
  refine ⟨entries', hspread, hsize, fun number hlt hsame => ?_, fun other hothers => ?_⟩
  · exact hset number (hsame ▸ Nat.mod_le number _) hlt (hsame.trans hend.symm)
  · exact hkept other fun number _ hlt hsame => hothers number hlt (hsame.trans hend)

-- Numbers that end like a code all end like its stem.
theorem mod_root_of_mod_eq {stem number : Nat} {code : List Bool}
    (hstem : codeBits stem rootBits <+: code) (hsame : number % 2 ^ code.length = value code) :
    number % 512 = reverse rootBits stem := by
  have hlong := hstem.length_le
  have hfront := List.prefix_iff_eq_take.mp hstem
  rw [length_codeBits] at hlong hfront
  rw [← Bits.value_codeBits, hfront, Bits.value_take, ← hsame,
    Nat.mod_mod_of_dvd _ (Nat.pow_dvd_pow 2 hlong)]
  rfl

theorem value_codeBits_append (stem : Nat) (more : List Bool) :
    value (codeBits stem rootBits ++ more) = reverse rootBits stem + 512 * value more := by
  rw [Bits.value_append, Bits.value_codeBits, length_codeBits]
  rfl

-- Where the next code of each length begins.
structure Counters (lengths : List Nat) (count : Nat) (next : Array UInt32) : Prop where
  size : next.size = maxLength + 1
  points : ∀ length, 0 < length → length ≤ maxLength → next[length]? =
    some (.ofNat ((firstCode lengths length + (lengths.take count).count length) * 2 ^ (16 - length)))

theorem LaidOut.counters {state : Array UInt32 × Layout} (h : LaidOut lengths maxLength state) :
    Counters lengths 0 state.1 := by
  refine ⟨h.size, fun length hpositive hshort => ?_⟩
  obtain ⟨short, rfl⟩ : ∃ short, length = short + 1 := ⟨length - 1, by omega⟩
  rw [h.next short hshort, Huffman.Table.pointsUpTo_eq_firstCode lengths (Nat.le_of_lt hshort),
    List.take_zero, List.count_nil, Nat.add_zero (firstCode _ _),
    show 16 - (short + 1) = 15 - short by omega]

theorem Counters.skip {next : Array UInt32} (h : Counters lengths count next)
    (hzero : ¬HasCode lengths count) : Counters lengths (count + 1) next := by
  refine ⟨h.size, fun length hpositive hshort => ?_⟩
  rw [h.points length hpositive hshort]
  rcases Nat.lt_or_ge count lengths.length with hlt | hge
  · have hused : lengths[count] = 0 := by
      rw [HasCode, Decidable.not_not, lengthOf, List.getD_eq_getElem _ _ hlt] at hzero
      exact hzero
    have hnone : [0].count length = 0 := by
      rw [List.count_singleton, if_neg (by simpa using Nat.ne_of_lt hpositive)]
    rw [List.take_succ_eq_append_getElem hlt, List.count_append, hused, hnone, Nat.add_zero]
  · rw [List.take_of_length_le hge, List.take_of_length_le (Nat.le_succ_of_le hge)]

-- The code of a symbol is handed out, and the next one of its length follows.
theorem Counters.hand {next : Array UInt32} (h : Counters lengths count next) (hfits : Fits lengths)
    (hcode : HasCode lengths count) :
    ∃ points more next', cell next (lengthOf lengths count) = .ok points ∧
      reverse 16 points.toNat = value (Huffman.code lengths count) ∧
      Checked.add points (1 <<< UInt32.ofNat (16 - lengthOf lengths count)) = .ok more ∧
      put next (lengthOf lengths count) more = .ok next' ∧ Counters lengths (count + 1) next' := by
  obtain ⟨length, hlength⟩ : ∃ length, lengthOf lengths count = length := ⟨_, rfl⟩
  have hpositive : 0 < length := by
    rw [← hlength]
    exact Nat.pos_of_ne_zero hcode
  have hshort : length ≤ maxLength := hlength ▸ hfits.1 _ hcode.lengthOf_mem
  have hshort' : length ≤ 15 := hshort
  have hlt := Huffman.codeNumber_lt hfits hcode
  have hinside : length < next.size := by
    rw [h.size]
    omega
  have hnext := h.points length hpositive hshort
  have hnumber : firstCode lengths length + (lengths.take count).count length =
      codeNumber lengths count := by
    rw [codeNumber, hlength]
  rw [hnumber] at hnext
  have hunit : 2 ^ length * 2 ^ (16 - length) = 65536 := by
    rw [← Nat.pow_add, Nat.add_sub_cancel' (by omega)]
  have hmost : (codeNumber lengths count + 1) * 2 ^ (16 - length) ≤ 65536 := by
    rw [← hunit]
    exact Nat.mul_le_mul_right _ (hlength ▸ hlt)
  have hpow := Nat.pow_le_pow_right (show 0 < 2 by decide) (show 16 - length ≤ 16 by omega)
  have hone : (1 : UInt32) <<< UInt32.ofNat (16 - length) = .ofNat (2 ^ (16 - length)) := by
    have hshift := Huffman.Table.ofNat_shiftLeft (show 16 - length < 32 by omega)
      (show 1 * 2 ^ (16 - length) < 2 ^ 32 by omega)
    rwa [Nat.one_mul] at hshift
  rw [Nat.succ_mul] at hmost
  have hadd := Checked.add_ofNat (Nat.lt_of_le_of_lt hmost (by decide))
  have hless : codeNumber lengths count * 2 ^ (16 - length) < 2 ^ 32 :=
    Nat.lt_of_le_of_lt (Nat.le_of_add_right_le hmost) (by decide)
  rw [hlength, hone]
  refine ⟨_, _, _, cell_eq hnext, ?_, hadd, put_eq hinside _, ?_, fun other hother hlow => ?_⟩
  · have hreverse := Bits.reverse_mul_two_pow (16 - length) length (codeNumber lengths count)
    rw [Nat.sub_add_cancel (by omega)] at hreverse
    rw [UInt32.toNat_ofNat_of_lt' hless, hreverse, Huffman.code,
      Bits.value_codeBits, hlength]
  · rw [Array.size_set, h.size]
  · have hindex := hcode.lt_length
    have hused : lengths[count] = length := by
      rw [← hlength, lengthOf, List.getD_eq_getElem _ _ hindex]
    rw [List.take_succ_eq_append_getElem hindex, List.count_append, hused,
      List.count_singleton, Array.getElem?_set]
    by_cases hsame : length = other
    · subst hsame
      rw [if_pos rfl, if_pos (by simp), ← Nat.add_assoc, hnumber, Nat.succ_mul]
    · rw [if_neg hsame, if_neg (by simpa using hsame), Nat.add_zero, h.points other hother hlow]

-- The symbols below `count` are entered, and the stems of longer codes have
-- their pointers.
structure Entered (lengths : List Nat) (count : Nat) (entries : Array Int) : Prop where
  size : entries.size = slotsUpTo lengths maxLength
  root : ∀ stem < 512, (∀ width, ¬Deep lengths width stem) →
    ∃ entry, entries[reverse rootBits stem]? = some entry ∧
      Owned lengths count (codeBits stem rootBits) entry
  pointer : ∀ width stem, Deep lengths width stem →
    entries[reverse rootBits stem]? = some (startEntry (deepStart lengths width stem) width)
  below : ∀ width stem, Deep lengths width stem → ∀ more : List Bool,
    more.length = width - rootBits → ∃ entry,
      entries[deepStart lengths width stem + value more]? = some entry ∧
      Owned lengths count (codeBits stem rootBits ++ more) entry

section Fitting

variable (hfits : Fits lengths)

include hfits

theorem Pointed.entered {state : Array Int × Nat × UInt32} (h : Pointed lengths rootBits state) :
    Entered lengths 0 state.1 := by
  have hnone : ∀ bits, Owned lengths 0 bits 0 := fun bits =>
    .free fun symbol hlt => absurd hlt (Nat.not_lt_zero symbol)
  have hsize : 512 ≤ state.1.size := h.size ▸ Huffman.Table.root_le_slotsUpTo lengths maxLength
  refine ⟨h.size, fun stem hstem hflat => ⟨0, ?_, hnone _⟩,
    fun width stem hdeep => h.pointer width stem hdeep.long hdeep,
    fun width stem hdeep more hmore => ⟨0, ?_, hnone _⟩⟩
  · have hlt : reverse rootBits stem < 512 := Bits.reverse_lt rootBits stem
    refine h.others _ (by omega) fun width other _ hdeep hsame => ?_
    exact hflat width (Bits.reverse_injective hstem (hdeep.stem_lt hfits) hsame ▸ hdeep)
  · have hlt := Bits.value_lt more
    rw [hmore] at hlt
    have hstart := hdeep.le_start
    have hstop := hdeep.start_add_le_slots hfits
    have hsize := h.size
    refine h.others _ (by omega) fun _ other _ _ hsame => ?_
    have hroot : reverse rootBits other < 512 := Bits.reverse_lt rootBits other
    omega

section Below

variable {width stem : Nat} (hdeep : Deep lengths width stem) {code : List Bool}
  (hstem : codeBits stem rootBits <+: code) (hwide : code.length ≤ width) {width' other : Nat}
  (hother : Deep lengths width' other) {more : List Bool} (hmore : more.length = width' - rootBits)

include hdeep hstem hwide hother hmore

-- Bits below a stem that begin with the code are below the stem of the code, and
-- as a number they end like it.
theorem exists_number_of_prefix (hstarts : code <+: codeBits other rootBits ++ more) :
    ∃ number < 2 ^ width, number % 2 ^ code.length = value code ∧
      deepStart lengths width stem + number / 512 = deepStart lengths width' other + value more := by
  have hlong := hother.long
  have hsame : codeBits other rootBits = codeBits stem rootBits :=
    (List.prefix_of_prefix_length_le (List.prefix_append _ _) (hstem.trans hstarts)
      (by simp)).eq_of_length (by simp)
  have hstems := Huffman.codeBits_injective (hother.stem_lt hfits) (hdeep.stem_lt hfits) hsame
  subst hstems
  have hwidths := hother.width_unique hdeep
  subst hwidths
  have hlength : (codeBits other rootBits ++ more).length = width' := by
    rw [List.length_append, length_codeBits, hmore, Nat.add_sub_cancel' (Nat.le_of_lt hlong)]
  have hless := Bits.value_lt (codeBits other rootBits ++ more)
  rw [hlength] at hless
  refine ⟨_, hless, (value_mod_eq_value_iff (hlength ▸ hwide)).mpr hstarts, ?_⟩
  have hroot : reverse rootBits other / 512 = 0 := Nat.div_eq_of_lt (Bits.reverse_lt rootBits other)
  rw [value_codeBits_append, Nat.add_mul_div_left _ _ (by decide), hroot, Nat.zero_add]

-- Other places below a stem are not met.
theorem prefix_of_number {number : Nat} (hlt : number < 2 ^ width)
    (hends : number % 2 ^ code.length = value code)
    (hplace : deepStart lengths width' other + value more =
      deepStart lengths width stem + number / 512) :
    code <+: codeBits other rootBits ++ more := by
  have hlong := hother.long
  have hvalue := Bits.value_lt more
  rw [hmore] at hvalue
  have hstems := hother.stem_eq_of_start_add_eq hfits hdeep hvalue (hdeep.div_lt hlt) hplace
  subst hstems
  have hwidths := hother.width_unique hdeep
  subst hwidths
  have hmores : value more = number / 512 := Nat.add_left_cancel hplace
  rw [← value_mod_eq_value_iff (by
    rw [List.length_append, length_codeBits, hmore]
    omega), value_codeBits_append, ← mod_root_of_mod_eq hstem hends, hmores, Nat.mod_add_div]
  exact hends

end Below

-- A code that the root resolves has its places there.
theorem Entered.spread_root {entries : Array Int} (h : Entered lengths count entries)
    (hcode : HasCode lengths count) (hshort : lengthOf lengths count ≤ rootBits) :
    ∃ entries', spread id (symbolEntry count (lengthOf lengths count)) (lengthOf lengths count) 512
        entries (value (Huffman.code lengths count)) = .ok entries' ∧
      Entered lengths (count + 1) entries' := by
  obtain ⟨code, hname⟩ : ∃ code, Huffman.code lengths count = code := ⟨_, rfl⟩
  have hlength : code.length = lengthOf lengths count := by rw [← hname, length_code]
  rw [hname, ← hlength]
  have hsize : 512 ≤ entries.size := h.size ▸ Huffman.Table.root_le_slotsUpTo lengths maxLength
  obtain ⟨entries', hspread, hsize', hset, hkept⟩ := spread_code_eq id
    (symbolEntry count code.length) 512 entries code fun number hlt => Nat.lt_of_lt_of_le hlt hsize
  have hstem : ∀ stem, value (codeBits stem rootBits) % 2 ^ code.length = value code ↔
      code <+: codeBits stem rootBits := fun stem =>
    value_mod_eq_value_iff (by rw [length_codeBits, hlength]; exact hshort)
  refine ⟨entries', hspread, hsize'.trans h.size, fun stem hlt hflat => ?_,
    fun width stem hdeep => ?_, fun width stem hdeep more hmore => ?_⟩
  · have hroot : reverse rootBits stem < 512 := Bits.reverse_lt rootBits stem
    by_cases hstarts : code <+: codeBits stem rootBits
    · have hnumber := (hstem stem).mpr hstarts
      rw [Bits.value_codeBits] at hnumber
      refine ⟨_, hset _ hroot hnumber, ?_⟩
      rw [hlength]
      exact .taken count (Nat.lt_succ_self count) hcode (hname ▸ hstarts)
    · obtain ⟨entry, hentry, howned⟩ := h.root stem hlt hflat
      refine ⟨entry, ?_, howned.skip fun _ => hname ▸ hstarts⟩
      rw [hkept _ fun number _ hsame hplace => ?_, hentry]
      apply hstarts
      rw [← hstem, Bits.value_codeBits, hplace]
      exact hsame
  · rw [hkept _ fun number _ hsame hplace => ?_, h.pointer width stem hdeep]
    apply hdeep.not_resolved hfits hcode
    rw [hname, ← hstem, Bits.value_codeBits, hplace]
    exact hsame
  · obtain ⟨entry, hentry, howned⟩ := h.below width stem hdeep more hmore
    have hstart := hdeep.le_start
    refine ⟨entry, ?_, howned.skip fun _ hstarts => ?_⟩
    · rw [hkept _ fun number hlt _ hplace => ?_, hentry]
      simp only [id] at hplace
      omega
    · exact hdeep.not_resolved hfits hcode (List.prefix_of_prefix_length_le hstarts
        (List.prefix_append _ _) (by rw [length_code, length_codeBits]; exact hshort))

-- A longer code has its places below its stem.
theorem Entered.spread_below {entries : Array Int} (h : Entered lengths count entries)
    (hcode : HasCode lengths count) (hlong : rootBits < lengthOf lengths count) {width stem : Nat}
    (hdeep : Deep lengths width stem) (hwide : lengthOf lengths count ≤ width)
    (hstem : codeBits stem rootBits <+: Huffman.code lengths count) :
    ∃ entries', spread (fun number => deepStart lengths width stem + number / 512)
        (symbolEntry count (lengthOf lengths count)) (lengthOf lengths count) (2 ^ width) entries
        (value (Huffman.code lengths count)) = .ok entries' ∧
      Entered lengths (count + 1) entries' := by
  obtain ⟨code, hname⟩ : ∃ code, Huffman.code lengths count = code := ⟨_, rfl⟩
  have hlength : code.length = lengthOf lengths count := by rw [← hname, length_code]
  rw [hname, ← hlength]
  rw [hname] at hstem
  rw [← hlength] at hlong hwide
  have hstart := hdeep.le_start
  have hstop := hdeep.start_add_le_slots hfits
  have hsize := h.size
  obtain ⟨entries', hspread, hsize', hset, hkept⟩ :=
    spread_code_eq (fun number => deepStart lengths width stem + number / 512)
      (symbolEntry count code.length) (2 ^ width) entries code fun number hlt => by
        have := hdeep.div_lt hlt
        omega
  have hroot : ∀ stem, reverse rootBits stem < 512 := Bits.reverse_lt rootBits
  refine ⟨entries', hspread, hsize'.trans h.size, fun other hlt hflat => ?_,
    fun width' other hother => ?_, fun width' other hother more hmore => ?_⟩
  · obtain ⟨entry, hentry, howned⟩ := h.root other hlt hflat
    refine ⟨entry, ?_, howned.skip fun _ hstarts => ?_⟩
    · rw [hkept _ fun number _ _ hplace => ?_, hentry]
      have := hroot other
      omega
    · have := hstarts.length_le
      rw [length_codeBits, hname] at this
      omega
  · rw [hkept _ fun number _ _ hplace => ?_, h.pointer width' other hother]
    have := hroot other
    omega
  · by_cases hstarts : code <+: codeBits other rootBits ++ more
    · obtain ⟨number, hless, hends, hplace⟩ :=
        exists_number_of_prefix hfits hdeep hstem hwide hother hmore hstarts
      refine ⟨_, hplace ▸ hset number hless hends, ?_⟩
      rw [hlength]
      exact .taken count (Nat.lt_succ_self count) hcode (hname ▸ hstarts)
    · obtain ⟨entry, hentry, howned⟩ := h.below width' other hother more hmore
      refine ⟨entry, ?_, howned.skip fun _ => hname ▸ hstarts⟩
      rw [hkept _ fun number hlt hends hplace => ?_, hentry]
      exact hstarts (prefix_of_number hfits hdeep hstem hwide hother hmore hlt hends hplace)

end Fitting

end Unpack.Machine.FlatTable
