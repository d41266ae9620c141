import Unpack.Proofs.Machine.FlatTable.Entries

namespace Unpack.Machine.FlatTable

open Bits (reverse value)
open Huffman (maxLength Fits Complete Degenerate HasCode lengthOf codeBits codeNumber length_code
  length_codeBits)
open Huffman.Table (Layout rootBits excess? Crosses CrossesBelow isDegenerate codeSpace)

variable {lengths : List Nat}

-- A table that holds the code of another one.
structure Holds (flat : FlatTable) (t : Huffman.Table) (lengths : List Nat) : Prop where
  decodes : t.Decodes lengths
  entered : Entered lengths lengths.length flat.entries
  longest : flat.longest = t.longest

def Shows (flat : FlatTable) (t : Huffman.Table) : Prop :=
  ∃ lengths, flat.Holds t lengths

section Filling

variable (hsymbols : lengths.length ≤ Huffman.Tree.symbolModulus)
  (hcode : Complete lengths ∨ Degenerate lengths)

include hcode

-- A code that the root does not resolve belongs to a code that is complete.
theorem complete_of_long {symbol : Nat} (hused : HasCode lengths symbol)
    (hlong : rootBits < lengthOf lengths symbol) : Complete lengths := by
  rcases hcode with hcomplete | hdegenerate
  · exact hcomplete
  · have := hdegenerate.le_one _ hused.lengthOf_mem
    simp only [rootBits] at hlong
    omega

-- A symbol takes the places of its code.
theorem Entered.place {count : Nat} {entries : Array Int} (h : Entered lengths count entries)
    (hused : HasCode lengths count) :
    ∃ entries', place entries count (lengthOf lengths count) (value (Huffman.code lengths count)) =
        .ok entries' ∧ Entered lengths (count + 1) entries' := by
  have hfits : Fits lengths := hcode.elim Complete.fits Degenerate.fits
  unfold FlatTable.place
  by_cases hshort : lengthOf lengths count ≤ rootBits
  · rw [if_pos hshort]
    exact h.spread_root hfits hused hshort
  · have hlong := Nat.lt_of_not_le hshort
    have hcomplete := complete_of_long hcode hused hlong
    obtain ⟨width, hwide, hdeep⟩ := Huffman.Table.exists_deep hcomplete hused hlong
    have hstem := Huffman.Table.codeBits_stem_prefix_code count (Nat.le_of_lt hlong)
    have hwidth : width < 16 := Nat.lt_succ_of_le hdeep.short
    have hroot : value (Huffman.code lengths count) % 512 = reverse rootBits
        (codeNumber lengths count / 2 ^ (lengthOf lengths count - rootBits)) := by
      have hends := (value_mod_eq_value_iff hstem.length_le).mpr hstem
      rw [length_codeBits, Bits.value_codeBits] at hends
      exact hends
    have hpointer := cell_eq (h.pointer width _ hdeep)
    simp only [if_neg hshort, hroot, hpointer, Nat.one_shiftLeft, neg_startEntry_div _ hwidth,
      low_startEntry _ hwidth, natural_eq, bind, Except.bind]
    exact h.spread_below hfits hused hlong hdeep hwide hstem

theorem enter_eq {count : Nat} (hcount : count < lengths.length) {entries : Array Int}
    {next : Array UInt32} (hentered : Entered lengths count entries)
    (hcounters : Counters lengths count next) :
    ∃ entries' next', enter (entries, next) (lengths[count], count) = .ok (entries', next') ∧
      Entered lengths (count + 1) entries' ∧ Counters lengths (count + 1) next' := by
  have hfits : Fits lengths := hcode.elim Complete.fits Degenerate.fits
  have hlength : lengthOf lengths count = lengths[count] := List.getD_eq_getElem _ _ hcount
  rw [← hlength]
  unfold enter
  by_cases hused : HasCode lengths count
  · obtain ⟨points, more, next', hnext, hreverse, hadd, hput, hcounters'⟩ :=
      hcounters.hand hfits hused
    have hused' : ¬lengthOf lengths count = 0 := hused
    obtain ⟨entries', hplace, hentered'⟩ := hentered.place hcode hused
    refine ⟨entries', next', ?_, hentered', hcounters'⟩
    simp only [if_neg hused', building_of_trapped hnext, hreverse, building_of_trapped hplace,
      building_of_checked hadd, building_of_trapped hput, bind, Except.bind, pure, Except.pure]
  · have hunused : lengthOf lengths count = 0 := Decidable.not_not.mp hused
    refine ⟨entries, next, if_pos hunused, ?_, hcounters.skip hused⟩
    have hskip : ∀ bits, HasCode lengths count → ¬Huffman.code lengths count <+: bits :=
      fun _ h => absurd h hused
    refine ⟨hentered.size, fun stem hstem hflat => ?_, hentered.pointer,
      fun width stem hdeep more hmore => ?_⟩
    · obtain ⟨entry, hentry, howned⟩ := hentered.root stem hstem hflat
      exact ⟨entry, hentry, howned.skip (hskip _)⟩
    · obtain ⟨entry, hentry, howned⟩ := hentered.below width stem hdeep more hmore
      exact ⟨entry, hentry, howned.skip (hskip _)⟩

theorem enter_foldlM {entries : Array Int} {next : Array UInt32}
    (hentered : Entered lengths 0 entries) (hcounters : Counters lengths 0 next) :
    ∃ state, lengths.zipIdx.foldlM enter (entries, next) = .ok state ∧
      Entered lengths lengths.length state.1 := by
  obtain ⟨state, hfold, hlast, _⟩ := exists_foldlM enter lengths.zipIdx (entries, next)
    (fun count state => Entered lengths count state.1 ∧ Counters lengths count state.2)
    ⟨hentered, hcounters⟩ fun count hcount state ⟨hentered, hcounters⟩ => by
      rw [List.length_zipIdx] at hcount
      obtain ⟨entries', next', henter, hentered', hcounters'⟩ :=
        enter_eq hcode hcount hentered hcounters
      refine ⟨(entries', next'), ?_, hentered', hcounters'⟩
      rw [List.getElem_zipIdx, Nat.zero_add]
      exact henter
  rw [List.length_zipIdx] at hlast
  exact ⟨state, hfold, hlast⟩

include hsymbols in
-- A code that is counted and laid out is filled in.
theorem fill_eq {counts : Array UInt32} (hcounts : Counts lengths counts)
    {next : Array UInt32} {layout : Layout} (hlaidOut : LaidOut lengths maxLength (next, layout)) :
    ∃ entries, fill lengths counts next layout = .ok entries ∧
      Entered lengths lengths.length entries := by
  have hfits : Fits lengths := hcode.elim Complete.fits Degenerate.fits
  have hlayout : layout = _ := hlaidOut.layout
  obtain ⟨⟨entries, free, points⟩, hpoint, hpointed⟩ := pointLevel_foldlM hsymbols hfits hcounts
  obtain ⟨⟨entries', next'⟩, henter, hentered⟩ :=
    enter_foldlM hcode (hpointed.entered hfits) hlaidOut.counters
  subst hlayout
  refine ⟨entries', ?_, hentered⟩
  unfold fill
  simp only [hpoint, henter, bind, Except.bind, pure, Except.pure]

end Filling

-- Both tables are built from the same lengths, and refused for the same ones.
theorem build_eq (hsymbols : lengths.length ≤ Huffman.Tree.symbolModulus) (mayDegenerate : Bool) :
    match Huffman.Table.build lengths mayDegenerate with
    | .error fault => build lengths mayDegenerate = .ok (.error fault)
    | .ok t => ∃ flat, build lengths mayDegenerate = .ok (.ok flat) ∧ flat.Shows t := by
  have htally := tally_eq lengths (by rwa [List.length_nil, Nat.zero_add]) 0 0 counts_nil
  cases hexcess : excess? lengths with
  | some entry =>
      have hfind : lengths.zipIdx.find? (fun entry => maxLength < entry.1) = some entry := hexcess
      rw [hfind] at htally
      rw [Huffman.Table.build_of_excess hexcess]
      simp only [build, htally, bind, Except.bind, outcome]
  | none =>
      have hfind : lengths.zipIdx.find? (fun entry => maxLength < entry.1) = none := hexcess
      have hshort := (Huffman.Table.excess?_eq_none_iff lengths).mp hexcess
      rw [hfind] at htally
      obtain ⟨counts, htally, hcounts⟩ := htally
      rw [List.nil_append] at hcounts
      have hlaid := layOut_foldlM hsymbols hcounts (Nat.le_refl maxLength)
      rw [Huffman.Table.build_of_short hsymbols hshort]
      by_cases hcrosses : Crosses lengths
      · rw [if_pos hcrosses]
        rw [if_pos (show CrossesBelow lengths maxLength from hcrosses)] at hlaid
        simp only [build, htally, hlaid, bind, Except.bind, outcome]
      · rw [if_neg hcrosses]
        rw [if_neg (show ¬CrossesBelow lengths maxLength from hcrosses)] at hlaid
        obtain ⟨⟨next, layout⟩, hlayout, hlaidOut⟩ := hlaid
        have hused : layout.points.toNat = (lengths.map Huffman.Table.points).sum := by
          rw [show layout = _ from hlaidOut.layout, UInt32.toNat_ofNat_of_lt'
            (Layout.pointsUpTo_lt hsymbols maxLength), Huffman.Table.pointsUpTo_maxLength hshort]
        have hsingle := isSingle_eq hcounts hsymbols hshort
        have hcode : layout.points.toNat = codeSpace ∨ (mayDegenerate && isDegenerate lengths) = true ↔
            Complete lengths ∨ mayDegenerate = true ∧ Degenerate lengths := by
          rw [hused, Bool.and_eq_true, Huffman.Table.isDegenerate_iff]
          exact or_congr_left ⟨fun hsum => ⟨hshort, hsum⟩, fun hcomplete => hcomplete.2⟩
        simp only [build, htally, hlayout, hsingle, bind, Except.bind, pure, Except.pure]
        by_cases hgood : Complete lengths ∨ mayDegenerate = true ∧ Degenerate lengths
        · obtain ⟨entries, hfill, hentered⟩ :=
            fill_eq hsymbols (hgood.imp_right And.right) hcounts hlaidOut
          rw [if_pos hgood]
          simp only [if_pos (hcode.mpr hgood), hfill, outcome]
          exact ⟨_, rfl, lengths, ⟨hsymbols, hgood.imp_right And.right, rfl⟩, hentered, rfl⟩
        · rw [if_neg hgood]
          simp only [if_neg (fun h => hgood (hcode.mp h))]
          rw [hused, Huffman.Table.imbalance]
          split <;> rfl

end Unpack.Machine.FlatTable
