import Unpack.Proofs.Deflate.Reference.Announcement
import Unpack.Proofs.Zlib.Header

namespace Unpack.Deflate.Reference

open Huffman (Table Complete Degenerate)

-- The lengths let the block end, and those of the literals cross, or those of
-- the distances behind literals that make a code.
def Announcement.Crosses (announced : Announcement) : Prop :=
  (announced.lengths.take announced.literals).getD endOfBlock 0 ≠ 0 ∧
    (Table.Crosses (announced.lengths.take announced.literals) ∨
      Complete (announced.lengths.take announced.literals) ∧
        Table.Crosses (announced.lengths.drop announced.literals))

instance (announced : Announcement) : Decidable announced.Crosses :=
  inferInstanceAs (Decidable (_ ∧ _))

-- Behind whole blocks, or behind none, a dynamic block announces lengths that
-- cross.
inductive MeetsCrossing : State → Prop where
  | here {s t u : State} {head : Nat} {announced : Announcement} (hhead : number 3 s = .ok head t)
      (hdynamic : head / 2 = 2) (hannounced : announcement t = .ok announced u)
      (hcrosses : announced.Crosses) : MeetsCrossing s
  | later {s t : State} (hblock : block s = .ok true t) (hmeets : MeetsCrossing t) : MeetsCrossing s

-- The lengths of some table cross, so that there is no answer.
def Overflows {α : Type} (p : Decoding α) (s : State) : Prop :=
  ∃ t, p s = .error (.fault .overflow) t

instance {α : Type} (p : Decoding α) (s : State) : Decidable (Overflows p s) :=
  match h : p s with
  | .error (.fault fault) t =>
      if hfault : fault = .overflow then
        isTrue ⟨t, hfault ▸ h⟩
      else
        isFalse fun ⟨_, hstop⟩ => hfault (by cases h.symm.trans hstop; rfl)
  | .error .starved _ => isFalse fun ⟨_, hstop⟩ => nomatch h.symm.trans hstop
  | .error (.awaits _) _ => isFalse fun ⟨_, hstop⟩ => nomatch h.symm.trans hstop
  | .ok .. => isFalse fun ⟨_, hstop⟩ => nomatch h.symm.trans hstop

-- No table is built, or none whose lengths can cross.
abbrev Regular {α : Type} (p : Decoding α) : Prop :=
  Stops (· ≠ .overflow) p

section Overflows

variable {α β : Type} {p : Decoding α} {k : α → Decoding β} {s : State}

theorem Stops.regular {kind : Fault → Prop} (h : Stops kind p) (hkind : ¬kind .overflow) :
    Regular p := by
  intro s stop t hstop
  refine (h s stop t hstop).imp_right ?_
  rintro ⟨fault, rfl, hfault⟩
  exact ⟨fault, rfl, fun hoverflow => hkind (hoverflow ▸ hfault)⟩

theorem Stops.not_overflows (h : Regular p) : ¬Overflows p s := by
  rintro ⟨t, hstop⟩
  rcases h s _ t hstop with hstarved | ⟨fault, hfault, hother⟩
  · cases hstarved
  · cases hfault
    exact hother rfl

theorem overflows_bind_iff : Overflows (p >>= k) s ↔
    Overflows p s ∨ ∃ a t, p s = .ok a t ∧ Overflows (k a) t := by
  constructor
  · rintro ⟨u, hstop⟩
    rcases bind_eq_error.mp hstop with hfirst | ⟨a, t, hfirst, hsecond⟩
    · exact Or.inl ⟨u, hfirst⟩
    · exact Or.inr ⟨a, t, hfirst, u, hsecond⟩
  · rintro (⟨u, hfirst⟩ | ⟨a, t, hfirst, u, hsecond⟩)
    · exact ⟨u, bind_eq_error.mpr (Or.inl hfirst)⟩
    · exact ⟨u, bind_eq_error.mpr (Or.inr ⟨a, t, hfirst, hsecond⟩)⟩

theorem Stops.overflows_bind_iff (h : Regular p) :
    Overflows (p >>= k) s ↔ ∃ a t, p s = .ok a t ∧ Overflows (k a) t :=
  Reference.overflows_bind_iff.trans (or_iff_right h.not_overflows)

theorem overflows_bind_regular_iff (h : ∀ a, Regular (k a)) :
    Overflows (p >>= k) s ↔ Overflows p s := by
  refine Reference.overflows_bind_iff.trans (or_iff_left ?_)
  rintro ⟨a, t, -, hlater⟩
  exact (h a).not_overflows hlater

end Overflows

section Regular

theorem regular_corrupted {α : Type} (flaw : Corruption) : Regular (corrupted flaw : Decoding α) :=
  stops_corrupted fun _ => Fault.noConfusion

theorem regular_symbol (code : Code) : Regular (symbol code) := by
  intro s stop t h
  unfold symbol at h
  split at h
  · cases h
  · split at h <;> cases h
    · exact Or.inl rfl
    · exact Or.inr ⟨_, rfl, Fault.noConfusion⟩

theorem regular_emit (byte : UInt8) : Regular (emit byte) :=
  fun _ _ _ h => nomatch h

theorem regular_align : Regular align :=
  fun _ _ _ h => nomatch h

theorem regular_copy (length distance : Nat) : Regular (copy length distance) := by
  intro s stop t h
  unfold copy at h
  split at h <;> cases h
  exact Or.inr ⟨_, rfl, Fault.noConfusion⟩

theorem regular_matchFromLengthBits (distance : Code) (base extra : Nat) :
    Regular (matchFromLengthBits distance base extra) := by
  refine (stops_number extra).bind_all fun more => (regular_symbol distance).bind_all fun symbol => ?_
  split
  · exact (stops_number _).bind_all fun more => regular_copy _ _
  · exact regular_corrupted _

theorem regular_meaning (distance : Code) (symbol : Nat) : Regular (meaning distance symbol) := by
  unfold meaning
  split
  · exact (regular_emit _).bind_all fun _ => .pure _
  split
  · exact .pure _
  split
  · exact (regular_matchFromLengthBits _ _ _).bind_all fun _ => .pure _
  · exact regular_corrupted _

theorem regular_items (literal distance : Code) : Regular (items literal distance) :=
  stops_loop _ (fun _ => ((regular_symbol literal).bind_all fun symbol =>
    regular_meaning distance symbol).bind_all fun _ => .pure _) ()

theorem regular_bytes (count : Nat) : Regular (bytes count) := by
  induction count with
  | zero => exact .pure _
  | succ count ih =>
      exact (stops_number 8).bind_all fun byte => (regular_emit _).bind_all fun _ => ih

theorem regular_storedLength : Regular storedLength := by
  refine (stops_number 16).bind_all fun length => (stops_number 16).bind_all fun complement => ?_
  split
  · exact regular_bytes length
  · exact regular_corrupted _

theorem regular_word (missing : Nat) (value : UInt32) : Regular (word missing value) := by
  induction missing generalizing value with
  | zero => exact .pure _
  | succ missing ih => exact (stops_number 8).bind_all fun byte => ih _

theorem regular_checksum (expected : UInt32) : Regular (checksum expected) := by
  intro s stop t h
  unfold checksum at h
  dsimp only at h
  split at h <;> cases h
  exact Or.inr ⟨_, rfl, Fault.noConfusion⟩

theorem regular_ending (format : Format) : Regular (ending format) := by
  cases format with
  | raw => exact regular_align
  | zlib =>
      exact regular_align.bind_all fun _ => (regular_word 4 0).bind_all fun expected =>
        regular_checksum expected

theorem local_announcement : Local announcement :=
  (local_number 5).bind fun _ => (local_number 5).bind fun _ => (local_number 4).bind fun _ =>
    (local_order _ _).bind fun _ => (local_checked _ _ _).bind fun code =>
      (local_loop _ (local_addNext code _ _) _).bind fun _ => Local.pure _

theorem regular_announcement : Regular announcement :=
  stops_announcement.regular fun h => nomatch h

end Regular

variable {s : State}

-- Lengths that make a code do not cross.
theorem overflows_checked_iff (lengths : List Nat) (lenient : Bool) (name : TableFlaw → TableFlaw) :
    Overflows (checked lengths lenient name) s ↔ Table.Crosses lengths := by
  by_cases hsound : Complete lengths ∨ lenient = true ∧ Degenerate lengths
  · rw [checked, dif_pos hsound]
    exact iff_of_false (by rintro ⟨_, ⟨⟩⟩)
      (Table.not_crosses_of_fits (hsound.elim Complete.fits fun h => h.2.fits))
  rw [checked, dif_neg hsound]
  by_cases hcrosses : Table.Crosses lengths
  · rw [if_pos hcrosses]
    exact iff_of_true ⟨s, rfl⟩ hcrosses
  · rw [if_neg hcrosses]
    exact iff_of_false (by rintro ⟨_, ⟨⟩⟩) hcrosses

theorem overflows_codes_iff (announced : Announcement) :
    Overflows announced.codes s ↔ announced.Crosses := by
  rw [Announcement.codes, checkedPair, Announcement.Crosses]
  by_cases hends : (announced.lengths.take announced.literals).getD endOfBlock 0 = 0
  · rw [if_pos hends]
    exact iff_of_false (by rintro ⟨_, ⟨⟩⟩) fun h => h.1 hends
  rw [if_neg hends, overflows_bind_iff, overflows_checked_iff, and_iff_right hends]
  refine or_congr_right ⟨?_, ?_⟩
  · rintro ⟨code, t, hcode, hlater⟩
    rw [overflows_bind_regular_iff fun _ => .pure _, overflows_checked_iff] at hlater
    exact ⟨(checked_eq_ok hcode).2, hlater⟩
  · rintro ⟨hcomplete, hcrosses⟩
    refine ⟨⟨_, Or.inl hcomplete⟩, s, by rw [checked, dif_pos (Or.inl hcomplete)]; rfl, ?_⟩
    rwa [overflows_bind_regular_iff fun _ => .pure _, overflows_checked_iff]

theorem overflows_content_iff (kind : Nat) : Overflows (content kind) s ↔
    kind = 2 ∧ ∃ announced t, announcement s = .ok announced t ∧ announced.Crosses := by
  unfold content
  split
  · exact iff_of_false (regular_align.bind_all fun _ => regular_storedLength).not_overflows
      fun h => nomatch h.1
  · exact iff_of_false (regular_items _ _).not_overflows fun h => nomatch h.1
  · rw [overflows_bind_regular_iff fun _ => regular_items _ _, dynamicCodes_eq,
      regular_announcement.overflows_bind_iff, and_iff_right rfl]
    simp only [overflows_codes_iff]
  · rename_i hother
    exact iff_of_false (regular_corrupted _).not_overflows fun h => hother h.1

theorem overflows_block_iff : Overflows block s ↔ ∃ head t, number 3 s = .ok head t ∧
    head / 2 = 2 ∧ ∃ announced u, announcement t = .ok announced u ∧ announced.Crosses := by
  rw [block, (stops_number 3 : Regular _).overflows_bind_iff]
  simp only [overflows_bind_regular_iff fun _ => Stops.pure _, overflows_content_iff]

-- Only a dynamic block can be without an answer.
theorem overflows_blocksToEnd_iff (format : Format) :
    Overflows (blocksToEnd format) s ↔ MeetsCrossing s := by
  constructor
  · intro h
    induction hlength : s.bits.length using Nat.strongRecOn generalizing s with
    | ind length ih =>
        rw [blocksToEnd_eq, overflows_bind_iff] at h
        rcases h with hblock | ⟨more, t, hblock, hlater⟩
        · obtain ⟨head, t, hhead, hdynamic, announced, u, hannounced, hcrosses⟩ :=
            overflows_block_iff.mp hblock
          exact .here hhead hdynamic hannounced hcrosses
        · cases more with
          | true => exact .later hblock (ih _ (hlength ▸ takes_block.shorter _ _ _ hblock) hlater rfl)
          | false => exact absurd hlater (regular_ending format).not_overflows
  · intro h
    induction h with
    | here hhead hdynamic hannounced hcrosses =>
        rw [blocksToEnd_eq]
        exact overflows_bind_iff.mpr (Or.inl (overflows_block_iff.mpr
          ⟨_, _, hhead, hdynamic, _, _, hannounced, hcrosses⟩))
    | later hblock hmeets ih =>
        rw [blocksToEnd_eq]
        exact overflows_bind_iff.mpr (Or.inr ⟨true, _, hblock, ih⟩)

theorem MeetsCrossing.shift (h : MeetsCrossing s) (consumed : Nat) :
    MeetsCrossing { s with consumed } := by
  induction h generalizing consumed with
  | here hhead hdynamic hannounced hcrosses =>
      obtain ⟨later, hhead'⟩ := (local_number 3).eq_ok_at hhead consumed
      obtain ⟨_, hannounced'⟩ := local_announcement.eq_ok_at hannounced later
      exact .here hhead' hdynamic hannounced' hcrosses
  | later hblock _ ih =>
      obtain ⟨later, hblock'⟩ := takes_block.isLocal.eq_ok_at hblock consumed
      exact .later hblock' (ih later)

end Unpack.Deflate.Reference

namespace Unpack.Deflate

open Reference
open Zlib (ValidHeader asksDictionary)

-- Decoding raw data behind a preset dictionary meets lengths that cross.
def Crosses (preset data : List UInt8) : Prop :=
  MeetsCrossing (.start preset (Bits.ofBytes data))

-- The same of a stream of either format, as far as it gets without a dictionary.
def Format.Crosses (data : List UInt8) : Format → Prop
  | .raw => Deflate.Crosses [] data
  | .zlib => ∃ first second body, data = first :: second :: body ∧ ValidHeader first second ∧
      asksDictionary second = false ∧ Deflate.Crosses [] body

theorem overflows_iff_crosses (format : Format) (preset data : List UInt8) (consumed : Nat) :
    Overflows (blocksToEnd format) ⟨Bits.ofBytes data, consumed, preset, preset.length⟩ ↔
      Crosses preset data :=
  (overflows_blocksToEnd_iff format).trans ⟨fun h => h.shift 0, fun h => h.shift consumed⟩

instance (preset data : List UInt8) : Decidable (Crosses preset data) :=
  decidable_of_iff _ (overflows_iff_crosses .raw preset data 0)

-- The last two of the thirteen distance lengths of its block bring the points to
-- 131072, of which the mask shows none.
theorem crosses_distances : Crosses [] [0x05, 0xcc, 0x81, 0x81, 0x24, 0x49, 0x10, 0xc4, 0x20, 0xff,
    0xad, 0x06, 0x40, 0x91, 0xd5, 0xb3, 0xf7, 0x0f] := by
  decide +kernel

theorem overflows_stream_iff (format : Format) (data : List UInt8) :
    Overflows (stream format) (.start [] (Bits.ofBytes data)) ↔ format.Crosses data := by
  cases format with
  | raw => exact overflows_iff_crosses .raw [] data 0
  | zlib =>
      have hopens := opens data
      generalize hstream : stream .zlib (.start [] (Bits.ofBytes data)) = result at hopens
      rw [Overflows, hstream]
      cases hopens with
      | short t hlength =>
          refine iff_of_false (fun ⟨_, h⟩ => nomatch h) ?_
          rintro ⟨first, second, body, rfl, -⟩
          rw [List.length_cons, List.length_cons] at hlength
          omega
      | refused first second body hdata hinvalid fault hother t =>
          refine iff_of_false (fun ⟨_, h⟩ => hother (by cases h; rfl)) ?_
          rintro ⟨first', second', body', hdata', hvalid, -⟩
          cases hdata.symm.trans hdata'
          exact absurd hvalid hinvalid
      | blocks first second body hdata hvalid hplain result hresult =>
          rw [hresult]
          refine (overflows_iff_crosses .zlib [] body 16).trans
            ⟨fun hbody => ⟨first, second, body, hdata, hvalid, hplain, hbody⟩, ?_⟩
          rintro ⟨first', second', body', hdata', -, -, hbody⟩
          cases hdata.symm.trans hdata'
          exact hbody
      | shortId first second body hdata hvalid hasks hlength t =>
          refine iff_of_false (fun ⟨_, h⟩ => nomatch h) ?_
          rintro ⟨first', second', body', hdata', -, hplain, -⟩
          cases hdata.symm.trans hdata'
          rw [hasks] at hplain
          cases hplain
      | awaits first second id body hdata hvalid hasks hlength =>
          refine iff_of_false (fun ⟨_, h⟩ => nomatch h) ?_
          rintro ⟨first', second', body', hdata', -, hplain, -⟩
          cases hdata.symm.trans hdata'
          rw [hasks] at hplain
          cases hplain

end Unpack.Deflate
