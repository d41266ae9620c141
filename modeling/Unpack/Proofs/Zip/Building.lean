import Mathlib.Data.List.Forall2
import Unpack.Proofs.Checksum.Crc32
import Unpack.Proofs.Deflate.StoredBlocks
import Unpack.Proofs.Zip.Opening

namespace Unpack.Zip

open Deflate (StoredBlocks)
open Deflate.Reference (inflate)

-- An encoder that starts anew does not fail, and what it makes of data is
-- decoded to them.
theorem encode_inflate (data : ByteArray) :
    ∃ compressed next, StoredBlocks.empty.encode data .finish = (.ok compressed, next) ∧
      inflate [] (Bits.ofBytes compressed.data.toList) = some (data.data.toList, []) := by
  have hencodes := StoredBlocks.ready_empty.encode data .finish
  generalize StoredBlocks.empty.encode data .finish = result at hencodes
  cases hencodes with
  | finish compressed next hcovers hnone hfinished => exact ⟨compressed, next, rfl, hcovers.inflate⟩

-- A file or directory that an archive is to hold.
structure Item where
  name : String
  method : Method
  data : ByteArray
  stamp : Stamp
  deriving DecidableEq

namespace Item

-- The bytes that keep the data in an archive.
def Packs (item : Item) (compressed : ByteArray) : Prop :=
  match item.method with
  | .stored => compressed = item.data
  | .deflated => (StoredBlocks.empty.encode item.data .finish).1 = .ok compressed
  | .unknown _ => False

-- What the directory says of an item.
def entry (item : Item) (compressedSize offset : Nat) : Entry where
  name := item.name
  rawName := none
  method := item.method
  crc := Crc32.of item.data
  compressedSize := compressedSize
  size := item.data.size
  stamp := item.stamp
  flags := if item.name.toList.all (·.toNat < 128) then 0 else Builder.utf8Flag
  extra := ByteArray.empty
  comment := ""
  offset := offset

-- What the 32-bit layout can say of an item.
structure Fits (item : Item) (compressedSize offset : Nat) : Prop where
  name : item.name.utf8ByteSize ≤ 0xFFFF
  size : item.data.size ≤ 0xFFFFFFFF
  compressedSize : compressedSize ≤ 0xFFFFFFFF
  offset : offset ≤ 0xFFFFFFFF

variable {item : Item} {compressed : ByteArray} {offset : Nat}

theorem Packs.unique {other : ByteArray} (h : item.Packs compressed) (hother : item.Packs other) :
    compressed = other := by
  obtain ⟨name, method, data, stamp⟩ := item
  cases method with
  | stored => exact h.trans hother.symm
  | deflated => exact Except.ok.inj (h.symm.trans hother)
  | unknown id => exact h.elim

theorem Fits.recordable (h : item.Fits compressed.size offset) (hpacks : item.Packs compressed) :
    (item.entry compressed.size offset).Recordable where
  name := h.name
  extra := Nat.zero_le _
  comment := Nat.zero_le _
  compressedSize := h.compressedSize
  size := h.size
  offset := h.offset
  method := by
    rw [Packs] at hpacks
    show Method.ofId item.method.id = item.method
    cases hmethod : item.method with
    | stored => rfl
    | deflated => rfl
    | unknown id =>
        rw [hmethod] at hpacks
        exact hpacks.elim
  raw := nofun

end Item

namespace Builder

-- What is asked of a builder before the archive is finished. An encoder comes
-- as its last use left it.
inductive Call where
  | stored (name : String) (data : ByteArray)
  | deflated (name : String) (data : ByteArray)
  | deflatedWith (name : String) (data : ByteArray) (encoder : StoredBlocks)
  | directory (name : String)
  | stamp (seconds : Int)
  | comment (text : String)

def perform (b : Builder) : Call → Except Fault Unit × Builder
  | .stored name data => b.putStored name data
  | .deflated name data => b.putDeflated name data
  | .deflatedWith name data encoder =>
      let (answer, _, b) := b.putEncoded name data encoder
      (answer, b)
  | .directory name => b.putDirectory name
  | .stamp seconds => (.ok (), { b with modified := seconds })
  | .comment text => (.ok (), { b with comment := text })

def afterCalls (calls : List Call) (b : Builder) : Builder :=
  calls.foldl (fun b call => (b.perform call).2) b

-- The item that a call is about.
def Call.item (stamp : Stamp) : Call → Option Item
  | .stored name data => some ⟨name, .stored, data, stamp⟩
  | .deflated name data => some ⟨name, .deflated, data, stamp⟩
  | .deflatedWith name data _ => some ⟨name, .deflated, data, stamp⟩
  | .directory name =>
      let name := if name.toList.getLast? = some '/' then name else name.push '/'
      some ⟨name, .stored, ByteArray.empty, stamp⟩
  | .stamp _ => none
  | .comment _ => none

-- The items of the calls that succeed, in their order.
def additions : List Call → Builder → List Item
  | [], _ => []
  | call :: calls, b =>
      match b.perform call with
      | (.error _, b) => additions calls b
      | (.ok (), next) => (call.item (.ofSeconds b.modified)).toList ++ additions calls next

-- An item without a name, or one that is beyond the 32-bit layout.
def Refuses (b : Builder) (item : Item) : Prop :=
  item.name = "" ∨ ∃ compressed, item.Packs compressed ∧ ¬item.Fits compressed.size b.out.size

-- What adding an item comes to. Nothing is left of an item that is refused.
inductive Adds (b : Builder) (item : Item) : Except Fault Unit × Builder → Prop where
  | refused (fault : Fault) (hrefuses : b.Refuses item) : Adds b item (.error fault, b)
  | added (compressed : ByteArray) (hnamed : item.name ≠ "")
      (hfits : item.Fits compressed.size b.out.size) (hpacks : item.Packs compressed) :
      Adds b item (.ok (), { b with
        out := b.out ++ (LocalRecord.ofEntry (item.entry compressed.size b.out.size)).toBytes ++
          compressed
        entries := b.entries.push (item.entry compressed.size b.out.size) })

variable {b : Builder} {item : Item}

theorem checkEntry_eq_ok_iff {e : Entry} : checkEntry e = .ok () ↔
    e.size ≤ 0xFFFFFFFF ∧ e.compressedSize ≤ 0xFFFFFFFF ∧ e.offset ≤ 0xFFFFFFFF :=
  checkBound_bind.trans (and_congr_right fun _ =>
    checkBound_bind.trans (and_congr_right fun _ => checkBound_eq_ok_iff))

theorem append_adds (hnamed : item.name ≠ "") (hname : item.name.utf8ByteSize ≤ 0xFFFF)
    {compressed : ByteArray} (hpacks : item.Packs compressed) :
    Adds b item (b.append (item.entry compressed.size b.out.size) compressed) := by
  obtain ⟨out, entries, comment, modified⟩ := b
  have hcheck := checkEntry_eq_ok_iff (e := item.entry compressed.size out.size)
  rw [append]
  cases hchecked : checkEntry (item.entry compressed.size out.size) with
  | error fault =>
      refine .refused fault (Or.inr ⟨compressed, hpacks, fun hfits => ?_⟩)
      have hpasses := hcheck.mpr ⟨hfits.size, hfits.compressedSize, hfits.offset⟩
      cases hchecked.symm.trans hpasses
  | ok checked =>
      obtain ⟨hsize, hcompressed, hoffset⟩ := hcheck.mp hchecked
      exact .added compressed hnamed ⟨hname, hsize, hcompressed, hoffset⟩ hpacks

-- A draft is the entry of an item that has no data.
theorem draft_eq {name : String} {e : Entry} (h : b.draft name = .ok e) :
    name ≠ "" ∧ name.utf8ByteSize ≤ 0xFFFF ∧ e = { Entry.empty with
      name := name
      flags := if name.toList.all (·.toNat < 128) then 0 else utf8Flag
      stamp := .ofSeconds b.modified
      offset := b.out.size } := by
  rw [draft] at h
  split at h
  · cases h
  · next hnamed =>
      split at h
      · cases h
      · next hfits =>
          cases h
          exact ⟨fun hempty => hnamed (String.isEmpty_iff.mpr hempty), Nat.not_lt.mp hfits, rfl⟩

-- No draft is made without a name, or with one that is too long.
theorem draft_refuses (item : Item) {fault : Fault} (h : b.draft item.name = .error fault)
    {compressed : ByteArray} (hpacks : item.Packs compressed) : b.Refuses item := by
  rw [draft] at h
  split at h
  · next hempty => exact Or.inl (String.isEmpty_iff.mp hempty)
  · split at h
    · next hlong =>
        exact Or.inr ⟨compressed, hpacks, fun hfits => Nat.not_le_of_lt hlong hfits.name⟩
    · cases h

theorem putStored_adds (b : Builder) (name : String) (data : ByteArray) :
    Adds b ⟨name, .stored, data, .ofSeconds b.modified⟩ (b.putStored name data) := by
  rw [putStored]
  cases hdraft : b.draft name with
  | error fault =>
      exact .refused fault (draft_refuses ⟨name, .stored, data, .ofSeconds b.modified⟩ hdraft rfl)
  | ok e =>
      obtain ⟨hnamed, hname, rfl⟩ := draft_eq hdraft
      exact append_adds hnamed hname rfl

theorem crc_empty : Crc32.of ByteArray.empty = 0 := by
  rw [Crc32.of, Crc32.update_eq_foldl]
  rfl

theorem putDirectory_adds (b : Builder) (name : String) :
    Adds b ⟨if name.toList.getLast? = some '/' then name else name.push '/', .stored,
      ByteArray.empty, .ofSeconds b.modified⟩ (b.putDirectory name) := by
  rw [putDirectory]
  generalize (if name.toList.getLast? = some '/' then name else name.push '/') = slashed
  cases hdraft : b.draft slashed with
  | error fault => exact .refused fault (draft_refuses _ hdraft rfl)
  | ok e =>
      obtain ⟨hnamed, hname, rfl⟩ := draft_eq hdraft
      have hadds : Adds b ⟨slashed, .stored, ByteArray.empty, .ofSeconds b.modified⟩
          (b.append _ ByteArray.empty) := append_adds hnamed hname rfl
      rw [Item.entry, crc_empty] at hadds
      exact hadds

theorem putEncoded_adds (b : Builder) (name : String) (data : ByteArray) (encoder : StoredBlocks) :
    Adds b ⟨name, .deflated, data, .ofSeconds b.modified⟩
      ((b.putEncoded name data encoder).1, (b.putEncoded name data encoder).2.2) := by
  obtain ⟨compressed, next, hencode, -⟩ := encode_inflate data
  have hcall : Encoder.encodeAll (Encoder.reset encoder) data = (.ok compressed, next) := hencode
  have hpacks : Item.Packs ⟨name, .deflated, data, .ofSeconds b.modified⟩ compressed :=
    congrArg Prod.fst hencode
  rw [putEncoded, hcall]
  dsimp only
  cases hdraft : b.draft name with
  | error fault => exact .refused fault (draft_refuses _ hdraft hpacks)
  | ok e =>
      obtain ⟨hnamed, hname, rfl⟩ := draft_eq hdraft
      exact append_adds hnamed hname hpacks

-- A call about an item adds it, or is refused.
theorem perform_adds {call : Call} (hitem : call.item (.ofSeconds b.modified) = some item) :
    Adds b item (b.perform call) := by
  cases call with
  | stored name data =>
      cases hitem
      exact putStored_adds b name data
  | deflated name data =>
      cases hitem
      exact putEncoded_adds b name data StoredBlocks.empty
  | deflatedWith name data encoder =>
      cases hitem
      exact putEncoded_adds b name data encoder
  | directory name =>
      cases hitem
      exact putDirectory_adds b name
  | stamp seconds => cases hitem
  | comment text => cases hitem

-- Any other call leaves the bytes and the entries as they are.
theorem perform_keeps {call : Call} {stamp : Stamp} (hitem : call.item stamp = none) :
    ∃ next, b.perform call = (.ok (), next) ∧ next.out = b.out ∧ next.entries = b.entries := by
  cases call with
  | stamp seconds => exact ⟨_, rfl, rfl, rfl⟩
  | comment text => exact ⟨_, rfl, rfl, rfl⟩
  | stored name data => cases hitem
  | deflated name data => cases hitem
  | deflatedWith name data encoder => cases hitem
  | directory name => cases hitem

-- A call about an item succeeds unless the item is refused, and then it leaves
-- nothing behind.
theorem perform_ok_iff {call : Call} (hitem : call.item (.ofSeconds b.modified) = some item) :
    ((b.perform call).1 = .ok () ↔ ¬b.Refuses item) ∧ (b.Refuses item → (b.perform call).2 = b) := by
  have hadds := perform_adds hitem
  generalize b.perform call = result at hadds
  cases hadds with
  | refused fault hrefuses =>
      exact ⟨iff_of_false nofun (not_not.mpr hrefuses), fun _ => rfl⟩
  | added compressed hnamed hfits hpacks =>
      have haccepts : ¬b.Refuses item := by
        rintro (hempty | ⟨other, hother, hbeyond⟩)
        · exact hnamed hempty
        · rw [hother.unique hpacks] at hbeyond
          exact hbeyond hfits
      exact ⟨iff_of_true rfl haccepts, fun hrefuses => absurd hrefuses haccepts⟩

end Builder

-- An item and its entry, whose data stands in the bytes of an archive behind
-- its local record.
def Filed (out : ByteArray) (e : Entry) (item : Item) : Prop :=
  ∃ front compressed back, item.Fits compressed.size front.length ∧ item.Packs compressed ∧
    e = item.entry compressed.size front.length ∧
    out.data.toList = front ++ ((LocalRecord.ofEntry e).toBytes.data.toList ++
      (compressed.data.toList ++ back))

theorem Filed.append {out : ByteArray} {e : Entry} {item : Item} (h : Filed out e item)
    (more : ByteArray) : Filed (out ++ more) e item := by
  obtain ⟨front, compressed, back, hfits, hpacks, he, hout⟩ := h
  refine ⟨front, compressed, back ++ more.data.toList, hfits, hpacks, he, ?_⟩
  rw [ByteArray.data_append, Array.toList_append, hout]
  simp only [List.append_assoc]

theorem Filed.recordable {out : ByteArray} {e : Entry} {item : Item} (h : Filed out e item) :
    e.Recordable := by
  obtain ⟨front, compressed, back, hfits, hpacks, rfl, -⟩ := h
  exact hfits.recordable hpacks

namespace Builder

variable {b : Builder} {item : Item} {items : List Item}

-- The entries are those of the items, in their order.
def Holds (b : Builder) (items : List Item) : Prop :=
  List.Forall₂ (Filed b.out) b.entries.toList items

theorem Holds.added (h : b.Holds items) {compressed : ByteArray}
    (hfits : item.Fits compressed.size b.out.size) (hpacks : item.Packs compressed)
    {next : Builder}
    (hentries : next.entries = b.entries.push (item.entry compressed.size b.out.size))
    (hout : next.out = b.out ++
      (LocalRecord.ofEntry (item.entry compressed.size b.out.size)).toBytes ++ compressed) :
    next.Holds (items ++ [item]) := by
  rw [Holds, hentries, hout, Array.toList_push, ByteArray.append_assoc]
  refine List.rel_append (h.imp fun _ _ hfiled => hfiled.append _) (.cons ?_ .nil)
  refine ⟨b.out.data.toList, compressed, [], hfits, hpacks, rfl, ?_⟩
  simp only [ByteArray.data_append, Array.toList_append, List.append_nil]

theorem Holds.perform (h : b.Holds items) (call : Call) (calls : List Call) :
    ∃ added, additions (call :: calls) b = added ++ additions calls (b.perform call).2 ∧
      (b.perform call).2.Holds (items ++ added) := by
  rw [additions]
  cases hitem : call.item (.ofSeconds b.modified) with
  | none =>
      obtain ⟨next, hperform, hout, hentries⟩ := perform_keeps (b := b) hitem
      rw [hperform]
      refine ⟨[], rfl, ?_⟩
      rw [Holds, hout, hentries, List.append_nil]
      exact h
  | some item =>
      have hadds := perform_adds hitem
      generalize b.perform call = result at hadds
      cases hadds with
      | refused fault hrefuses =>
          refine ⟨[], rfl, ?_⟩
          rw [List.append_nil]
          exact h
      | added compressed hnamed hfits hpacks =>
          exact ⟨[item], rfl, h.added hfits hpacks rfl rfl⟩

-- Whatever calls succeed and fail, the entries are those of the items added.
theorem Holds.afterCalls (h : b.Holds items) (calls : List Call) :
    (afterCalls calls b).Holds (items ++ additions calls b) := by
  induction calls generalizing b items with
  | nil =>
      rw [additions, List.append_nil]
      exact h
  | cons call calls ih =>
      obtain ⟨added, hadditions, hnext⟩ := h.perform call calls
      rw [hadditions, ← List.append_assoc]
      exact ih hnext

theorem start_holds (modified : Int) : (start modified).Holds [] := List.Forall₂.nil

theorem Holds.filed (h : b.Holds items) {e : Entry} (he : e ∈ b.entries) :
    ∃ item, Filed b.out e item := by
  have hboth := h.imp fun _ item hfiled => And.intro (Exists.intro item hfiled) hfiled
  exact ((List.forall₂_and_left _ _).mp hboth).1 e (Array.mem_toList_iff.mpr he)

theorem Holds.recordable (h : b.Holds items) : ∀ e ∈ b.entries, e.Recordable := by
  intro e he
  obtain ⟨item, hfiled⟩ := h.filed he
  exact hfiled.recordable

theorem filed_whole {e : Entry} (h : Filed b.out e item) : Filed b.whole e item :=
  (h.append (directory b.entries)).append (b.ending.toBytes b.comment.toUTF8)

end Builder

end Unpack.Zip
