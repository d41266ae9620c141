import Unpack.Proofs.Deflate.ReliableStream
import Unpack.Proofs.Source.Collect
import Unpack.Proofs.Zip.Building
import Unpack.Proofs.Zip.Framing

namespace Unpack.Zip

open Bytes (suffix)
open Deflate (DecodedStream)
open Deflate.Reference (inflate)
open Source (Hands)

variable {store : ByteArray} {owed : List UInt8}

namespace EntryData

-- What is still to come of the data of an entry that lies within its store.
inductive Owes (store : ByteArray) : List UInt8 → EntryData ByteArray → Prop where
  | stored (source : EntrySource ByteArray) (hwithin : source.Within store) :
      Owes store ((suffix store source.position).take source.remaining) (.stored source)
  | deflated (front handed owed : List UInt8) (stream : DecodedStream (EntrySource ByteArray))
      (hinflate : inflate [] (Bits.ofBytes front) = some (handed ++ owed, []))
      (hstream : stream.Holds (EntrySource.Within store)
        (fun s => (suffix store s.position).take s.remaining) (front ++ []) handed) :
      Owes store owed (.deflated stream)

variable {d : EntryData ByteArray}

theorem Owes.store_eq (h : Owes store owed d) : d.store = some store := by
  cases h with
  | stored source hwithin => exact hwithin.stored
  | deflated front handed owed stream hinflate hstream =>
      obtain ⟨fed, history, q, hstands⟩ := hstream
      exact hstands.valid.stored

theorem Owes.read (h : Owes store owed d) {n : Nat} (hn : 0 < n) : ∃ bytes later next,
    d.read n = (.ok bytes, next) ∧ owed = bytes.data.toList ++ later ∧ Owes store later next ∧
      bytes.size ≤ n ∧ (bytes.size = 0 → owed = []) := by
  cases h with
  | stored source hwithin =>
      obtain ⟨bytes, next, hread, hnext, hbrings⟩ := EntrySource.answers store source n hwithin
      have hcall : source.read n = (.ok bytes, next) := hread
      refine ⟨bytes, _, .stored next, ?_, (hbrings hn).split, .stored next hnext, (hbrings hn).fits,
        (hbrings hn).ended⟩
      rw [EntryData.read, hcall]
  | deflated front handed owed stream hinflate hstream =>
      obtain ⟨bytes, next, hread, hfits, hholds, ⟨later, hlater⟩, hfinished⟩ :=
        hstream.read_reliable (EntrySource.reliable store) hinflate hn
      have hcall : stream.read n = (.ok bytes, next) := hread
      rw [List.append_assoc] at hlater
      have hsplit := List.append_cancel_left hlater
      refine ⟨bytes, later, .deflated next, ?_, hsplit.symm,
        .deflated front (handed ++ bytes.data.toList) later next ?_ hholds, hfits, fun hnone => ?_⟩
      · rw [EntryData.read, hcall]
      · rw [List.append_assoc, hlater]
        exact hinflate
      · obtain ⟨hall, -⟩ := hholds.finished_eq hinflate (hfinished hnone)
        have hempty : bytes.data.toList = [] := List.eq_nil_of_length_eq_zero hnone
        rw [hempty, List.append_nil] at hall
        exact List.append_right_eq_self.mp hall.symm

-- A stream that is read from its start owes all that the compressed bytes come
-- to, and it counts on no less.
theorem owes_new {source : EntrySource ByteArray} (hwithin : source.Within store)
    {front : List UInt8} (hrest : (suffix store source.position).take source.remaining = front)
    (hfront : front.length = source.remaining)
    (hinflate : inflate [] (Bits.ofBytes front) = some (owed, [])) :
    Owes store owed (.deflated (.new source .raw)) ∧
      owed.length ≤ (EntryData.deflated (.new source .raw)).left := by
  have hstream : (DecodedStream.new source .raw).Holds (EntrySource.Within store)
      (fun s => (suffix store s.position).take s.remaining)
      ((suffix store source.position).take source.remaining) [] :=
    DecodedStream.new_holds hwithin _
  rw [hrest, ← List.append_nil front] at hstream
  refine ⟨.deflated front [] owed _ hinflate hstream, ?_⟩
  have hless := Deflate.length_le_of_inflate hinflate
  have hsize := Nat.le_mul_of_pos_left source.remaining
    (Nat.lt_of_lt_of_le Nat.one_pos (Nat.le_max_right Deflate.Settings.raw.readSize 1))
  show owed.length ≤ _ + 258 * (8 * (max Deflate.Settings.raw.readSize 1 * source.remaining))
  omega

end EntryData

namespace EntryStream

-- What is still to come of an entry, whose size and checksum are those of all
-- its data.
inductive Owes (store : ByteArray) : List UInt8 → EntryStream ByteArray → Prop where
  | streaming (handed owed : List UInt8) (s : EntryStream ByteArray)
      (hbody : s.body.Owes store owed) (hsize : s.size = handed.length)
      (hcrc : s.crc = Crc32.empty.update ⟨handed.toArray⟩)
      (hexpectedSize : s.expectedSize = (handed ++ owed).length)
      (hexpectedCrc : s.expectedCrc = Crc32.of ⟨(handed ++ owed).toArray⟩)
      (hunverified : s.verified = false) :
      Owes store owed s
  | checked (s : EntryStream ByteArray) (hverified : s.verified = true)
      (hstore : s.body.store = some store) :
      Owes store [] s

theorem Owes.store_eq {s : EntryStream ByteArray} (h : Owes store owed s) :
    s.body.store = some store := by
  cases h with
  | streaming handed owed s hbody => exact hbody.store_eq
  | checked s hverified hstore => exact hstore

-- Size and checksum of all the data are as expected.
theorem flaw_eq_none {s : EntryStream ByteArray} {handed : List UInt8}
    (hsize : s.size = handed.length) (hcrc : s.crc = Crc32.empty.update ⟨handed.toArray⟩)
    (hexpectedSize : s.expectedSize = handed.length)
    (hexpectedCrc : s.expectedCrc = Crc32.of ⟨handed.toArray⟩) : s.flaw = none := by
  have hsame : ¬s.size ≠ s.expectedSize := not_not.mpr (hsize.trans hexpectedSize.symm)
  have hvalue : s.crc.value = s.expectedCrc := by
    rw [hcrc, hexpectedCrc]
    rfl
  have hchecked : ¬(s.verifyCrc = true ∧ s.crc.value ≠ s.expectedCrc) := fun h => h.2 hvalue
  rw [flaw, if_neg hsame, if_neg hchecked]

theorem hands (store : ByteArray) : Hands (Owes store) := by
  intro owed s n howes hn
  have hcall : Source.read s n = s.read n := rfl
  rw [hcall, EntryStream.read]
  cases howes with
  | checked s hverified hstore =>
      rw [if_pos (Or.inr hverified)]
      exact ⟨_, [], s, rfl, rfl, .checked s hverified hstore, Nat.zero_le n, fun _ => rfl⟩
  | streaming handed owed s hbody hsize hcrc hexpectedSize hexpectedCrc hunverified =>
      have hgoes : ¬(n = 0 ∨ s.verified = true) := by
        rw [hunverified]
        simp [Nat.ne_of_gt hn]
      have hattached : ¬s.body.store.isNone = true := by
        rw [hbody.store_eq]
        exact Bool.false_ne_true
      rw [if_neg hgoes, if_neg hattached]
      obtain ⟨bytes, later, next, hread, rfl, hnext, hfits, hended⟩ := hbody.read hn
      obtain ⟨body, name, expectedCrc, expectedSize, verifyCrc, crc, size, verified⟩ := s
      dsimp only at hread hsize hcrc hexpectedSize hexpectedCrc hunverified ⊢
      rw [hread]
      dsimp only
      by_cases hnone : bytes.size = 0
      · have hall := hended hnone
        rw [hall, List.append_nil] at hexpectedSize hexpectedCrc
        have hsound : EntryStream.flaw ⟨next, name, expectedCrc, expectedSize, verifyCrc, crc, size,
            verified⟩ = none := flaw_eq_none hsize hcrc hexpectedSize hexpectedCrc
        rw [if_pos hnone, hsound]
        exact ⟨bytes, [], _, rfl, by rw [hall, (List.append_eq_nil_iff.mp hall).1]; rfl,
          .checked _ rfl hnext.store_eq, hfits, hended⟩
      · have hroom : ¬expectedSize < size + bytes.size := by
          rw [hexpectedSize, hsize, List.length_append, List.length_append,
            Bits.Reader.length_toList]
          omega
        rw [if_neg hnone, if_neg hroom]
        rw [← List.append_assoc] at hexpectedSize hexpectedCrc
        refine ⟨bytes, later, _, rfl, rfl,
          .streaming (handed ++ bytes.data.toList) later _ hnext ?_ ?_ hexpectedSize hexpectedCrc hunverified, hfits, hended⟩
        · show size + bytes.size = _
          rw [hsize, List.length_append, Bits.Reader.length_toList]
        · show crc.update bytes = _
          rw [hcrc]
          simp only [Crc32.update_eq_foldl, List.foldl_append]

end EntryStream

namespace Archive

variable {out : ByteArray} {e : Entry} {item : Item}

-- The body of an item has all its data to come.
theorem body_owes {compressed : ByteArray} {front back : List UInt8}
    (hpacks : item.Packs compressed) (offset : Nat)
    (hstore : store.data.toList = front ++ (compressed.data.toList ++ back)) :
    ∃ d, body (item.entry compressed.size offset) store front.length = .ok d ∧
      d.Owes store item.data.data.toList ∧ item.data.size ≤ d.left := by
  have hrest : (suffix store front.length).take compressed.size = compressed.data.toList := by
    rw [suffix, hstore, List.drop_left]
    exact List.take_left
  have hwithin : EntrySource.Within store ⟨some store, front.length, compressed.size⟩ := by
    have hlength := congrArg List.length hstore
    rw [List.length_append, List.length_append, Bits.Reader.length_toList,
      Bits.Reader.length_toList] at hlength
    exact ⟨rfl, by dsimp only; omega⟩
  obtain ⟨name, method, data, stamp⟩ := item
  rw [Item.Packs] at hpacks
  cases method with
  | stored =>
      obtain rfl : compressed = data := hpacks
      refine ⟨.stored ⟨some store, front.length, compressed.size⟩, rfl, ?_, Nat.le_refl _⟩
      rw [← hrest]
      exact .stored ⟨some store, front.length, compressed.size⟩ hwithin
  | deflated =>
      have hencode : (Deflate.StoredBlocks.empty.encode data .finish).1 = .ok compressed := hpacks
      obtain ⟨made, next, hmade, hinflate⟩ := encode_inflate data
      rw [hmade] at hencode
      obtain rfl : compressed = made := (Except.ok.inj hencode).symm
      obtain ⟨howes, hleft⟩ := EntryData.owes_new hwithin hrest rfl hinflate
      exact ⟨.deflated (.new ⟨some store, front.length, compressed.size⟩ .raw), rfl, howes, hleft⟩
  | unknown id => exact hpacks.elim

-- The entry of an item is opened with all its data to come.
theorem openStream_filed (h : Filed store e item) (entries : Array Entry) (comment : String)
    (excess : Nat) (verifyCrc : Bool) :
    ∃ s, openStream ⟨some store, entries, comment, excess, verifyCrc⟩ e =
        (.ok s, ⟨some store, entries, comment, excess, verifyCrc⟩) ∧
      s.Owes store item.data.data.toList ∧ item.data.size ≤ s.body.left := by
  obtain ⟨front, compressed, back, hfits, hpacks, rfl, hstore⟩ := h
  have hrecord : suffix store front.length = (LocalRecord.ofEntry
      (item.entry compressed.size front.length)).toBytes.data.toList ++
        (compressed.data.toList ++ back) := by
    rw [suffix, hstore, List.drop_left]
  have hname : (item.entry compressed.size front.length).encodedName.size ≤ 0xFFFF := hfits.name
  obtain ⟨next, hsame, -, hopen⟩ :=
    beginsBehind_record hname (Cursor.reliable store) store _ rfl hrecord
  have hsame : next.store = store := hsame
  rw [← List.append_assoc] at hstore
  obtain ⟨d, hbody, howes, hleft⟩ := body_owes hpacks front.length hstore
  rw [List.length_append, Bits.Reader.length_toList] at hbody
  refine ⟨⟨d, item.name, Crc32.of item.data, item.data.size, verifyCrc, .empty, 0, false⟩, ?_,
    .streaming [] item.data.data.toList _ howes rfl (Crc32.update_eq_foldl .empty ⟨#[]⟩).symm rfl
      rfl rfl, hleft⟩
  have hoffset : (item.entry compressed.size front.length).offset = front.length := rfl
  rw [hopen, hsame, hoffset, hbody]
  rfl

-- The entry of an item is read back as the data of the item, and the archive
-- stays as it was.
theorem readWhole_filed (h : Filed store e item) (entries : Array Entry) (comment : String)
    (excess : Nat) (verifyCrc : Bool) :
    readWhole ⟨some store, entries, comment, excess, verifyCrc⟩ e =
      (.ok item.data, ⟨some store, entries, comment, excess, verifyCrc⟩) := by
  obtain ⟨s, hopen, howes, hleft⟩ := openStream_filed h entries comment excess verifyCrc
  obtain ⟨next, hcollect, hnext⟩ :=
    (EntryStream.hands store).collect howes hleft (min e.size maxBuffer)
  rw [readWhole, hopen]
  dsimp only
  rw [hcollect, hnext.store_eq]

-- The entry is that of an item: it says so, and its data are read back from an
-- archive that stays as it was.
structure Returns (a : Archive ByteArray) (e : Entry) (item : Item) : Prop where
  name : e.name = item.name
  method : e.method = item.method
  stamp : e.stamp = item.stamp
  size : e.size = item.data.size
  crc : e.crc = Crc32.of item.data
  data : a.readWhole e = (.ok item.data, a)

end Archive

namespace Builder

variable {b : Builder} {items : List Item}

-- A call whose item is refused might as well not have been made.
theorem afterCalls_skip {front back : List Call} {call : Call} {item : Item}
    (hitem : call.item (.ofSeconds (afterCalls front b).modified) = some item)
    (hrefuses : (afterCalls front b).Refuses item) :
    afterCalls (front ++ call :: back) b = afterCalls (front ++ back) b := by
  have hsame := (perform_ok_iff hitem).2 hrefuses
  rw [afterCalls, afterCalls, List.foldl_append, List.foldl_append, List.foldl_cons]
  exact congrArg (List.foldl _ · back) hsame

-- In a finished archive that is opened, the entries are those of the items.
theorem Holds.returns (h : b.Holds items) (verifyCrc : Bool) :
    List.Forall₂ (Archive.Returns ⟨some b.whole, b.entries, b.comment, 0, verifyCrc⟩)
      b.entries.toList items := by
  refine h.imp fun e item hfiled => ?_
  have hread := Archive.readWhole_filed (filed_whole hfiled) b.entries b.comment 0 verifyCrc
  obtain ⟨front, compressed, back, -, -, rfl, -⟩ := hfiled
  exact ⟨rfl, rfl, rfl, rfl, rfl, hread⟩

-- Whatever was added is read back: the archive is finished and opened, its
-- entries are those of the builder, one for each item that was added and in
-- their order, and each is read back as the data of its item. Calls fail only
-- when their items are refused, and leave no trace then.
theorem read_built (calls : List Call) (modified : Int) (verifyCrc : Bool)
    (hcomment : (afterCalls calls (start modified)).comment = "")
    (hcount : (additions calls (start modified)).length ≤ 0xFFFF)
    (hsize : (afterCalls calls (start modified)).content.size ≤ 0xFFFFFFFF) :
    (∃ bytes a, (afterCalls calls (start modified)).finish = .ok bytes ∧
      Archive.ofStore bytes verifyCrc = .ok a ∧
      a.entries = (afterCalls calls (start modified)).entries ∧
      List.Forall₂ a.Returns a.entries.toList (additions calls (start modified))) ∧
    ∀ front call back item, calls = front ++ call :: back →
      call.item (.ofSeconds (afterCalls front (start modified)).modified) = some item →
        (((afterCalls front (start modified)).perform call).1 = .ok () ↔
          ¬(afterCalls front (start modified)).Refuses item) ∧
        ((afterCalls front (start modified)).Refuses item →
          afterCalls calls (start modified) = afterCalls (front ++ back) (start modified)) := by
  constructor
  · have hholds := (start_holds modified).afterCalls calls
    rw [List.nil_append] at hholds
    generalize additions calls (start modified) = items at hholds hcount ⊢
    generalize afterCalls calls (start modified) = b at hholds hcomment hsize ⊢
    rw [content, ByteArray.size_append] at hsize
    have hentries : b.entries.size = items.length := by
      rw [← Array.length_toList]
      exact hholds.length_eq
    have hfits : b.Fits := by
      refine ⟨by omega, ?_, by omega, by omega⟩
      rw [hcomment]
      exact Nat.zero_le _
    exact ⟨b.whole, _, finish_eq_ok_iff.mpr ⟨hfits, rfl⟩,
      ofStore_whole hfits hholds.recordable (endsOnce_of_bare hcomment) verifyCrc, rfl,
      hholds.returns verifyCrc⟩
  · rintro front call back item rfl hitem
    exact ⟨(perform_ok_iff hitem).1, afterCalls_skip hitem⟩

theorem read_built_four :
    let calls : List Call := [.stored "a" ⟨#[1, 2]⟩, .stored "" ⟨#[9]⟩, .stamp 1000000000,
      .deflated "b" ⟨#[3]⟩, .deflatedWith "é" ⟨#[4]⟩ ⟨⟨#[5]⟩, .empty, true⟩, .directory "d"]
    ∃ bytes a, (afterCalls calls (start 315532800)).finish = .ok bytes ∧
      Archive.ofStore bytes true = .ok a ∧
      a.entries.toList.map (·.name) = ["a", "b", "é", "d/"] ∧
      List.Forall₂ (fun e data => a.readWhole e = (.ok data, a)) a.entries.toList
        [⟨#[1, 2]⟩, ⟨#[3]⟩, ⟨#[4]⟩, ByteArray.empty] := by
  intro calls
  have hcomment : (afterCalls calls (start 315532800)).comment = "" := by decide +kernel
  have hitems : (additions calls (start 315532800)).map (·.data) =
      [⟨#[1, 2]⟩, ⟨#[3]⟩, ⟨#[4]⟩, ByteArray.empty] := by decide +kernel
  have hcount : (additions calls (start 315532800)).length ≤ 0xFFFF := by decide +kernel
  have hsize : (afterCalls calls (start 315532800)).content.size ≤ 0xFFFFFFFF := by decide +kernel
  have hnames : (afterCalls calls (start 315532800)).entries.toList.map (·.name) =
      ["a", "b", "é", "d/"] := by decide +kernel
  obtain ⟨bytes, a, hfinish, hopen, hentries, hreturns⟩ :=
    (read_built calls 315532800 true hcomment hcount hsize).1
  refine ⟨bytes, a, hfinish, hopen, hentries.symm ▸ hnames, ?_⟩
  rw [← hitems]
  exact List.forall₂_map_right_iff.mpr (hreturns.imp fun _ _ h => h.data)

end Builder

end Unpack.Zip
