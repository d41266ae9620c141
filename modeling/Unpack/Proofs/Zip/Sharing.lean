import Unpack.Proofs.Source.Mirrors
import Unpack.Proofs.Zip.Session

namespace Unpack

open Source (Alike Mirrors)

-- Stores whose reads depend on nothing but the position sought, whatever has
-- been read before.
structure Positional {σ : Type} [RandomAccess σ] (valid : σ → Prop) (size : Nat)
    (content : (position n : Nat) → Except Fault ByteArray) : Prop where
  keeps : ∀ store position n, valid store → valid (RandomAccess.readAt store position n).2
  size : ∀ store, valid store → RandomAccess.size store = size
  answers : ∀ store position n, valid store →
    (RandomAccess.readAt store position n).1 = content position n

-- Bytes in memory.
theorem positional (store : ByteArray) :
    Positional (· = store) store.size fun position n => .ok (store.extract position (position + n)) where
  keeps := fun _ _ _ h => h
  size := fun _ h => h ▸ rfl
  answers := fun _ _ _ h => h ▸ rfl

variable {σ : Type}

-- The same position in two such stores.
inductive Cursor.Same (valid : σ → Prop) : Cursor σ → Cursor σ → Prop where
  | mk (store other : σ) (position : Nat) (hstore : valid store) (hother : valid other) :
      Same valid ⟨store, position⟩ ⟨other, position⟩

variable [RandomAccess σ] {valid : σ → Prop} {size : Nat}
  {content : (position n : Nat) → Except Fault ByteArray} {store other : σ}

theorem Positional.readAt (h : Positional valid size content) (hstore : valid store)
    (hother : valid other) (position n : Nat) :
    Alike (fun store other => valid store ∧ valid other)
      (RandomAccess.readAt store position n) (RandomAccess.readAt other position n) :=
  ⟨(h.answers store position n hstore).trans (h.answers other position n hother).symm,
    h.keeps store position n hstore, h.keeps other position n hother⟩

theorem Cursor.mirrors (h : Positional valid size content) : Mirrors (Cursor.Same valid) := by
  constructor
  · rintro _ _ ⟨store, other, position, hstore, hother⟩
    show RandomAccess.size store - position = RandomAccess.size other - position
    rw [h.size store hstore, h.size other hother]
  · rintro _ _ n ⟨store, other, position, hstore, hother⟩
    show Alike _ (Cursor.read _ n) (Cursor.read _ n)
    simp only [Cursor.read]
    refine (h.readAt hstore hother position n).cases fun answer store other hboth => ?_
    cases answer with
    | error fault => exact .pair (.mk store other position hboth.1 hboth.2)
    | ok bytes => exact .pair (.mk store other (position + bytes.size) hboth.1 hboth.2)

namespace Zip

open Source (Parallel)

theorem LocalRecord.readAll_parallel {σ τ : Type} [Source σ] [Source τ] {related : σ → τ → Prop}
    (h : Mirrors related) : Parallel related LocalRecord.readAll LocalRecord.readAll := by
  have hpart : ∀ reading n, Parallel related (part reading n) (part reading n) :=
    fun reading n _ _ hst => h.readExactly hst reading n
  refine (hpart _ _).bind fun fixed => (Parallel.ofExcept _).bind fun _ => ?_
  exact (hpart _ _).bind fun name => (hpart _ _).bind fun extra => .pure _

-- The same data of an entry in two such stores.
inductive EntrySource.Same (valid : σ → Prop) : EntrySource σ → EntrySource σ → Prop where
  | mk (store other : σ) (position remaining : Nat) (hstore : valid store) (hother : valid other) :
      Same valid ⟨some store, position, remaining⟩ ⟨some other, position, remaining⟩

theorem EntrySource.mirrors (h : Positional valid size content) :
    Mirrors (EntrySource.Same valid) := by
  constructor
  · rintro _ _ ⟨⟩
    rfl
  · rintro _ _ n ⟨store, other, position, remaining, hstore, hother⟩
    show Alike _ (EntrySource.read _ n) (EntrySource.read _ n)
    have hsame := EntrySource.Same.mk store other position remaining hstore hother
    simp only [EntrySource.read]
    split
    · exact .pair hsame
    · refine (h.readAt hstore hother position _).cases fun answer store other hboth => ?_
      have hsame := EntrySource.Same.mk store other position remaining hboth.1 hboth.2
      cases answer with
      | error fault => exact .pair hsame
      | ok bytes =>
          dsimp only
          split
          · exact .pair hsame
          · exact .pair (.mk store other _ _ hboth.1 hboth.2)

namespace EntryData

inductive Same (valid : σ → Prop) : EntryData σ → EntryData σ → Prop where
  | stored (source other : EntrySource σ) (h : source.Same valid other) :
      Same valid (.stored source) (.stored other)
  | deflated (stream other : Deflate.DecodedStream (EntrySource σ))
      (h : stream.Over (EntrySource.Same valid) other) :
      Same valid (.deflated stream) (.deflated other)

variable {d d' : EntryData σ}

theorem Same.read (h : d.Same valid d') (hpositional : Positional valid size content) (n : Nat) :
    Alike (Same valid) (d.read n) (d'.read n) := by
  cases h with
  | stored source other h =>
      have hread := (EntrySource.mirrors hpositional).read source other n h
      exact ⟨hread.1, .stored _ _ hread.2⟩
  | deflated stream other h =>
      have hread :=
        (Deflate.DecodedStream.mirrors (EntrySource.mirrors hpositional)).read stream other n h
      exact ⟨hread.1, .deflated _ _ hread.2⟩

omit [RandomAccess σ]

@[simp] theorem store_attach (store : Option σ) (d : EntryData σ) :
    (d.attach store).store = store := by
  cases d <;> rfl

@[simp] theorem attach_attach (store other : Option σ) (d : EntryData σ) :
    (d.attach other).attach store = d.attach store := by
  cases d <;> rfl

-- Data that differ in nothing but the store are the same once each has a store
-- of this content.
theorem same_attach (h : d.attach none = d'.attach none) (hstore : valid store)
    (hother : valid other) : (d.attach (some store)).Same valid (d'.attach (some other)) := by
  have hother' : d'.attach (some other) = d.attach (some other) := by
    rw [← attach_attach _ none d', ← h, attach_attach]
  rw [hother']
  cases d with
  | stored source => exact .stored _ _ (.mk store other _ _ hstore hother)
  | deflated stream => exact .deflated _ _ (.mk _ _ _ _ (.mk store other _ _ hstore hother))

theorem Same.attach_eq (h : d.Same valid d') : d.attach none = d'.attach none := by
  cases h with
  | stored source other h =>
      cases h
      rfl
  | deflated stream other h =>
      obtain ⟨source, other, decoder, ended, h⟩ := h
      cases h
      rfl

theorem Same.stores (h : d.Same valid d') : (∃ store, d.store = some store ∧ valid store) ∧
    ∃ other, d'.store = some other ∧ valid other := by
  cases h with
  | stored source other h =>
      obtain ⟨store, other, position, remaining, hstore, hother⟩ := h
      exact ⟨⟨store, rfl, hstore⟩, other, rfl, hother⟩
  | deflated stream other h =>
      obtain ⟨source, other, decoder, ended, h⟩ := h
      obtain ⟨store, other, position, remaining, hstore, hother⟩ := h
      exact ⟨⟨store, rfl, hstore⟩, other, rfl, hother⟩

end EntryData

namespace EntryStream

-- Streams that differ in nothing but the data still to come.
inductive Same (valid : σ → Prop) (s : EntryStream σ) : EntryStream σ → Prop where
  | mk (other : EntryData σ) (h : s.body.Same valid other) : Same valid s { s with body := other }

variable {s t : EntryStream σ}

theorem Same.read (h : s.Same valid t) (hpositional : Positional valid size content) (n : Nat) :
    Alike (Same valid) (s.read n) (t.read n) := by
  obtain ⟨other, hbody⟩ := h
  obtain ⟨⟨store, hstore, -⟩, store', hother, -⟩ := hbody.stores
  obtain ⟨body, name, expectedCrc, expectedSize, verifyCrc, crc, size, verified⟩ := s
  dsimp only at hbody hstore ⊢
  simp only [EntryStream.read, hstore, hother, Option.isNone_some, Bool.false_eq_true, if_false]
  split
  · exact .pair (.mk other hbody)
  · refine (hbody.read hpositional n).cases fun answer body other hbody => ?_
    cases answer with
    | error fault => exact .pair (.mk other hbody)
    | ok bytes =>
        dsimp only
        split
        · have hflaw : flaw ⟨other, name, expectedCrc, expectedSize, verifyCrc, crc, size, verified⟩ =
              flaw ⟨body, name, expectedCrc, expectedSize, verifyCrc, crc, size, verified⟩ := rfl
          rw [hflaw]
          generalize flaw _ = outcome
          cases outcome with
          | some fault => exact .pair (.mk other hbody)
          | none => exact .pair (.mk other hbody)
        · split
          · exact .pair (.mk other hbody)
          · exact .pair (.mk other hbody)

-- A stream whose archive is closed.
theorem read_of_closed (h : s.body.store = none) (n : Nat) : s.read n =
    (if n = 0 ∨ s.verified = true then .ok ByteArray.empty else .error .archiveClosed, s) := by
  rw [EntryStream.read, h]
  split
  · rfl
  · rfl

omit [RandomAccess σ]

@[simp] theorem attach_attach (store other : Option σ) (s : EntryStream σ) :
    (s.attach other).attach store = s.attach store := by
  simp only [attach, EntryData.attach_attach]

theorem same_attach (h : s.attach none = t.attach none) (hstore : valid store)
    (hother : valid other) : (s.attach (some store)).Same valid (t.attach (some other)) := by
  have hother' : t.attach (some other) = s.attach (some other) := by
    rw [← attach_attach _ none t, ← h, attach_attach]
  rw [hother']
  exact .mk _ (EntryData.same_attach rfl hstore hother)

theorem Same.body (h : s.Same valid t) : s.body.Same valid t.body := by
  obtain ⟨other, hbody⟩ := h
  exact hbody

theorem Same.attach_eq (h : s.Same valid t) : s.attach none = t.attach none := by
  obtain ⟨other, hbody⟩ := h
  simp only [attach, hbody.attach_eq]

end EntryStream

namespace Archive

-- An open archive over such a store.
def Live (valid : σ → Prop) (a : Archive σ) : Prop :=
  ∃ store, a.store = some store ∧ valid store

variable {a b : Archive σ}

-- Reads of one size from the same stream are answered alike.
theorem read_alike (hpositional : Positional valid size content) (ha : a.Live valid)
    (hb : b.Live valid) {s t : EntryStream σ} (h : s.attach none = t.attach none) (n : Nat) :
    ((s.attach a.store).read n).1 = ((t.attach b.store).read n).1 ∧
      ((s.attach a.store).read n).2.attach none = ((t.attach b.store).read n).2.attach none ∧
      (a.read s n).2.2.Live valid ∧ (b.read t n).2.2.Live valid := by
  obtain ⟨store, hstore, hvalid⟩ := ha
  obtain ⟨other, hother, hvalid'⟩ := hb
  have hread := (EntryStream.same_attach h hvalid hvalid').read hpositional n
  simp only [Archive.read, hstore, hother]
  obtain ⟨answer, hsame⟩ := hread
  have hstores := hsame.body.stores
  exact ⟨answer, hsame.attach_eq, hstores.1, hstores.2⟩

-- So are attempts to open an entry.
theorem openStream_alike (hpositional : Positional valid size content) (ha : a.Live valid)
    (hb : b.Live valid) (hverify : a.verifyCrc = b.verifyCrc) (e : Entry) :
    (a.openStream e).1.map (·.attach none) = (b.openStream e).1.map (·.attach none) ∧
      (a.openStream e).2.Live valid ∧ (b.openStream e).2.Live valid := by
  obtain ⟨store, entries, comment, excess, verifyCrc⟩ := a
  obtain ⟨other, entries', comment', excess', verifyCrc'⟩ := b
  obtain ⟨store, rfl, hvalid⟩ := ha
  obtain ⟨other, rfl, hvalid'⟩ := hb
  obtain rfl : verifyCrc = verifyCrc' := hverify
  have hread : Alike (Cursor.Same valid) (LocalRecord.read (Cursor.mk store e.offset))
      (LocalRecord.read (Cursor.mk other e.offset)) :=
    LocalRecord.readAll_parallel (Cursor.mirrors hpositional) _ _
      (.mk store other e.offset hvalid hvalid')
  simp only [openStream]
  refine hread.cases fun answer c d hsame => ?_
  obtain ⟨store, other, position, hstore, hother⟩ := hsame
  cases answer with
  | error fault => exact ⟨rfl, ⟨store, rfl, hstore⟩, other, rfl, hother⟩
  | ok found =>
      refine ⟨?_, ⟨store, rfl, hstore⟩, other, rfl, hother⟩
      dsimp only
      cases checkLocal e found with
      | error fault => rfl
      | ok _ =>
          simp only [body]
          cases e.method <;> rfl

-- Whether checksums are verified was decided when the archive was opened.
theorem verifyCrc_openStream (a : Archive σ) (e : Entry) :
    (a.openStream e).2.verifyCrc = a.verifyCrc := by
  obtain ⟨store, entries, comment, excess, verifyCrc⟩ := a
  cases store with
  | none => rfl
  | some store =>
      simp only [openStream]
      split <;> rfl

theorem openStream_of_closed (h : a.store = none) (e : Entry) :
    a.openStream e = (.error .archiveClosed, a) := by
  obtain ⟨store, entries, comment, excess, verifyCrc⟩ := a
  obtain rfl : store = none := h
  rfl

end Archive

namespace Session

-- The calls that a stream of a place has seen: those since it was opened.
def alone (place : Nat) (calls : List Call) : List Call :=
  calls.foldl (fun own call => match call with
    | .start other e => if other = place then [.start other e] else own
    | .read other n => if other = place then own ++ [.read other n] else own
    | .close => own) []

variable {s t : Session σ} {place : Nat}

theorem alone_concat_start (place : Nat) (calls : List Call) (e : Entry) :
    alone place (calls ++ [.start place e]) = [.start place e] := by
  simp [alone]

theorem alone_concat_read (place : Nat) (calls : List Call) (n : Nat) :
    alone place (calls ++ [.read place n]) = alone place calls ++ [.read place n] := by
  simp [alone]

theorem alone_concat_of_ne (calls : List Call) {call : Call} (h : call.place? ≠ some place) :
    alone place (calls ++ [call]) = alone place calls := by
  cases call with
  | start other e =>
      have hne : other ≠ place := fun heq => h (congrArg some heq)
      simp [alone, hne]
  | read other n =>
      have hne : other ≠ place := fun heq => h (congrArg some heq)
      simp [alone, hne]
  | close => simp [alone]

-- Two sessions on stores of one content whose streams of a place agree.
structure Agrees (valid : σ → Prop) (place : Nat) (s t : Session σ) : Prop where
  live : s.archive.Live valid
  other : t.archive.Live valid
  verifyCrc : s.archive.verifyCrc = t.archive.verifyCrc
  stream : (s.streams place).map (·.attach none) = (t.streams place).map (·.attach none)

theorem verifyCrc_perform (s : Session σ) (call : Call) :
    (s.perform call).2.archive.verifyCrc = s.archive.verifyCrc := by
  cases call with
  | start place e => exact Archive.verifyCrc_openStream _ _
  | read place n =>
      rw [perform]
      split <;> rfl
  | close => rfl

theorem verifyCrc_after (s : Session σ) (calls : List Call) :
    (s.after calls).archive.verifyCrc = s.archive.verifyCrc := by
  induction calls using List.reverseRecOn with
  | nil => rfl
  | append_singleton calls call ih => rw [after_concat, verifyCrc_perform, ih]

theorem live_perform (hpositional : Positional valid size content) (h : s.archive.Live valid)
    {call : Call} (hopen : call ≠ .close) : (s.perform call).2.archive.Live valid := by
  cases call with
  | start place e => exact (Archive.openStream_alike hpositional h h rfl e).2.1
  | read place n =>
      cases hstream : s.streams place with
      | none => rwa [perform_read_of_none hstream]
      | some stream =>
          rw [perform_read_of_some hstream]
          exact (Archive.read_alike hpositional h h (s := stream) rfl n).2.2.1
  | close => exact absurd rfl hopen

section Except

variable {ε α β γ : Type} {f : α → β} {x y : Except ε α}

theorem map_const_of_map_eq {c : γ} (h : x.map f = y.map f) :
    x.map (fun _ => c) = y.map fun _ => c := by
  have hmap : ∀ z : Except ε α, z.map (fun _ => c) = (z.map f).map fun _ => c := by
    intro z
    cases z <;> rfl
  rw [hmap x, hmap y, h]

theorem map_toOption_of_map_eq (h : x.map f = y.map f) :
    x.toOption.map f = y.toOption.map f := by
  have hmap : ∀ z : Except ε α, z.toOption.map f = (z.map f).toOption := by
    intro z
    cases z <;> rfl
  rw [hmap x, hmap y, h]

end Except

-- Opening needs no agreement.
theorem agrees_start (hpositional : Positional valid size content) (hs : s.archive.Live valid)
    (ht : t.archive.Live valid) (hverify : s.archive.verifyCrc = t.archive.verifyCrc)
    (place : Nat) (e : Entry) :
    (s.perform (.start place e)).1 = (t.perform (.start place e)).1 ∧
      Agrees valid place (s.perform (.start place e)).2 (t.perform (.start place e)).2 := by
  obtain ⟨hanswer, hlive, hother⟩ := Archive.openStream_alike hpositional hs ht hverify e
  refine ⟨?_, hlive, hother, by rw [verifyCrc_perform, verifyCrc_perform, hverify], ?_⟩
  · exact map_const_of_map_eq hanswer
  · rw [streams_perform_start, streams_perform_start]
    exact map_toOption_of_map_eq hanswer

-- Calls to other places go unnoticed.
theorem Agrees.perform_of_ne (h : Agrees valid place s t)
    (hpositional : Positional valid size content) {call : Call} (hplace : call.place? ≠ some place)
    (hopen : call ≠ .close) : Agrees valid place (s.perform call).2 t :=
  ⟨live_perform hpositional h.live hopen, h.other, (verifyCrc_perform s call).trans h.verifyCrc,
    by rw [streams_perform_of_ne hplace, h.stream]⟩

theorem Agrees.perform_read (h : Agrees valid place s t)
    (hpositional : Positional valid size content) (n : Nat) :
    (s.perform (.read place n)).1 = (t.perform (.read place n)).1 ∧
      Agrees valid place (s.perform (.read place n)).2 (t.perform (.read place n)).2 := by
  have hstream := h.stream
  cases hs : s.streams place with
  | none =>
      cases ht : t.streams place with
      | none =>
          rw [perform_read_of_none hs, perform_read_of_none ht]
          exact ⟨rfl, h⟩
      | some other => simp [hs, ht] at hstream
  | some stream =>
      cases ht : t.streams place with
      | none => simp [hs, ht] at hstream
      | some other =>
          have hsame : stream.attach none = other.attach none := by simpa [hs, ht] using hstream
          obtain ⟨hanswer, hnext, hlive, hother⟩ :=
            Archive.read_alike hpositional h.live h.other hsame n
          rw [perform_read_of_some hs, perform_read_of_some ht]
          refine ⟨congrArg (Except.map some) hanswer, hlive, hother, h.verifyCrc, ?_⟩
          dsimp only
          rw [Function.update_self, Function.update_self]
          exact congrArg some hnext

-- Whatever calls came in between, a stream is where its own calls lead.
theorem agrees_alone (hpositional : Positional valid size content) (hlive : s.archive.Live valid)
    (place : Nat) (calls : List Call) (hopen : .close ∉ calls) :
    Agrees valid place (s.after calls) (s.after (alone place calls)) := by
  induction calls using List.reverseRecOn with
  | nil => exact ⟨hlive, hlive, rfl, rfl⟩
  | append_singleton calls call ih =>
      have hbefore := ih fun h => hopen (List.mem_append_left _ h)
      have hcall : call ≠ .close := fun h => hopen (h ▸ List.mem_append_right _ List.mem_cons_self)
      rw [after_concat]
      by_cases hplace : call.place? = some place
      · cases call with
        | start other e =>
            obtain rfl : other = place := Option.some.inj hplace
            rw [alone_concat_start]
            exact (agrees_start hpositional hbefore.live hlive (verifyCrc_after s calls) other e).2
        | read other n =>
            obtain rfl : other = place := Option.some.inj hplace
            rw [alone_concat_read, after_concat]
            exact (hbefore.perform_read hpositional n).2
        | close => cases hplace
      · rw [alone_concat_of_ne calls hplace]
        exact hbefore.perform_of_ne hpositional hplace hcall

section Closed

variable (hclosed : s.archive.store = none)

include hclosed

theorem perform_start_of_closed (place : Nat) (e : Entry) :
    (s.perform (.start place e)).1 = .error .archiveClosed := by
  rw [perform, Archive.openStream_of_closed hclosed]
  rfl

theorem perform_read_of_closed {stream : EntryStream σ} (h : s.streams place = some stream)
    (n : Nat) : (s.perform (.read place n)).1 =
      if n = 0 ∨ stream.verified = true then .ok (some .empty) else .error .archiveClosed := by
  rw [perform_read_of_some h, hclosed, EntryStream.read_of_closed (EntryData.store_attach _ _)]
  exact apply_ite (Except.map some) _ _ _

-- A closed archive remains closed.
theorem closed_perform (call : Call) : (s.perform call).2.archive.store = none := by
  cases call with
  | start place e =>
      rw [perform, Archive.openStream_of_closed hclosed]
      exact hclosed
  | read place n =>
      cases hstream : s.streams place with
      | none => rwa [perform_read_of_none hstream]
      | some stream =>
          rw [perform_read_of_some hstream, Archive.read, hclosed,
            EntryStream.read_of_closed (EntryData.store_attach _ _)]
          exact EntryData.store_attach _ _
  | close => rfl

-- Its streams remain where they are.
theorem streams_perform_of_closed {call : Call} (hsame : ∀ e, call ≠ .start place e) :
    ((s.perform call).2.streams place).map (·.attach none) =
      (s.streams place).map (·.attach none) := by
  by_cases hplace : call.place? = some place
  · cases call with
    | start other e =>
        obtain rfl : other = place := Option.some.inj hplace
        exact absurd rfl (hsame e)
    | read other n =>
        obtain rfl : other = place := Option.some.inj hplace
        cases hstream : s.streams other with
        | none => rw [perform_read_of_none hstream, hstream]
        | some stream =>
            rw [perform_read_of_some hstream, hclosed,
              EntryStream.read_of_closed (EntryData.store_attach _ _)]
            dsimp only
            rw [Function.update_self]
            exact congrArg some (EntryStream.attach_attach _ _ _)
    | close => cases hplace
  · rw [streams_perform_of_ne hplace]

theorem after_of_closed (place : Nat) (calls : List Call) : (s.after calls).archive.store = none ∧
    ((∀ e, .start place e ∉ calls) →
      ((s.after calls).streams place).map (·.attach none) =
        (s.streams place).map (·.attach none)) := by
  induction calls using List.reverseRecOn with
  | nil => exact ⟨hclosed, fun _ => rfl⟩
  | append_singleton calls call ih =>
      rw [after_concat]
      refine ⟨closed_perform ih.1 call, fun hsame => ?_⟩
      rw [streams_perform_of_closed ih.1 fun e heq => hsame e ?_, ih.2 fun e hmem => hsame e ?_]
      · exact List.mem_append_left _ hmem
      · exact heq ▸ List.mem_append_right _ List.mem_cons_self

-- Of what was opened before, whoever has told the end still tells it.
theorem answer_read_of_closed (hsome : s.streams place ≠ none) {calls : List Call}
    (hsame : ∀ e, .start place e ∉ calls) (n : Nat) :
    (n = 0 ∨ s.Verified place → s.answer calls (.read place n) = .ok (some .empty)) ∧
      (0 < n → ¬s.Verified place → s.answer calls (.read place n) = .error .archiveClosed) := by
  obtain ⟨stream, hstream⟩ := Option.ne_none_iff_exists'.mp hsome
  obtain ⟨hafter, hstreams⟩ := after_of_closed hclosed place calls
  have hkept := hstreams hsame
  rw [hstream] at hkept
  obtain ⟨now, hnow, hnone⟩ := Option.map_eq_some_iff.mp hkept
  have hverified : s.Verified place ↔ now.verified = true := by
    have hsameEnd : now.verified = stream.verified := congrArg (·.verified) hnone
    simp [Verified, hstream, hsameEnd]
  rw [answer, perform_read_of_closed hafter hnow, hverified]
  refine ⟨fun h => if_pos h, fun hn hstill => if_neg ?_⟩
  rintro (rfl | h)
  · exact Nat.lt_irrefl 0 hn
  · exact hstill h

end Closed

-- Streams of one archive do not disturb each other: before it is closed, an
-- attempt to open an entry is answered as if nothing had been asked before, and
-- a read as if its stream had been the only one. Closing cuts all of them off
-- but those that have told their end.
theorem answer_eq_alone (hpositional : Positional valid size content) (a : Archive σ)
    (hlive : a.Live valid) (calls : List Call) (hopen : .close ∉ calls) :
    (∀ place e, (ofArchive a).answer calls (.start place e) =
        (ofArchive a).answer [] (.start place e)) ∧
      (∀ place n, (ofArchive a).answer calls (.read place n) =
        (ofArchive a).answer (alone place calls) (.read place n)) ∧
      ∀ later place,
        (∀ e, (ofArchive a).answer (calls ++ .close :: later) (.start place e) =
          .error .archiveClosed) ∧
        (((ofArchive a).after calls).streams place ≠ none → (∀ e, .start place e ∉ later) → ∀ n,
          (n = 0 ∨ (ofArchive a).Announces place calls →
            (ofArchive a).answer (calls ++ .close :: later) (.read place n) = .ok (some .empty)) ∧
          (0 < n → ¬(ofArchive a).Announces place calls →
            (ofArchive a).answer (calls ++ .close :: later) (.read place n) =
              .error .archiveClosed)) := by
  have hagrees := fun place => agrees_alone hpositional (s := ofArchive a) hlive place calls hopen
  refine ⟨fun place e => ?_, fun place n => ?_, fun later place => ⟨fun e => ?_, fun hsome hsame n => ?_⟩⟩
  · exact (agrees_start hpositional (hagrees place).live hlive
      (verifyCrc_after (ofArchive a) calls) place e).1
  · exact ((hagrees place).perform_read hpositional n).1
  · rw [answer, after_append]
    exact perform_start_of_closed (after_of_closed rfl place later).1 place e
  · rw [← verified_iff_announces (not_verified_ofArchive a place), answer, after_append]
    exact answer_read_of_closed (s := (((ofArchive a).after calls).perform .close).2) rfl hsome
      hsame n

theorem answer_eq_alone_deflated :
    let store : ByteArray := ⟨#[0x50, 0x4b, 3, 4, 20, 0, 0, 0, 8, 0, 0, 0, 0x21, 0, 7, 0x4c, 0x69,
      0x30, 7, 0, 0, 0, 2, 0, 0, 0, 1, 0, 0, 0, 0x61, 1, 2, 0, 0xfd, 0xff, 0x41, 0x42]⟩
    let e : Entry :=
      { Entry.file "a" 2 with method := .deflated, compressedSize := 7, crc := 0x30694c07 }
    let a : Archive ByteArray := ⟨some store, #[e], "", 0, true⟩
    let calls : List Call := [.start 0 e, .start 1 e, .read 0 1, .read 1 9, .read 1 9]
    a.Live (· = store) ∧ .close ∉ calls ∧
      (ofArchive a).answer calls (.read 0 3) = .ok (some "B".toUTF8) ∧
      (ofArchive a).answer (calls ++ .close :: [.read 1 4]) (.read 0 3) = .error .archiveClosed ∧
      (ofArchive a).answer (calls ++ .close :: [.read 0 3]) (.read 1 9) = .ok (some .empty) := by
  intro store e a calls
  have hlive : a.Live (· = store) := ⟨store, rfl, rfl⟩
  have hopen : .close ∉ calls := by simp [calls]
  obtain ⟨-, hreads, hclose⟩ := answer_eq_alone (positional store) a hlive calls hopen
  obtain ⟨hread, hgoes, hsome, htold⟩ : (ofArchive a).answer (alone 0 calls) (.read 0 3) =
        .ok (some "B".toUTF8) ∧
      (((ofArchive a).after calls).streams 0).map (·.verified) = some false ∧
      ((ofArchive a).after calls).streams 1 ≠ none ∧
      (ofArchive a).answer (calls.take 4) (.read 1 9) = .ok (some .empty) := by decide +kernel
  have hends : (ofArchive a).Announces 1 calls :=
    ⟨calls.take 4, 9, .empty, [], rfl, Nat.zero_lt_succ 8, htold, rfl, fun _ => List.not_mem_nil⟩
  refine ⟨hlive, hopen, (hreads 0 3).trans hread, ?_, ?_⟩
  · refine ((hclose [.read 1 4] 0).2 (fun h => ?_) (by simp) 3).2 (Nat.zero_lt_succ 2) fun hends => ?_
    · simp [h] at hgoes
    · obtain ⟨stream, hstream, hverified⟩ :=
        (verified_iff_announces (not_verified_ofArchive a 0) calls).mpr hends
      simp [hstream, hverified] at hgoes
  · exact ((hclose [.read 0 3] 1).2 hsome (by simp) 9).1 (Or.inr hends)

end Session

end Zip

end Unpack
