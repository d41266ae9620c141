import Unpack.Proofs.Bits.Reader
import Unpack.Proofs.Source.Script

namespace Unpack.Source

section Takes

variable {σ α β : Type} {valid : σ → Prop} {rest : σ → List UInt8} {bytes more : List UInt8} {a : α}
  {b : β}

-- Where these bytes come next, the reading takes them, nothing else, and makes
-- `a` of them.
def Takes (valid : σ → Prop) (rest : σ → List UInt8) (reading : ExceptT Fault (StateM σ) α)
    (bytes : List UInt8) (a : α) : Prop :=
  ∀ source back, valid source → rest source = bytes ++ back →
    ∃ next, reading source = (.ok a, next) ∧ valid next ∧ rest next = back

theorem Takes.pure (a : α) : Takes valid rest (Pure.pure a) [] a :=
  fun source _ hvalid hrest => ⟨source, rfl, hvalid, hrest⟩

theorem Takes.bind {reading : ExceptT Fault (StateM σ) α} {next : α → ExceptT Fault (StateM σ) β}
    (h : Takes valid rest reading bytes a) (hnext : Takes valid rest (next a) more b) :
    Takes valid rest (reading >>= next) (bytes ++ more) b := by
  intro source back hvalid hrest
  rw [List.append_assoc] at hrest
  obtain ⟨middle, hread, hmiddle, hmore⟩ := h source (more ++ back) hvalid hrest
  obtain ⟨last, hlast, hrest⟩ := hnext middle back hmiddle hmore
  refine ⟨last, ?_, hrest⟩
  show (ExceptT.bindCont next (reading source).1 : StateM σ _) (reading source).2 = _
  rw [hread]
  exact hlast

-- Where a source breaks off before the end of these bytes, the reading says so.
def Cut (valid : σ → Prop) (rest : σ → List UInt8) (reading : ExceptT Fault (StateM σ) α)
    (bytes : List UInt8) : Prop :=
  ∀ source n, valid source → n < bytes.length → rest source = bytes.take n →
    ∃ what next, reading source = (.error (.unexpectedEnd what), next)

-- The reading takes exactly these bytes, and needs them all.
structure Frames (valid : σ → Prop) (rest : σ → List UInt8) (reading : ExceptT Fault (StateM σ) α)
    (bytes : List UInt8) (a : α) : Prop where
  takes : Takes valid rest reading bytes a
  cut : Cut valid rest reading bytes

theorem Frames.pure (a : α) : Frames valid rest (Pure.pure a) [] a :=
  ⟨Takes.pure a, fun _ _ _ hn => absurd hn (Nat.not_lt_zero _)⟩

-- The bytes break off in the first part, or behind it.
theorem Frames.bind {reading : ExceptT Fault (StateM σ) α} {next : α → ExceptT Fault (StateM σ) β}
    (h : Frames valid rest reading bytes a) (hnext : Frames valid rest (next a) more b) :
    Frames valid rest (reading >>= next) (bytes ++ more) b := by
  refine ⟨h.takes.bind hnext.takes, fun source n hvalid hn hrest => ?_⟩
  have hstep : (reading >>= next) source =
    (ExceptT.bindCont next (reading source).1 : StateM σ _) (reading source).2 := rfl
  rw [hstep]
  rw [List.take_append] at hrest
  by_cases hfirst : n < bytes.length
  · rw [Nat.sub_eq_zero_of_le (Nat.le_of_lt hfirst), List.take_zero, List.append_nil] at hrest
    obtain ⟨what, middle, hread⟩ := h.cut source n hvalid hfirst hrest
    rw [hread]
    exact ⟨what, middle, rfl⟩
  · rw [List.take_of_length_le (Nat.le_of_not_lt hfirst)] at hrest
    rw [List.length_append] at hn
    obtain ⟨middle, hread, hmiddle, hmore⟩ := h.takes source _ hvalid hrest
    rw [hread]
    exact hnext.cut middle (n - bytes.length) hmiddle (by omega) hmore

-- A reading that makes something of the bytes and takes nothing more.
theorem Frames.map {reading : ExceptT Fault (StateM σ) α} (h : Frames valid rest reading bytes a)
    {f : α → β} (hresult : f a = b) :
    Frames valid rest (reading >>= fun a => Pure.pure (f a)) bytes b := by
  have hbind : Frames valid rest (reading >>= fun a => Pure.pure (f a)) (bytes ++ []) (f a) :=
    h.bind (Frames.pure (f a))
  rwa [List.append_nil, hresult] at hbind

-- A check that succeeds takes nothing.
theorem Frames.check {answer : Except Fault α} {next : α → ExceptT Fault (StateM σ) β}
    (h : answer = .ok a) (hnext : Frames valid rest (next a) bytes b) :
    Frames valid rest (liftM answer >>= next) bytes b := by
  rw [h]
  exact hnext

end Takes

variable {σ : Type} [Source σ] {valid : σ → Prop} {rest : σ → List UInt8} {source : σ} {n : Nat}
  {front back : List UInt8}

-- Sources that bring all their bytes and fail by interruptions only.
structure Reliable (valid : σ → Prop) (rest : σ → List UInt8) : Prop where
  steady : Steady valid rest
  unbroken : ∀ bytes, ¬Breaks valid rest bytes

-- Sources that never fail at all.
theorem reliable_of_answers (h : ∀ source n, valid source → ∃ bytes next,
      read source n = (.ok bytes, next) ∧ valid next ∧ (0 < n → Brings rest source n bytes next)) :
    Reliable valid rest := by
  refine ⟨⟨fun source n hvalid => ?_, fun source n bytes next hvalid hn hread => ?_,
    fun source n fault next hvalid hn hread => ?_⟩, ?_⟩
  · obtain ⟨bytes, next, hread, hnext, -⟩ := h source n hvalid
    rw [hread]
    exact hnext
  · obtain ⟨bytes', next', hanswer, -, hbrings⟩ := h source n hvalid
    cases hanswer.symm.trans hread
    exact hbrings hn
  · obtain ⟨bytes, next', hanswer, -⟩ := h source n hvalid
    cases hanswer.symm.trans hread
  · rintro bytes ⟨source, n, fault, hvalid, hn, -, hfails, -⟩
    obtain ⟨bytes, next, hanswer, -⟩ := h source n hvalid
    rw [hanswer] at hfails
    cases hfails

-- Every byte that is left counts.
theorem Steady.length_rest_le_left (h : Steady valid rest) (hvalid : valid source) :
    (rest source).length ≤ left source := by
  induction hleft : left source using Nat.strong_induction_on generalizing source with
  | _ bound ih =>
      have honce := h.read_once hvalid Nat.one_pos
      generalize read source 1 = result at honce
      cases honce with
      | brings bytes next hnext hbrings hasked =>
          by_cases hnone : bytes.size = 0
          · rw [hbrings.ended hnone]
            exact Nat.zero_le _
          · have hless := hbrings.left_lt hnone
            have hmore := ih _ (hleft ▸ hless) hnext rfl
            have hfits := hbrings.fits
            rw [hbrings.split, List.length_append, Bits.Reader.length_toList]
            omega
      | spares fault next hnext hspares hasked =>
          have hless := hspares.left_lt
          have hmore := ih _ (hleft ▸ hless) hnext rfl
          rw [← hspares.same]
          omega

theorem Reliable.readOnce (h : Reliable valid rest) (hvalid : valid source) (hn : 0 < n) :
    ∃ bytes next, readOnce source n = (.ok bytes, next) ∧ valid next ∧
      Brings rest source n bytes next := by
  have honce := h.steady.readOnce hvalid hn
  have hbreaks : ∀ fault, (Source.readOnce source n).1 = .error fault →
      Breaks valid rest (rest source) :=
    fun _ => h.steady.breaks_of_readThrough hvalid hn (Nat.le_refl _)
  generalize Source.readOnce source n = result at honce hbreaks
  cases honce with
  | brings bytes next hnext hbrings hasked => exact ⟨bytes, next, rfl, hnext, hbrings⟩
  | spares fault next hnext hspares hasked => exact absurd (hbreaks fault rfl) (h.unbroken _)

-- Bytes that are there are read.
theorem Reliable.readExactly (h : Reliable valid rest) (hvalid : valid source) (reading : String)
    (hrest : rest source = front ++ back) :
    ∃ next, readExactly reading source front.length = (.ok ⟨front.toArray⟩, next) ∧ valid next ∧
      rest next = back := by
  have hfetches := h.steady.readExactly hvalid reading front.length
  generalize Source.readExactly reading source front.length = result at hfetches
  cases hfetches with
  | whole bytes next hnext hsize hsplit =>
      have hnone : ByteArray.empty.data.toList = [] := rfl
      rw [hnone, List.nil_append, hrest] at hsplit
      obtain ⟨hfront, hback⟩ := List.append_inj hsplit hsize.symm
      refine ⟨next, ?_, hnext, hback.symm⟩
      rw [hfront]
  | short next hnext hfew hnone =>
      rw [hrest, List.length_append] at hfew
      omega
  | broken fault next taken hnext hsplit hfew hless hbreaks =>
      exact absurd hbreaks (h.unbroken _)

-- Bytes that are not there end the reading.
theorem Reliable.cut (h : Reliable valid rest) (hvalid : valid source) (reading : String)
    (hfew : (rest source).length < n) :
    ∃ next, Source.readExactly reading source n = (.error (.unexpectedEnd reading), next) := by
  have hfetches := h.steady.readExactly hvalid reading n
  generalize Source.readExactly reading source n = result at hfetches
  cases hfetches with
  | whole got next hnext hsize hsplit =>
      have hnone : ByteArray.empty.data.toList = [] := rfl
      have hall := congrArg List.length hsplit
      rw [hnone, List.nil_append, List.length_append, Bits.Reader.length_toList] at hall
      omega
  | short next hnext hless hnone => exact ⟨next, rfl⟩
  | broken fault next taken hnext hsplit hless hleft hbreaks =>
      exact absurd hbreaks (h.unbroken _)

theorem Reliable.frames (h : Reliable valid rest) (reading : String) {bytes : ByteArray}
    (hn : bytes.size = n) :
    Frames valid rest
      (fun source => Source.readExactly reading source n : ExceptT Fault (StateM σ) _)
      bytes.data.toList bytes := by
  subst hn
  refine ⟨fun source back hvalid hrest => h.readExactly hvalid reading hrest,
    fun source few hvalid hfew hrest => ?_⟩
  have hshort : (rest source).length < bytes.size := by
    rw [hrest, List.length_take]
    exact Nat.lt_of_le_of_lt (Nat.min_le_left _ _) hfew
  obtain ⟨next, hread⟩ := h.cut hvalid reading hshort
  exact ⟨reading, next, hread⟩

end Unpack.Source

namespace Unpack.Script

-- Scripts of chunks and interruptions only.
theorem reliable : Source.Reliable (FailsAt fun _ => False) fun s => s.rest.data.toList :=
  ⟨FailsAt.steady _, fun _ => FailsAt.place⟩

end Unpack.Script
