import Unpack.Proofs.Source.Reliable
import Unpack.Source.Collect

namespace Unpack.Source

variable {σ : Type} [Source σ] {Owes : List UInt8 → σ → Prop} {owed : List UInt8} {source : σ}

-- Sources that hand out all they owe, in pieces of any size, and never fail.
def Hands (Owes : List UInt8 → σ → Prop) : Prop :=
  ∀ owed source n, Owes owed source → 0 < n → ∃ bytes later next,
    read source n = (.ok bytes, next) ∧ owed = bytes.data.toList ++ later ∧ Owes later next ∧
      bytes.size ≤ n ∧ (bytes.size = 0 → owed = [])

theorem toArray_toList_append (got bytes : ByteArray) (later : List UInt8) :
    got ++ ⟨(bytes.data.toList ++ later).toArray⟩ = got ++ bytes ++ ⟨later.toArray⟩ := by
  apply ByteArray.ext
  apply Array.toList_inj.mp
  simp only [ByteArray.data_append, Array.toList_append, List.append_assoc]

section Runs

variable {sizes : Nat → Nat}

-- Whatever calls came before.
theorem Hands.after (h : Hands Owes) (hsizes : ∀ call, 0 < sizes call) (howes : Owes owed source)
    (call : Nat) :
    ∃ later, gathered sizes source call ++ later = owed ∧ Owes later (after sizes source call) := by
  induction call with
  | zero => exact ⟨owed, rfl, howes⟩
  | succ call ih =>
      obtain ⟨later, rfl, hlater⟩ := ih
      obtain ⟨bytes, last, next, hread, rfl, hnext, -⟩ := h _ _ _ hlater (hsizes call)
      refine ⟨last, ?_, ?_⟩
      · rw [gathered, answer, hread, List.append_assoc]
        rfl
      · rw [Source.after, hread]
        exact hnext

theorem Hands.answer (h : Hands Owes) (hsizes : ∀ call, 0 < sizes call) (howes : Owes owed source)
    (call : Nat) :
    ∃ bytes, Source.answer sizes source call = .ok bytes ∧
      gathered sizes source call ++ bytes.data.toList <+: owed ∧
      (bytes.size = 0 → gathered sizes source call = owed) := by
  obtain ⟨later, rfl, hlater⟩ := h.after hsizes howes call
  obtain ⟨bytes, last, next, hread, rfl, -, -, hended⟩ := h _ _ _ hlater (hsizes call)
  refine ⟨bytes, congrArg Prod.fst hread, ?_, fun hnone => ?_⟩
  · exact List.prefix_append_right_inj _ |>.mpr (List.prefix_append _ _)
  · rw [hended hnone, List.append_nil]

-- The calls bring what is owed up to the first call that brings nothing, and
-- from then on nothing.
theorem Hands.run (h : Hands Owes) (hsizes : ∀ call, 0 < sizes call) (howes : Owes owed source) :
    (∀ call, ∃ bytes, Source.answer sizes source call = .ok bytes) ∧
      ∃ last, gathered sizes source last = owed ∧
        ∀ call, Source.answer sizes source call = .ok ByteArray.empty ↔ last ≤ call := by
  have hanswer := h.answer hsizes howes
  have hsucc : ∀ call bytes, Source.answer sizes source call = .ok bytes →
      gathered sizes source (call + 1) = gathered sizes source call ++ bytes.data.toList := by
    intro call bytes hcall
    rw [gathered, hcall]
    rfl
  refine ⟨fun call => ⟨_, (hanswer call).choose_spec.1⟩, ?_⟩
  obtain ⟨last, hlast, hearlier⟩ := exists_first_call
    (fun call => Source.answer sizes source call = .ok ByteArray.empty)
    (fun call => owed.length - (gathered sizes source call).length) fun call => by
      obtain ⟨bytes, hcall, hprefix, -⟩ := hanswer call
      by_cases hnone : bytes.size = 0
      · exact Or.inl (by rw [hcall, ByteArray.size_eq_zero_iff.mp hnone])
      · have hfits := hprefix.length_le
        rw [hsucc call bytes hcall]
        rw [List.length_append, Bits.Reader.length_toList] at hfits ⊢
        exact Or.inr (by omega)
  have hall : gathered sizes source last = owed := by
    obtain ⟨bytes, hcall, -, hended⟩ := hanswer last
    cases hcall.symm.trans hlast
    exact hended rfl
  -- What is gathered only grows, and it cannot grow beyond what is owed.
  have hforever : ∀ call, last ≤ call → gathered sizes source call = owed := by
    intro call hcall
    induction call, hcall using Nat.le_induction with
    | base => exact hall
    | succ call hcall ih =>
        obtain ⟨bytes, hanswered, hprefix, -⟩ := hanswer call
        rw [hsucc call bytes hanswered]
        have hlength := hprefix.length_le
        rw [ih, List.length_append] at hlength
        have hempty : bytes.data.toList = [] := List.eq_nil_of_length_eq_zero (by omega)
        rw [ih, hempty, List.append_nil]
  refine ⟨last, hall, fun call => ⟨fun hcall => ?_, fun hcall => ?_⟩⟩
  · by_contra hbefore
    exact hearlier call (Nat.lt_of_not_le hbefore) hcall
  · obtain ⟨bytes, hanswered, hprefix, -⟩ := hanswer call
    have hlength := hprefix.length_le
    rw [hforever call hcall, List.length_append, Bits.Reader.length_toList] at hlength
    have hnone : bytes = ByteArray.empty := ByteArray.size_eq_zero_iff.mp (by omega)
    rw [hanswered, hnone]

end Runs

theorem readOnce_of_ok {n : Nat} {bytes : ByteArray} {next : σ}
    (h : read source n = (.ok bytes, next)) :
    readOnce source n = (.ok bytes, next) := by
  rw [readOnce]
  cases left source with
  | zero => exact h
  | succ rounds => rw [readThrough, h]

namespace Gathering

-- The bytes held fit, and a read asks for some.
structure Sane (g : Gathering) : Prop where
  fits : g.size ≤ g.room
  limit : 0 < g.limit

variable {g : Gathering}

theorem start_sane (room : Nat) : (start room).Sane := ⟨Nat.zero_le _, Nat.succ_pos 8191⟩

theorem Sane.reserve (h : g.Sane) (more : Nat) :
    (g.reserve more).Sane ∧ (g.reserve more).size = g.size ∧
      g.size + more ≤ (g.reserve more).room := by
  have hfits := h.fits
  rw [Gathering.reserve]
  split
  · refine ⟨⟨?_, h.limit⟩, rfl, ?_⟩ <;> dsimp only <;> omega
  · exact ⟨h, rfl, by omega⟩

theorem Sane.afterProbe (h : g.Sane) (count : Nat) : (g.afterProbe count).Sane := by
  obtain ⟨hsane, -, hroom⟩ := h.reserve count
  exact ⟨hroom, hsane.limit⟩

theorem Sane.afterRead (h : g.Sane) {count : Nat} (hcount : count ≤ g.request) :
    (g.afterRead g.request count).Sane := by
  have hfits := h.fits
  have hlimit := h.limit
  rw [request] at hcount
  refine ⟨?_, ?_⟩
  · show g.size + count ≤ g.room
    omega
  · show 0 < if g.limit ≤ g.request ∧ count = g.request then 2 * g.limit else g.limit
    split <;> omega

-- A buffer that is not full asks for some bytes.
theorem Sane.request_pos (h : g.Sane) (hroom : g.size < g.room) : 0 < g.request := by
  have hlimit := h.limit
  rw [request]
  omega

end Gathering

open Gathering (Sane probe)

-- What a round comes to: some bytes are appended, and none mean that all are there.
def Gathers (Owes : List UInt8 → σ → Prop) (owed : List UInt8) (got : ByteArray)
    (result : Except Fault (Gathering × ByteArray) × σ) : Prop :=
  ∃ g bytes later next, result = (.ok (g, got ++ bytes), next) ∧ g.Sane ∧
    owed = bytes.data.toList ++ later ∧ Owes later next ∧ (bytes.size = 0 → owed = [])

variable {g : Gathering}

theorem Hands.probeOnce (h : Hands Owes) (howes : Owes owed source) (hsane : g.Sane)
    (got : ByteArray) : Gathers Owes owed got (Source.probeOnce g got source) := by
  obtain ⟨bytes, later, next, hread, hsplit, hnext, -, hended⟩ := h _ _ probe howes (by decide)
  refine ⟨_, bytes, later, next, ?_, hsane.afterProbe bytes.size, hsplit, hnext, hended⟩
  rw [Source.probeOnce, readOnce_of_ok hread]

theorem Hands.readOn (h : Hands Owes) (howes : Owes owed source) (hsane : g.Sane)
    (got : ByteArray) : Gathers Owes owed got (Source.readOn g got source) := by
  rw [Source.readOn]
  generalize hgrown : (if g.size = g.room then g.reserve probe else g) = grown
  have hgrown : grown.Sane ∧ grown.size < grown.room := by
    subst hgrown
    have hprobe : 0 < probe := by decide
    obtain ⟨hreserved, hsize, hroom⟩ := hsane.reserve probe
    have hfits := hsane.fits
    split
    · exact ⟨hreserved, by omega⟩
    · exact ⟨hsane, by omega⟩
  obtain ⟨bytes, later, next, hread, hsplit, hnext, hfits, hended⟩ :=
    h _ _ _ howes (hgrown.1.request_pos hgrown.2)
  refine ⟨_, bytes, later, next, ?_, hgrown.1.afterRead hfits, hsplit, hnext, hended⟩
  rw [readOnce_of_ok hread]

theorem Hands.collectRest (h : Hands Owes) (howes : Owes owed source) (hsane : g.Sane)
    (rounds : Nat) (hrounds : owed.length < rounds) (got : ByteArray) :
    ∃ next, Source.collectRest rounds g got source = (.ok (got ++ ⟨owed.toArray⟩), next) ∧
      Owes [] next := by
  induction rounds generalizing owed source g got with
  | zero => omega
  | succ rounds ih =>
      have hround : Gathers Owes owed got
          (if g.size = g.room ∧ g.room = g.initialRoom then Source.probeOnce g got source
            else Source.readOn g got source) := by
        split
        · exact h.probeOnce howes hsane got
        · exact h.readOn howes hsane got
      rw [Source.collectRest]
      obtain ⟨grown, bytes, later, next, hresult, hgrown, hsplit, hnext, hended⟩ := hround
      rw [hresult]
      have hlength := congrArg List.length hsplit
      rw [List.length_append, Bits.Reader.length_toList] at hlength
      by_cases hnone : bytes.size = 0
      · have hempty := hended hnone
        rw [hempty] at hsplit ⊢
        obtain rfl := (List.append_eq_nil_iff.mp hsplit.symm).2
        refine ⟨next, ?_, hnext⟩
        dsimp only
        rw [if_pos (by rw [ByteArray.size_append, hnone]; rfl)]
        have hgot : got ++ ⟨#[]⟩ = got := ByteArray.append_empty
        rw [hgot]
      · obtain ⟨last, hrest, hlast⟩ := ih hnext hgrown (by omega) (got ++ bytes)
        refine ⟨last, ?_, hlast⟩
        dsimp only
        rw [if_neg (by rw [ByteArray.size_append]; omega), hrest, hsplit, toArray_toList_append]

-- Whatever room the buffer begins with, everything is gathered.
theorem Hands.collect (h : Hands Owes) (howes : Owes owed source)
    (hleft : owed.length ≤ left source) (room : Nat) :
    ∃ next, Source.collect room source = (.ok ⟨owed.toArray⟩, next) ∧ Owes [] next := by
  have hnone : ∀ bytes : ByteArray, ByteArray.empty ++ bytes = bytes := fun _ =>
    ByteArray.empty_append
  rw [Source.collect]
  by_cases hsmall : room < probe
  · rw [if_pos hsmall]
    obtain ⟨g, bytes, later, next, hresult, hsane, hsplit, hnext, hended⟩ :=
      h.probeOnce howes (Gathering.start_sane room) ByteArray.empty
    have hlength := congrArg List.length hsplit
    rw [List.length_append, Bits.Reader.length_toList] at hlength
    rw [hresult, hnone]
    dsimp only
    by_cases hempty : bytes.size = 0
    · have hnil := hended hempty
      rw [hnil] at hsplit ⊢
      obtain rfl := (List.append_eq_nil_iff.mp hsplit.symm).2
      rw [if_pos hempty, ByteArray.size_eq_zero_iff.mp hempty]
      exact ⟨next, rfl, hnext⟩
    · obtain ⟨last, hrest, hlast⟩ :=
        h.collectRest hnext hsane (left source + 1) (by omega) bytes
      refine ⟨last, ?_, hlast⟩
      rw [if_neg hempty, hrest, hsplit, ← hnone ⟨(bytes.data.toList ++ later).toArray⟩,
        toArray_toList_append, hnone]
  · rw [if_neg hsmall]
    have hrest := h.collectRest howes (Gathering.start_sane room) _ (Nat.lt_succ_of_le hleft)
      ByteArray.empty
    rwa [hnone] at hrest

end Unpack.Source
