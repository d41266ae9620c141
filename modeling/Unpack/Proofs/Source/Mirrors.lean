import Unpack.Deflate.DecodedStream

namespace Unpack.Source

-- The same answer, and what is left is related.
def Alike {σ τ α : Type} (related : σ → τ → Prop) (x : α × σ) (y : α × τ) : Prop :=
  x.1 = y.1 ∧ related x.2 y.2

-- Sources in related states answer every read alike.
structure Mirrors {σ τ : Type} [Source σ] [Source τ] (related : σ → τ → Prop) : Prop where
  left : ∀ s t, related s t → left s = left t
  read : ∀ s t n, related s t → Alike related (read s n) (read t n)

section Alike

variable {σ τ α : Type} {related : σ → τ → Prop}

theorem Alike.pair {answer : α} {s : σ} {t : τ} (h : related s t) :
    Alike related (answer, s) (answer, t) :=
  ⟨rfl, h⟩

-- Two results with one answer, taken apart together.
@[elab_as_elim]
theorem Alike.cases {x : α × σ} {y : α × τ} {motive : α × σ → α × τ → Prop}
    (h : Alike related x y)
    (pair : ∀ answer s t, related s t → motive (answer, s) (answer, t)) : motive x y := by
  obtain ⟨answer, s⟩ := x
  obtain ⟨other, t⟩ := y
  obtain ⟨rfl, hrelated⟩ := h
  exact pair answer s t hrelated

end Alike

section Mirrors

variable {σ τ : Type} [Source σ] [Source τ] {related : σ → τ → Prop} {s : σ} {t : τ}

theorem Mirrors.readThrough (h : Mirrors related) (hst : related s t) (rounds n : Nat) :
    Alike related (readThrough rounds s n) (readThrough rounds t n) := by
  induction rounds generalizing s t with
  | zero => exact h.read s t n hst
  | succ rounds ih =>
      simp only [Source.readThrough]
      refine (h.read s t n hst).cases fun answer s t hst => ?_
      cases answer with
      | ok bytes => exact .pair hst
      | error fault =>
          dsimp only
          split
          · exact ih hst
          · exact .pair hst

theorem Mirrors.readOnce (h : Mirrors related) (hst : related s t) (n : Nat) :
    Alike related (readOnce s n) (readOnce t n) := by
  rw [Source.readOnce, Source.readOnce, h.left s t hst]
  exact h.readThrough hst _ n

theorem Mirrors.readRest (h : Mirrors related) (hst : related s t) (reading : String) (n rounds : Nat)
    (got : ByteArray) :
    Alike related (readRest reading n rounds got s) (readRest reading n rounds got t) := by
  induction rounds generalizing s t got with
  | zero => exact .pair hst
  | succ rounds ih =>
      simp only [Source.readRest]
      split
      · refine (h.readOnce hst _).cases fun answer s t hst => ?_
        cases answer with
        | error fault => exact .pair hst
        | ok bytes =>
            dsimp only
            split
            · exact .pair hst
            · exact ih hst _
      · exact .pair hst

theorem Mirrors.readExactly (h : Mirrors related) (hst : related s t) (reading : String) (n : Nat) :
    Alike related (readExactly reading s n) (readExactly reading t n) :=
  h.readRest hst reading n _ _

end Mirrors

section Parallel

variable {σ τ α β : Type} {related : σ → τ → Prop}

-- Readings that do alike in related states.
def Parallel (related : σ → τ → Prop) (p : ExceptT Fault (StateM σ) α)
    (q : ExceptT Fault (StateM τ) α) : Prop :=
  ∀ s t, related s t → Alike related (p s) (q t)

theorem Parallel.pure (a : α) : Parallel related (Pure.pure a) (Pure.pure a) :=
  fun _ _ hst => .pair hst

theorem Parallel.ofExcept (answer : Except Fault α) :
    Parallel related (liftM answer) (liftM answer) := by
  intro s t hst
  cases answer <;> exact .pair hst

theorem Parallel.bind {p : ExceptT Fault (StateM σ) α} {q : ExceptT Fault (StateM τ) α}
    {next : α → ExceptT Fault (StateM σ) β} {next' : α → ExceptT Fault (StateM τ) β}
    (h : Parallel related p q) (hnext : ∀ a, Parallel related (next a) (next' a)) :
    Parallel related (p >>= next) (q >>= next') := by
  intro s t hst
  show Alike related ((ExceptT.bindCont next (p s).1 : StateM σ _) (p s).2)
    ((ExceptT.bindCont next' (q t).1 : StateM τ _) (q t).2)
  refine (h s t hst).cases fun answer s t hst => ?_
  cases answer with
  | ok a => exact hnext a s t hst
  | error fault => exact .pair hst

end Parallel

end Unpack.Source

namespace Unpack.Deflate.DecodedStream

open Source (Alike Mirrors)

variable {σ τ : Type} {related : σ → τ → Prop}

-- The same decoder over related sources.
inductive Over (related : σ → τ → Prop) : DecodedStream σ → DecodedStream τ → Prop where
  | mk (source : σ) (other : τ) (decoder : Decoder) (ended : Bool) (h : related source other) :
      Over related ⟨source, decoder, ended⟩ ⟨other, decoder, ended⟩

variable [Source σ] [Source τ] {s : DecodedStream σ} {t : DecodedStream τ}

theorem Over.fill (h : Over related s t) (hmirrors : Mirrors related) :
    Alike (Over related) s.fill t.fill := by
  cases h with
  | mk source other decoder ended h =>
      simp only [DecodedStream.fill, readSize]
      refine (hmirrors.readOnce h _).cases fun answer source other h => ?_
      cases answer with
      | error fault => exact .pair (.mk source other decoder ended h)
      | ok bytes =>
          dsimp only
          split
          · exact .pair (.mk source other decoder true h)
          · exact .pair (.mk source other (decoder.feed bytes) ended h)

theorem Over.readRounds (h : Over related s t) (hmirrors : Mirrors related) (n rounds : Nat) :
    Alike (Over related) (s.readRounds n rounds) (t.readRounds n rounds) := by
  induction rounds generalizing s t with
  | zero => exact .pair h
  | succ rounds ih =>
      cases h with
      | mk source other decoder ended h =>
          simp only [DecodedStream.readRounds]
          obtain ⟨answer, decoder⟩ := decoder.read n
          have hover := Over.mk source other decoder ended h
          cases answer with
          | error fault => exact .pair hover
          | ok bytes =>
              dsimp only
              split
              · exact .pair hover
              · split
                · exact .pair hover
                · split
                  · exact .pair hover
                  · refine (hover.fill hmirrors).cases fun answer s t hover => ?_
                    cases answer with
                    | error fault => exact .pair hover
                    | ok _ => exact ih hover

-- Streams of decoded bytes pass on what their sources have in common.
theorem mirrors (h : Mirrors related) : Mirrors (Over related) := by
  constructor
  · intro s t hover
    cases hover with
    | mk source other decoder ended hrelated =>
        exact congrArg (fun left => decoder.capacity + 258 * (8 * (_ * left)))
          (h.left source other hrelated)
  · intro s t n hover
    show Alike _ (s.read n) (t.read n)
    rw [DecodedStream.read, DecodedStream.read]
    split
    · exact .pair hover
    · have hleft : Source.left s.source = Source.left t.source := by
        cases hover with
        | mk source other decoder ended hrelated => exact h.left source other hrelated
      rw [hleft]
      exact hover.readRounds h n _

end Unpack.Deflate.DecodedStream
