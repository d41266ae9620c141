import Unpack.Deflate.DecodedStream
import Unpack.Proofs.Deflate.OneShot
import Unpack.Proofs.Source.Script

namespace Unpack.Deflate

open Reference
open Source (Steady Asked Once)

-- The data is one whole raw stream, with nothing behind it.
def DecodesWhole (data out : ByteArray) : Prop :=
  ∃ s, Decoder.raw.decodeAll data = (.ok out, s) ∧ s.unread.size = 0

-- Where a stream ends, whole bytes are left.
theorem unread_of_ends {preset data unread : List UInt8} {consumed : Nat} {t : State}
    (hends : blocksToEnd .raw ⟨Bits.ofBytes data, consumed, preset, preset.length⟩ = .ok () t)
    (hunread : unread = Bits.toBytes (t.bits.drop (t.bits.length % 8))) :
    ∃ front, data = front ++ unread ∧ t.bits = Bits.ofBytes unread ∧
      inflate preset (Bits.ofBytes front) = some (t.output, []) := by
  obtain ⟨front, back, hdata, hbits, hinflate⟩ := inflate_of_blocksToEnd hends
  rw [blocksToEnd_aligned hends, List.drop_zero, hbits, Bits.toBytes_ofBytes] at hunread
  subst hunread
  exact ⟨front, hdata, hbits, hinflate⟩

theorem decodesWhole_iff (data out : ByteArray) :
    DecodesWhole data out ↔
      inflate [] (Bits.ofBytes data.data.toList) = some (out.data.toList, []) := by
  have hdecoded := (Decoder.new_stands .raw).decodeAll rfl data
  have hseen : ((Decoder.new .raw).feed data).seen 0 [] =
      .start [] (Bits.ofBytes data.data.toList) := by
    rw [Decoder.seen_feed, Decoder.seen_new]
    rfl
  have hraw : stream Settings.raw.format = blocksToEnd .raw := rfl
  rw [DecodesWhole, Decoder.raw, inflate_eq_some_iff]
  generalize (Decoder.new .raw).decodeAll data = result at hdecoded
  cases hdecoded with
  | failed fault s hfails =>
      rw [hseen, hraw] at hfails
      constructor
      · rintro ⟨s, h, -⟩
        cases h
      · rintro ⟨t, hstream, -⟩
        rw [hstream] at hfails
        cases hfails
  | ended bytes s t hends hout hunread =>
      rw [hseen, hraw] at hends
      obtain ⟨front, -, hbits, -⟩ := unread_of_ends hends hunread
      constructor
      · rintro ⟨s, h, hnone⟩
        cases h
        have hnil : s.unread.data.toList = [] := List.eq_nil_of_length_eq_zero hnone
        refine ⟨t, hends, hout.symm, ?_⟩
        rw [hbits, hnil]
        rfl
      · rintro ⟨t', hstream, hsame, hrest⟩
        cases hends.symm.trans hstream
        refine ⟨s, ?_, ?_⟩
        · rw [ByteArray.ext (Array.toList_inj.mp (hout.trans hsame))]
        · have hlength := congrArg List.length (hbits.symm.trans hrest)
          rw [Bits.length_ofBytes, Bits.Reader.length_toList, List.length_nil] at hlength
          omega

namespace Decoder

variable {s : Decoder} {preset : Nat} {history : List UInt8} {q : Decoding Unit}

theorem drainAll_extends {sizes : Nat → Nat} {calls i : Nat} {out final : List UInt8} {s' : Decoder}
    (h : drainAll sizes calls i out s = some (.ok final, s')) : out <+: final := by
  induction calls generalizing i out s with
  | zero => cases h
  | succ calls ih =>
      rw [drainAll] at h
      split at h
      · cases h
      · split at h
        · cases h
          exact List.prefix_refl _
        · exact (List.prefix_append _ _).trans (ih h)

-- What was handed out is a part of all the output there is.
theorem Stands.given_prefix (h : s.Stands preset history q) {all : Summary}
    (hends : verdict (q (s.seen preset history)) = .ok all) :
    s.given preset history <+: all.output := by
  have hsizes : ∀ i : Nat, 0 < (fun _ => 1 : Nat → Nat) i := fun _ => Nat.one_pos
  obtain ⟨result, hdrained, hcalls⟩ := h.drainAll hsizes 0
  have hdrain := hcalls _ (Nat.lt_succ_self _)
  cases hdrained with
  | failed fault s' u hleads =>
      rw [hleads.eq] at hends
      cases hends
  | dry s' longer q' hrests hleads hsettings =>
      have hextends := drainAll_extends hdrain
      have hsummary := hrests.summary_eq
      rw [← hleads.eq] at hsummary
      have houtput : s'.given preset longer = all.output :=
        congrArg Summary.output (Except.ok.inj (hsummary.trans hends))
      exact houtput ▸ hextends

end Decoder

namespace DecodedStream

variable {σ : Type} {valid : σ → Prop} {rest : σ → List UInt8}
  {all handed : List UInt8} {r : DecodedStream σ}

-- The decoder was fed a front of all the bytes, and the source has the others.
structure Stands (valid : σ → Prop) (rest : σ → List UInt8) (all handed fed history : List UInt8)
    (q : Decoding Unit) (r : DecodedStream σ) : Prop where
  valid : valid r.source
  decoder : r.decoder.Stands 0 history q
  leads : Leads (blocksToEnd .raw) (.start [] (Bits.ofBytes fed)) q (r.decoder.seen 0 history)
  given : r.decoder.given 0 history = handed
  split : fed ++ rest r.source = all
  ended : r.ended = true → rest r.source = []

-- So far `handed` was handed out.
def Holds (valid : σ → Prop) (rest : σ → List UInt8) (all handed : List UInt8)
    (r : DecodedStream σ) : Prop :=
  ∃ fed history q, Stands valid rest all handed fed history q r

theorem new_holds {source : σ} (hvalid : valid source) (readSize : Nat) :
    Holds valid rest (rest source) [] (.new source ⟨.raw, readSize⟩) :=
  ⟨[], [], blocksToEnd .raw, hvalid, Decoder.new_stands ⟨.raw, readSize⟩, Leads.refl _ _, rfl, rfl,
    fun h => Bool.noConfusion h⟩

-- What a front of the bytes leads to, all of them lead to.
theorem leads_all {fed back : List UInt8} {p : Decoding Unit} {t : State}
    (h : Leads (blocksToEnd .raw) (.start [] (Bits.ofBytes fed)) p t) (hsplit : fed ++ back = all) :
    blocksToEnd .raw (.start [] (Bits.ofBytes all)) = p (t.feed (Bits.ofBytes back)) := by
  rw [← (h.feed _ (Decoder.length_ofBytes_mod back)).eq, ← hsplit, Bits.ofBytes_append]
  rfl

theorem Stands.awaitedDictionary {fed history : List UInt8} {q : Decoding Unit}
    (h : Stands valid rest all handed fed history q r) : r.decoder.awaitedDictionary = none := by
  cases hawaited : r.decoder.awaitedDictionary with
  | none => rfl
  | some id =>
      have hstops := h.leads.eq
      have hresidual := h.decoder.engine.residual
      rw [Decoder.phase_of_awaitedDictionary hawaited] at hresidual
      rw [Decoder.residual_dictionary hresidual] at hstops
      exact absurd hstops (blocksToEnd_never _ _ _)

-- Nothing is handed out that the stream does not go on with, however it does.
theorem Holds.handed_prefix (h : Holds valid rest all handed r) {more : List UInt8} {t : State}
    (hends : blocksToEnd .raw (.start [] (Bits.ofBytes (all ++ more))) = .ok () t ∨
      blocksToEnd .raw (.start [] (Bits.ofBytes (all ++ more))) = .error .starved t) :
    handed <+: t.output := by
  obtain ⟨fed, history, q, hstands⟩ := h
  have hsplit : fed ++ (rest r.source ++ more) = all ++ more := by
    rw [← List.append_assoc, hstands.split]
  rw [leads_all hstands.leads hsplit] at hends
  have hfed := hstands.decoder.feed ⟨(rest r.source ++ more).toArray⟩
  have hseen := Decoder.seen_feed r.decoder 0 history ⟨(rest r.source ++ more).toArray⟩
  rw [← hseen] at hends
  rw [← hstands.given]
  rcases hends with hends | hends
  · exact hfed.given_prefix (congrArg Decoder.verdict hends)
  · exact hfed.given_prefix (congrArg Decoder.verdict hends)

-- Where the decoder ends, the whole stream was handed out, and what follows it
-- is still there.
theorem Holds.finished (h : Holds valid rest all handed r) (hfinished : r.decoder.isFinished = true) :
    ∃ front, all = front ++ (r.decoder.unread.data.toList ++ rest r.source) ∧
      inflate [] (Bits.ofBytes front) = some (handed, []) := by
  obtain ⟨fed, history, q, hstands⟩ := h
  obtain ⟨hphase, hempty⟩ := Decoder.phase_of_isFinished hfinished
  have hresidual := hstands.decoder.engine.residual
  rw [hphase] at hresidual
  have hends := hstands.leads.eq
  rw [Decoder.residual_finished hresidual] at hends
  obtain ⟨front, hfed, -, hinflate⟩ := unread_of_ends hends (Decoder.unread_eq r.decoder 0 history)
  refine ⟨front, ?_, ?_⟩
  · rw [← List.append_assoc, ← hfed, hstands.split]
  · rw [← hstands.given, (hstands.decoder.given_output hempty).1]
    exact hinflate

-- The last `floor` bytes are not needed to tell how the stream goes on.
def Enough (all : List UInt8) (floor : Nat) : Prop :=
  ∀ fed back, all = fed ++ back → back.length ≤ floor →
    ∀ t, blocksToEnd .raw (.start [] (Bits.ofBytes fed)) ≠ .error .starved t

variable {front out tail : List UInt8}

-- All bytes of a stream are needed, and none behind it.
theorem enough_of_inflate (hinflate : inflate [] (Bits.ofBytes front) = some (out, [])) :
    Enough (front ++ tail) tail.length := by
  intro fed back hsplit hfew t hstarves
  have hlength := congrArg List.length hsplit
  rw [List.length_append, List.length_append] at hlength
  have hprefix : front <+: fed :=
    List.prefix_of_prefix_length_le (List.prefix_append front tail)
      ⟨back, hsplit.symm⟩ (by omega)
  obtain ⟨more, rfl⟩ := hprefix
  obtain ⟨u, hends, -⟩ := blocksToEnd_of_inflate hinflate 0 more
  cases hends.symm.trans hstarves

theorem Holds.finished_eq (h : Holds valid rest (front ++ tail) handed r)
    (hinflate : inflate [] (Bits.ofBytes front) = some (out, []))
    (hfinished : r.decoder.isFinished = true) :
    handed = out ∧ r.decoder.unread.data.toList ++ rest r.source = tail := by
  obtain ⟨front', hsplit, hinflate'⟩ := h.finished hfinished
  obtain ⟨t, hends, hbits, rfl⟩ := blocksToEnd_of_inflate hinflate 0 tail
  obtain ⟨u, hends', hbits', rfl⟩ :=
    blocksToEnd_of_inflate hinflate' 0 (r.decoder.unread.data.toList ++ rest r.source)
  rw [hsplit] at hends
  cases hends.symm.trans hends'
  refine ⟨rfl, ?_⟩
  rw [← Bits.toBytes_ofBytes (_ ++ _), ← hbits', hbits, Bits.toBytes_ofBytes]

variable [Source σ] {n : Nat}

-- What a call comes to.
inductive Reads (valid : σ → Prop) (rest : σ → List UInt8) (all handed : List UInt8)
    (r : DecodedStream σ) : Except Fault ByteArray × DecodedStream σ → Prop where
  | handed (bytes : ByteArray) (r' : DecodedStream σ) (hsome : bytes.size ≠ 0)
      (hholds : Holds valid rest all (handed ++ bytes.data.toList) r')
      (hleft : Source.left r'.source ≤ Source.left r.source)
      (hasked : ∀ floor, Enough all floor → Asked rest floor r.source r'.source) :
      Reads valid rest all handed r (.ok bytes, r')
  | finished (r' : DecodedStream σ) (hfinished : r'.decoder.isFinished = true)
      (hholds : Holds valid rest all handed r')
      (hleft : Source.left r'.source ≤ Source.left r.source)
      (hasked : ∀ floor, Enough all floor → Asked rest floor r.source r'.source) :
      Reads valid rest all handed r (.ok ByteArray.empty, r')
  | starved (r' : DecodedStream σ) (t : State) (hended : r'.ended = true)
      (hholds : Holds valid rest all handed r')
      (hstarves : blocksToEnd .raw (.start [] (Bits.ofBytes all)) = .error .starved t)
      (houtput : t.output = handed)
      (hasked : ∀ floor, Enough all floor → Asked rest floor r.source r'.source) :
      Reads valid rest all handed r (.error (.unexpectedEnd "deflate stream"), r')
  | interrupted (fault : Fault) (r' : DecodedStream σ) (hmore : r.ended = false)
      (hholds : Holds valid rest all handed r')
      (hleft : Source.left r'.source < Source.left r.source)
      (hasked : ∀ floor, Enough all floor → Asked rest floor r.source r'.source) :
      Reads valid rest all handed r (.error fault, r')
  | failed (fault : Fault) (r' : DecodedStream σ) (t : State)
      (hfails : blocksToEnd .raw (.start [] (Bits.ofBytes all)) = .error (.fault fault) t) :
      Reads valid rest all handed r (.error fault, r')

-- A stream that is not corrupted.
def Sound (all : List UInt8) : Prop :=
  ∀ fault t, blocksToEnd .raw (.start [] (Bits.ofBytes all)) ≠ .error (.fault fault) t

theorem Reads.holds {answer : Except Fault ByteArray} {r' : DecodedStream σ}
    (h : Reads valid rest all handed r (answer, r')) (hsound : Sound all) :
    Holds valid rest all (handed ++ Source.brought answer) r' := by
  have hsame : handed ++ [] = handed := List.append_nil handed
  cases h with
  | handed bytes r' hsome hholds hleft hasked => exact hholds
  | finished r' hfinished hholds hleft hasked => exact hsame.symm ▸ hholds
  | starved r' t hended hholds hstarves houtput hasked => exact hsame.symm ▸ hholds
  | interrupted fault r' hmore hholds hleft hasked => exact hsame.symm ▸ hholds
  | failed fault r' t hfails => exact absurd hfails (hsound fault t)

theorem Reads.asked {answer : Except Fault ByteArray} {r' : DecodedStream σ}
    (h : Reads valid rest all handed r (answer, r')) (hsound : Sound all) (floor : Nat)
    (henough : Enough all floor) : Asked rest floor r.source r'.source := by
  cases h with
  | handed bytes r' hsome hholds hleft hasked => exact hasked floor henough
  | finished r' hfinished hholds hleft hasked => exact hasked floor henough
  | starved r' t hended hholds hstarves houtput hasked => exact hasked floor henough
  | interrupted fault r' hmore hholds hleft hasked => exact hasked floor henough
  | failed fault r' t hfails => exact absurd hfails (hsound fault t)

theorem Reads.after {r₁ : DecodedStream σ} {result : Except Fault ByteArray × DecodedStream σ}
    (h : Reads valid rest all handed r₁ result) (hmore : r.ended = false)
    (hleft : Source.left r₁.source ≤ Source.left r.source)
    (hasked : ∀ floor, Enough all floor → Asked rest floor r.source r₁.source) :
    Reads valid rest all handed r result := by
  have hlater : ∀ {last}, (∀ floor, Enough all floor → Asked rest floor r₁.source last) →
      ∀ floor, Enough all floor → Asked rest floor r.source last :=
    fun hlast floor henough => (hasked floor henough).trans (hlast floor henough)
  cases h with
  | handed bytes r' hsome hholds hless h =>
      exact .handed bytes r' hsome hholds (Nat.le_trans hless hleft) (hlater h)
  | finished r' hfinished hholds hless h =>
      exact .finished r' hfinished hholds (Nat.le_trans hless hleft) (hlater h)
  | starved r' t hended hholds hstarves houtput h =>
      exact .starved r' t hended hholds hstarves houtput (hlater h)
  | interrupted fault r' _ hholds hless h =>
      exact .interrupted fault r' hmore hholds (Nat.lt_of_lt_of_le hless hleft) (hlater h)
  | failed fault r' t hfails => exact .failed fault r' t hfails

-- The decoder is out of bits: the source is asked, unless it has ended.
inductive Fills (valid : σ → Prop) (rest : σ → List UInt8) (all handed : List UInt8)
    (r : DecodedStream σ) : Except Fault Unit × DecodedStream σ → Prop where
  | filled (r' : DecodedStream σ) (hholds : Holds valid rest all handed r')
      (hleft : Source.left r'.source ≤ Source.left r.source)
      (hless : r'.ended = false → Source.left r'.source < Source.left r.source)
      (hasked : ∀ floor, Enough all floor → Asked rest floor r.source r'.source) :
      Fills valid rest all handed r (.ok (), r')
  | interrupted (fault : Fault) (r' : DecodedStream σ) (hholds : Holds valid rest all handed r')
      (hleft : Source.left r'.source < Source.left r.source)
      (hasked : ∀ floor, Enough all floor → Asked rest floor r.source r'.source) :
      Fills valid rest all handed r (.error fault, r')

theorem Stands.fill {fed history : List UInt8} {q : Decoding Unit}
    (h : Stands valid rest all handed fed history q r) (hsteady : Steady valid rest)
    (hmore : r.ended = false) {t : State}
    (hstarves : blocksToEnd .raw (.start [] (Bits.ofBytes fed)) = .error .starved t) :
    Fills valid rest all handed r r.fill := by
  have honce := hsteady.readOnce h.valid (show 0 < r.readSize from
    Nat.lt_of_lt_of_le Nat.one_pos (Nat.le_max_right _ _))
  have hasks : ∀ floor, Enough all floor → floor < (rest r.source).length := by
    intro floor henough
    by_contra hfew
    exact henough fed _ h.split.symm (Nat.le_of_not_lt hfew) t hstarves
  obtain ⟨source, decoder, ended⟩ := r
  obtain rfl : ended = false := hmore
  rw [fill]
  dsimp only at honce hasks ⊢
  generalize Source.readOnce source _ = result at honce
  cases honce with
  | brings bytes next hvalid hbrings hasked =>
      have hsplit := hbrings.split
      dsimp only
      by_cases hnone : bytes.size = 0
      · rw [if_pos hnone]
        have hnil : bytes.data.toList = [] := List.eq_nil_of_length_eq_zero hnone
        have hlast : rest next = [] := by
          rw [hnil, List.nil_append] at hsplit
          rw [← hsplit, hbrings.ended hnone]
        refine .filled _ ⟨fed, history, q, hvalid, h.decoder, h.leads, h.given, ?_, fun _ => hlast⟩
          hbrings.left_le (fun h => Bool.noConfusion h) fun floor henough =>
            hasked floor (hasks floor henough)
        rw [hlast, ← hbrings.ended hnone]
        exact h.split
      · rw [if_neg hnone]
        have hleads := h.leads.feed _ (Decoder.length_ofBytes_mod bytes.data.toList)
        have hfed : State.feed (.start [] (Bits.ofBytes fed)) (Bits.ofBytes bytes.data.toList) =
            .start [] (Bits.ofBytes (fed ++ bytes.data.toList)) := by
          rw [Bits.ofBytes_append]
          rfl
        rw [hfed, ← Decoder.seen_feed] at hleads
        refine .filled _ ⟨fed ++ bytes.data.toList, history, q, hvalid, h.decoder.feed bytes, hleads,
          h.given, ?_, fun h => Bool.noConfusion h⟩ hbrings.left_le (fun _ => hbrings.left_lt hnone)
          fun floor henough => hasked floor (hasks floor henough)
        rw [List.append_assoc, ← hsplit]
        exact h.split
  | spares fault next hvalid hspares hasked =>
      refine .interrupted fault _ ⟨fed, history, q, hvalid, h.decoder, h.leads, h.given, ?_,
        fun h => Bool.noConfusion h⟩ hspares.left_lt fun floor henough =>
          hasked floor (hasks floor henough)
      rw [hspares.same]
      exact h.split

theorem Holds.readRounds (h : Holds valid rest all handed r) (hsteady : Steady valid rest)
    (hn : n ≠ 0) (rounds : Nat)
    (hrounds : (if r.ended then 0 else Source.left r.source + 1) < rounds) :
    Reads valid rest all handed r (readRounds n rounds r) := by
  induction rounds generalizing r with
  | zero => omega
  | succ rounds ih =>
      obtain ⟨fed, history, q, hstands⟩ := h
      obtain ⟨source, decoder, ended⟩ := r
      have hread := hstands.decoder.read n
      rw [DecodedStream.readRounds]
      dsimp only at hread hrounds
      generalize decoder.read n = result at hread
      cases hread with
      | failed fault s' t hleads =>
          exact .failed fault _ _ (leads_all (hstands.leads.trans hleads) hstands.split)
      | returned new bytes s' longer q' hstands' hleads hfollows hsettings hbytes hgiven hend =>
          obtain rfl : bytes.data.toList = new := hbytes
          have hnext : Stands valid rest all (handed ++ bytes.data.toList) fed longer q'
              ⟨source, s', ended⟩ :=
            ⟨hstands.valid, hstands', hstands.leads.trans hleads, hstands.given ▸ hgiven,
              hstands.split, hstands.ended⟩
          dsimp only
          by_cases hsome : bytes.size ≠ 0
          · rw [if_pos (Or.inl hsome)]
            exact .handed bytes _ hsome ⟨fed, longer, q', hnext⟩ (Nat.le_refl _) fun _ _ => .refl _
          · have hnil : bytes.data.toList = [] := List.eq_nil_of_length_eq_zero (not_not.mp hsome)
            rw [hnil, List.append_nil] at hnext
            cases hfinished : s'.isFinished with
            | true =>
                rw [if_pos (Or.inr rfl)]
                have hempty : bytes = ByteArray.empty :=
                  ByteArray.ext (Array.toList_inj.mp hnil)
                rw [hempty]
                exact .finished _ hfinished ⟨fed, longer, q', hnext⟩ (Nat.le_refl _) fun _ _ => .refl _
            | false =>
                rw [if_neg (by rw [not_or]; exact ⟨hsome, Bool.false_ne_true⟩)]
                have hstops := hnext.leads.eq
                have hhalted := hend.resolve_left (by omega)
                have hawaited : s'.awaitedDictionary = none := hnext.awaitedDictionary
                rw [Decoder.starves_of_halted hhalted hfinished hawaited] at hstops
                simp only [hawaited]
                cases ended with
                | true =>
                    have hall : fed = all := by
                      rw [← hstands.split, hstands.ended rfl, List.append_nil]
                    refine .starved _ _ rfl ⟨fed, longer, q', hnext⟩ (hall ▸ hstops) ?_
                      fun _ _ => .refl _
                    rw [← (hstands'.given_output hhalted.1).1]
                    exact hnext.given
                | false =>
                    have hfills := hnext.fill hsteady rfl hstops
                    generalize fill (⟨source, s', false⟩ : DecodedStream σ) = filled at hfills
                    cases hfills with
                    | filled r' hholds hleft hless hasked =>
                        refine (ih hholds ?_).after rfl hleft hasked
                        simp only [Bool.false_eq_true, if_false] at hrounds
                        cases hended : r'.ended with
                        | true => exact Nat.lt_of_le_of_lt (Nat.zero_le _) (Nat.lt_of_succ_lt_succ hrounds)
                        | false => exact Nat.lt_of_le_of_lt (hless hended) (Nat.lt_of_succ_lt_succ hrounds)
                    | interrupted fault r' hholds hleft hasked =>
                        exact .interrupted fault r' rfl hholds hleft hasked

theorem Holds.read (h : Holds valid rest all handed r) (hsteady : Steady valid rest) (hn : 0 < n) :
    Reads valid rest all handed r (Source.read r n) := by
  have hpositive : n ≠ 0 := Nat.ne_of_gt hn
  have hread : Source.read r n = DecodedStream.readRounds n (Source.left r.source + 2) r :=
    if_neg hpositive
  rw [hread]
  apply h.readRounds hsteady hpositive
  split <;> omega

end DecodedStream

end Unpack.Deflate
