import Unpack.Proofs.Deflate.DecodedRun
import Unpack.Proofs.Gzip.Header
import Unpack.Proofs.Gzip.Trailer

namespace Unpack.Gzip.Member

open Bytes (littleEndian)
open Source (Steady Breaks after answer gathered)

variable {σ : Type} {valid : σ → Prop} {rest : σ → List UInt8} {out leftover tail : List UInt8}
  {m : Member σ}

-- What the trailer is found to be, once it is there.
inductive Verdict (valid : σ → Prop) (rest : σ → List UInt8) (out tail : List UInt8) :
    Except Fault ByteArray × Member σ → Prop where
  | right (m' : Member σ) (hright : HasTrailer out tail) (hverified : m'.verified = true) :
      Verdict valid rest out tail (.ok ByteArray.empty, m')
  | wrong (fault : Fault) (m' : Member σ) (leftover : List UInt8) (hwrong : ¬HasTrailer out tail)
      (hformat : fault.isFormat = true) (hawaits : Awaits valid out leftover m')
      (hfront : leftover <+: tail)
      (hrest : (rest m'.stream.source).length ≤ tail.length - trailerSize) :
      Verdict valid rest out tail (.error fault, m')

theorem Verdict.of_right {result : Except Fault ByteArray × Member σ}
    (h : Verdict valid rest out tail result) (hright : HasTrailer out tail) :
    result.1 = .ok ByteArray.empty ∧ result.2.verified = true := by
  cases h with
  | right m' htrailer hverified => exact ⟨rfl, hverified⟩
  | wrong fault m' leftover hwrong => exact absurd hright hwrong

theorem Verdict.of_wrong {result : Except Fault ByteArray × Member σ}
    (h : Verdict valid rest out tail result) (hwrong : ¬HasTrailer out tail) :
    ∃ fault, result.1 = .error fault ∧ fault.isFormat = true ∧
      Awaits valid out result.2.stream.decoder.unread.data.toList result.2 ∧
      result.2.stream.decoder.unread.data.toList <+: tail ∧
      (rest result.2.stream.source).length ≤ tail.length - trailerSize := by
  cases h with
  | right m' hright hverified => exact absurd hright hwrong
  | wrong fault m' leftover hnone hformat hawaits hfront hrest =>
      refine ⟨fault, rfl, hformat, ?_, ?_, hrest⟩
      · rw [hawaits.unread]
        exact hawaits
      · rw [hawaits.unread]
        exact hfront

variable [Source σ]

section Calls

variable {whole handed : List UInt8} {n : Nat}

-- The stream comes, or has ended with all bytes behind it still there.
inductive Stage (valid : σ → Prop) (rest : σ → List UInt8) (whole out tail : List UInt8) :
    (handed : List UInt8) → Member σ → Prop where
  | streaming (handed : List UInt8) (m : Member σ)
      (hstream : m.stream.Holds valid rest (whole ++ tail) handed) (hsums : Sums handed m) :
      Stage valid rest whole out tail handed m
  | awaiting (leftover : List UInt8) (m : Member σ) (hawaits : Awaits valid out leftover m)
      (hintact : leftover ++ rest m.stream.source = tail) :
      Stage valid rest whole out tail out m

-- A read fails after some bytes of the trailer, but not after all.
def Torn (valid : σ → Prop) (rest : σ → List UInt8) (tail : List UInt8) : Prop :=
  ∃ taken back, tail = taken ++ back ∧ 0 < taken.length ∧ taken.length < trailerSize ∧
    Breaks valid rest back

-- What a call comes to before the verdict.
inductive Advances (valid : σ → Prop) (rest : σ → List UInt8) (whole out tail handed : List UInt8)
    (m : Member σ) : Except Fault ByteArray × Member σ → Prop where
  | handed (bytes : ByteArray) (m' : Member σ) (hsome : bytes.size ≠ 0)
      (hstage : Stage valid rest whole out tail (handed ++ bytes.data.toList) m')
      (hfits : handed.length + bytes.size ≤ out.length)
      (hleft : Source.left m'.stream.source ≤ Source.left m.stream.source) :
      Advances valid rest whole out tail handed m (.ok bytes, m')
  | interrupted (fault : Fault) (m' : Member σ) (hstage : Stage valid rest whole out tail handed m')
      (hleft : Source.left m'.stream.source < Source.left m.stream.source) :
      Advances valid rest whole out tail handed m (.error fault, m')
  | judged (result : Except Fault ByteArray × Member σ) (hall : handed = out)
      (hverdict : Verdict valid rest out tail result) :
      Advances valid rest whole out tail handed m result
  | torn (result : Except Fault ByteArray × Member σ) (htorn : Torn valid rest tail) :
      Advances valid rest whole out tail handed m result

theorem Awaits.advances {m₁ : Member σ} (h : Awaits valid out leftover m₁)
    (hsteady : Steady valid rest) (hintact : leftover ++ rest m₁.stream.source = tail)
    (hleft : Source.left m₁.stream.source ≤ Source.left m.stream.source) :
    Advances valid rest whole out tail out m m₁.verify := by
  have hattempt := h.verify hsteady
  have hlength := congrArg List.length hintact
  rw [List.length_append] at hlength
  generalize m₁.verify = result at hattempt
  cases hattempt with
  | right m' hright hverified => exact .judged _ rfl (.right m' (hintact ▸ hright) hverified)
  | wrong fault m' hwrong hformat hawaits hrest =>
      apply Advances.judged _ rfl
      refine .wrong fault m' leftover (hintact ▸ hwrong) hformat hawaits ⟨_, hintact⟩ ?_
      rw [hrest, List.length_drop]
      omega
  | broken fault m' taken hsplit hfew hawaits hless hbreaks =>
      by_cases hnone : taken = []
      · rw [hnone, List.nil_append] at hsplit
        exact .interrupted fault m' (.awaiting leftover m' hawaits (hsplit ▸ hintact))
          (Nat.lt_of_lt_of_le hless hleft)
      · refine .torn _ ⟨leftover ++ taken, _, ?_, ?_, ?_, hbreaks⟩
        · rw [List.append_assoc, ← hsplit, hintact]
        · have hpositive := List.length_pos_iff.mpr hnone
          rw [List.length_append]
          omega
        · rw [List.length_append]
          exact hfew

-- A call before anything is checked.
theorem read_eq (hunverified : m.verified = false) (hn : 0 < n) :
    Source.read m n =
      match Source.read m.stream n with
      | (.error fault, stream) => (.error fault, { m with stream := stream })
      | (.ok bytes, stream) =>
          if bytes.size = 0 then verify { m with stream := stream }
          else (.ok bytes, ⟨m.header, stream, m.crc.update bytes, m.size + bytes.size, m.verified⟩) := by
  have hopen : ¬(n = 0 ∨ m.verified = true) := by
    rintro (hnone | hverified)
    · omega
    · rw [hunverified] at hverified
      cases hverified
  exact if_neg hopen

-- Once the stream has ended, a call does nothing but check the trailer.
theorem Awaits.read (h : Awaits valid out leftover m) (hn : 0 < n) :
    ∃ m₁ : Member σ, Source.read m n = m₁.verify ∧ Awaits valid out leftover m₁ ∧
      m₁.stream.source = m.stream.source := by
  obtain ⟨r', hread, hsource, hfinished, hunread⟩ :=
    Deflate.DecodedStream.read_of_finished h.finished hn
  rw [read_eq h.sums.unverified hn, hread]
  exact ⟨_, rfl, ⟨hsource ▸ h.valid, hfinished, hunread ▸ h.unread, h.sums.crc, h.sums.size,
    h.sums.unverified⟩, hsource⟩

theorem Stage.read (h : Stage valid rest whole out tail handed m) (hsteady : Steady valid rest)
    (hinflate : Deflate.Reference.inflate [] (Bits.ofBytes whole) = some (out, [])) (hn : 0 < n) :
    Advances valid rest whole out tail handed m (Source.read m n) := by
  cases h with
  | streaming handed m hstream hsums =>
      rw [read_eq hsums.unverified hn]
      have hreads := hstream.read hsteady hn
      obtain ⟨t, hends, -, hout⟩ := Deflate.Reference.blocksToEnd_of_inflate hinflate 0 tail
      generalize Source.read m.stream n = result at hreads
      cases hreads with
      | handed bytes r' hsome hholds hleft hasked =>
          dsimp only
          rw [if_neg hsome]
          refine .handed bytes _ hsome (.streaming _ _ hholds (hsums.update bytes r')) ?_ hleft
          rw [← List.append_nil (whole ++ tail)] at hends
          have hfits := (hholds.handed_prefix (Or.inl hends)).length_le
          rwa [hout, List.length_append, Bits.Reader.length_toList] at hfits
      | finished r' hfinished hholds hleft hasked =>
          obtain ⟨hall, hintact⟩ := hholds.finished_eq hinflate hfinished
          subst hall
          obtain ⟨fed, history, q, hstands⟩ := hholds
          have hawaits : Awaits valid handed r'.decoder.unread.data.toList { m with stream := r' } :=
            ⟨hstands.valid, hfinished, rfl, hsums.crc, hsums.size, hsums.unverified⟩
          exact hawaits.advances hsteady hintact hleft
      | starved r' u hended hholds hstarves houtput hasked => cases hends.symm.trans hstarves
      | interrupted fault r' hmore hholds hleft hasked =>
          exact .interrupted fault _
            (.streaming _ _ hholds ⟨hsums.crc, hsums.size, hsums.unverified⟩) hleft
      | failed fault r' u hfails => cases hends.symm.trans hfails
  | awaiting leftover m hawaits hintact =>
      obtain ⟨m₁, hread, hagain, hsource⟩ := hawaits.read hn
      rw [hread]
      exact hagain.advances hsteady (by rw [hsource]; exact hintact) (by rw [hsource])

end Calls

section Runs

variable {sizes : Nat → Nat} {whole : List UInt8} {call : Nat}

-- What one call of a run comes to before the verdict.
theorem Stage.spends
    (h : Stage valid rest whole out tail (gathered sizes m call) (after sizes m call))
    (hsteady : Steady valid rest)
    (hinflate : Deflate.Reference.inflate [] (Bits.ofBytes whole) = some (out, []))
    (hsizes : ∀ call, 0 < sizes call) (hsmooth : ¬Torn valid rest tail) :
    (gathered sizes m call = out ∧
      Verdict valid rest out tail (answer sizes m call, after sizes m (call + 1))) ∨
    (Stage valid rest whole out tail (gathered sizes m (call + 1)) (after sizes m (call + 1)) ∧
      answer sizes m call ≠ .ok ByteArray.empty ∧
      out.length - (gathered sizes m (call + 1)).length +
          Source.left (after sizes m (call + 1)).stream.source <
        out.length - (gathered sizes m call).length +
          Source.left (after sizes m call).stream.source) := by
  have hadvances : Advances valid rest whole out tail (gathered sizes m call) (after sizes m call)
      (answer sizes m call, after sizes m (call + 1)) := h.read hsteady hinflate (hsizes call)
  have hgathered : gathered sizes m (call + 1) =
      gathered sizes m call ++ Source.brought (answer sizes m call) := rfl
  rw [hgathered]
  generalize answer sizes m call = outcome at *
  generalize after sizes m (call + 1) = next at *
  cases hadvances with
  | handed bytes m' hsome hstage hfits hleft =>
      refine Or.inr ⟨hstage, fun hnone => ?_, ?_⟩
      · cases hnone
        exact hsome rfl
      · simp only [Source.brought, List.length_append, Bits.Reader.length_toList]
        omega
  | interrupted fault m' hstage hleft =>
      simp only [Source.brought, List.append_nil]
      refine Or.inr ⟨hstage, ?_, by omega⟩
      rintro ⟨⟩
  | judged result hall hverdict => exact Or.inl ⟨hall, hverdict⟩
  | torn result htorn => exact absurd htorn hsmooth

theorem Stage.exists_verdict (h : Stage valid rest whole out tail [] m) (hsteady : Steady valid rest)
    (hinflate : Deflate.Reference.inflate [] (Bits.ofBytes whole) = some (out, []))
    (hsizes : ∀ call, 0 < sizes call) (hsmooth : ¬Torn valid rest tail) :
    ∃ verdict, gathered sizes m verdict = out ∧
      (∀ call, call < verdict → answer sizes m call ≠ .ok ByteArray.empty) ∧
      Verdict valid rest out tail (answer sizes m verdict, after sizes m (verdict + 1)) := by
  have hspends := fun (call : Nat)
      (h : Stage valid rest whole out tail (gathered sizes m call) (after sizes m call)) =>
    h.spends hsteady hinflate hsizes hsmooth
  obtain ⟨verdict, hverdict, hbefore⟩ := Source.exists_first_call
    (fun call => Stage valid rest whole out tail (gathered sizes m call) (after sizes m call) →
      gathered sizes m call = out ∧
        Verdict valid rest out tail (answer sizes m call, after sizes m (call + 1)))
    (fun call => out.length - (gathered sizes m call).length +
      Source.left (after sizes m call).stream.source) fun call => by
        by_cases hstage : Stage valid rest whole out tail (gathered sizes m call)
            (after sizes m call)
        · rcases hspends call hstage with hverdict | ⟨-, -, hless⟩
          · exact Or.inl fun _ => hverdict
          · exact Or.inr hless
        · exact Or.inl fun hother => absurd hother hstage
  -- Up to the first verdict no call leaves the stage.
  have hstage : ∀ call, call ≤ verdict →
      Stage valid rest whole out tail (gathered sizes m call) (after sizes m call) := by
    intro call hcall
    induction call with
    | zero => exact h
    | succ call ih =>
        rcases hspends call (ih (Nat.le_of_succ_le hcall)) with hearly | ⟨hnext, -⟩
        · exact absurd (fun _ => hearly) (hbefore call hcall)
        · exact hnext
  obtain ⟨hall, hjudged⟩ := hverdict (hstage verdict (Nat.le_refl _))
  refine ⟨verdict, hall, fun call hcall => ?_, hjudged⟩
  rcases hspends call (hstage call (Nat.le_of_lt hcall)) with hearly | ⟨-, hother, -⟩
  · exact absurd (fun _ => hearly) (hbefore call hcall)
  · exact hother

theorem read_of_verified {n : Nat} (h : m.verified = true) :
    Source.read m n = (.ok ByteArray.empty, m) :=
  if_pos (Or.inr h)

-- The end, once announced, is announced again.
theorem answer_of_verified (h : (after sizes m call).verified = true) {later : Nat}
    (hlater : call ≤ later) : answer sizes m later = .ok ByteArray.empty := by
  have hverified : (after sizes m later).verified = true := by
    refine Source.after_keeps (P := fun m : Member σ => m.verified = true) (fun call m h => ?_) h
      hlater
    rw [read_of_verified h]
    exact h
  rw [answer, read_of_verified hverified]

theorem Hopeless.read (h : Hopeless valid rest out leftover m) (hsteady : Steady valid rest)
    {n : Nat} (hn : 0 < n) :
    ∃ fault m', Source.read m n = (.error fault, m') ∧ Hopeless valid rest out leftover m' := by
  obtain ⟨m₁, hread, hagain, hsource⟩ := h.awaits.read hn
  have hattempt := hagain.verify hsteady
  have hnone := h.no_trailer
  have hshort := h.short
  rw [← hsource] at hnone hshort
  rw [hread]
  generalize m₁.verify = result at hattempt
  cases hattempt with
  | right m' hright hverified => exact absurd hright hnone
  | wrong fault m' hwrong hformat hawaits hrest =>
      refine ⟨fault, m', rfl, hawaits, h.wrong, fun hless => ?_⟩
      have hfew := hshort hless
      rw [hrest, List.length_drop]
      omega
  | broken fault m' taken hsplit hfew hawaits hless hbreaks =>
      refine ⟨fault, m', rfl, hawaits, h.wrong, fun hless => ?_⟩
      have hfew := hshort hless
      rw [hsplit, List.length_append] at hfew
      omega

theorem Hopeless.answer (h : Hopeless valid rest out leftover (after sizes m call))
    (hsteady : Steady valid rest) (hsizes : ∀ call, 0 < sizes call) {later : Nat}
    (hlater : call ≤ later) : answer sizes m later ≠ .ok ByteArray.empty := by
  have hhopeless : Hopeless valid rest out leftover (after sizes m later) := by
    refine Source.after_keeps (fun call m h => ?_) h hlater
    obtain ⟨fault, m', hread, hnext⟩ := h.read hsteady (hsizes call)
    rw [hread]
    exact hnext
  obtain ⟨fault, m', hread, -⟩ := hhopeless.read hsteady (hsizes later)
  rw [Source.answer, hread]
  exact nofun

end Runs

section Verdict

variable {sizes : Nat → Nat}

-- What is read is the decoded stream. The end is announced when the trailer
-- behind the stream is that of the bytes read, and from then on; when it is not,
-- a format error is the verdict. No verdict follows a failure in the middle of
-- the trailer, and a wrong trailer stays wrong as long as no later bytes can be
-- taken for another one: the decoder has all of it, or not enough bytes are left.
theorem read_ends_iff_hasTrailer (hsteady : Steady valid rest) {source : σ} (hvalid : valid source)
    (hheader : (ofSource source).1 = .ok m) (hsizes : ∀ call, 0 < sizes call)
    {whole out : ByteArray} (hwhole : Deflate.DecodesWhole whole out)
    (hrest : rest m.stream.source = whole.data.toList ++ tail) (hsmooth : ¬Torn valid rest tail) :
    ∃ verdict, gathered sizes m verdict = out.data.toList ∧
      (∀ call, call < verdict → answer sizes m call ≠ .ok ByteArray.empty) ∧
      (HasTrailer out.data.toList tail → ∀ call, verdict ≤ call →
        answer sizes m call = .ok ByteArray.empty) ∧
      (¬HasTrailer out.data.toList tail →
        (∃ fault, answer sizes m verdict = .error fault ∧ fault.isFormat = true) ∧
        (trailerSize ≤ (after sizes m (verdict + 1)).stream.decoder.unread.size ∨
          tail.length + (after sizes m (verdict + 1)).stream.decoder.unread.size < 2 * trailerSize →
          ∀ call, answer sizes m call ≠ .ok ByteArray.empty)) := by
  have hinflate := (Deflate.decodesWhole_iff whole out).mp hwhole
  have hstage : Stage valid rest whole.data.toList out.data.toList tail [] m := by
    have hkeeps := Header.readAll_keeps hsteady source hvalid
    rw [ofSource, Header.read] at hheader
    generalize Header.readAll source = result at hheader hkeeps
    obtain ⟨answer, next⟩ := result
    cases answer with
    | error fault => cases hheader
    | ok header =>
        cases hheader
        refine .streaming [] _ ?_ ⟨(Crc32.update_eq_foldl .empty ⟨#[]⟩).symm, rfl, rfl⟩
        rw [← hrest]
        exact Deflate.DecodedStream.new_holds hkeeps _
  obtain ⟨verdict, hall, hbefore, hverdict⟩ :=
    hstage.exists_verdict hsteady hinflate hsizes hsmooth
  refine ⟨verdict, hall, hbefore, fun hright call hcall => ?_, fun hwrong => ?_⟩
  · obtain ⟨hanswer, hverified⟩ := hverdict.of_right hright
    rcases Nat.eq_or_lt_of_le hcall with rfl | hlater
    · exact hanswer
    · exact answer_of_verified hverified hlater
  · obtain ⟨fault, hanswer, hformat, hawaits, hfront, hrest⟩ := hverdict.of_wrong hwrong
    refine ⟨⟨fault, hanswer, hformat⟩, fun hfew call => ?_⟩
    have hhopeless := hawaits.hopeless hwrong hfront hrest hfew
    rcases Nat.lt_trichotomy call verdict with hearly | rfl | hlate
    · exact hbefore call hearly
    · intro hnone
      cases hanswer.symm.trans hnone
    · exact hhopeless.answer hsteady hsizes hlate

theorem read_ends_iff_hasTrailer_stored :
    let script : Script := ⟨[.chunk ⟨#[0x1f, 0x8b, 8, 0, 0, 0, 0, 0, 0, 0xff, 0x01, 0x01, 0x00]⟩ 0,
      .failure (.io ⟨.other, "cable"⟩), .chunk ⟨#[0xfe, 0xff, 0x41, 0x8b, 0x9e]⟩ 0, .interruption,
      .chunk ⟨#[0xd9, 0xd3, 0x01, 0x00, 0x00, 0x00]⟩ 0]⟩
    ∃ m, (ofSource script).1 = .ok m ∧ ∃ verdict, gathered (fun _ => 1) m verdict = [0x41] ∧
      ∀ call, verdict ≤ call → answer (fun _ => 1) m call = .ok ByteArray.empty := by
  intro script
  let source : Script :=
    ⟨.chunk ⟨#[0x1f, 0x8b, 8, 0, 0, 0, 0, 0, 0, 0xff, 0x01, 0x01, 0x00]⟩ 10 ::
      script.deliveries.tail⟩
  let m : Member Script := ⟨Header.empty, .new source .raw, .empty, 0, false⟩
  have hheader : (ofSource script).1 = .ok m := rfl
  have hwhole : Deflate.DecodesWhole ⟨#[0x01, 0x01, 0x00, 0xfe, 0xff, 0x41]⟩ ⟨#[0x41]⟩ :=
    (Deflate.decodesWhole_iff _ _).mpr (by decide +kernel)
  have hscript : script.FailsAt fun place => trailerSize ≤ place := by decide
  have hsmooth : ¬Torn (Script.FailsAt fun place => trailerSize ≤ place)
      (fun s => s.rest.data.toList) [0x8b, 0x9e, 0xd9, 0xd3, 0x01, 0x00, 0x00, 0x00] := by
    rintro ⟨taken, back, hsplit, hsome, -, hbreaks⟩
    have hplace := Script.FailsAt.place hbreaks
    have hlength := congrArg List.length hsplit
    have htrailer : trailerSize = 8 := rfl
    simp only [List.length_cons, List.length_nil, List.length_append] at hlength
    omega
  have htrailer : HasTrailer [0x41] [0x8b, 0x9e, 0xd9, 0xd3, 0x01, 0x00, 0x00, 0x00] :=
    ⟨by decide, by decide +kernel, by decide⟩
  obtain ⟨verdict, hall, -, hright, -⟩ := read_ends_iff_hasTrailer (Script.FailsAt.steady _) hscript
    hheader (fun _ => Nat.one_pos) hwhole rfl hsmooth
  exact ⟨m, hheader, verdict, hall, hright htrailer⟩

-- A failure in the middle of the trailer loses its first bytes, and the right
-- trailer is never found. A wrong trailer that was read from the source is taken
-- away, and the next eight bytes stand in for it.
theorem read_again_misses_trailer :
    let header : Delivery := .chunk ⟨#[0x1f, 0x8b, 8, 0, 0, 0, 0, 0, 0, 0xff]⟩ 0
    let stream : Delivery := .chunk ⟨#[0x01, 0x00, 0x00, 0xff, 0xff]⟩ 0
    let torn : Script := ⟨[stream, .chunk ⟨#[0, 0, 0, 0]⟩ 0, .failure (.io ⟨.other, "cable"⟩),
      .chunk ⟨#[0, 0, 0, 0]⟩ 0]⟩
    let wrong : Script :=
      ⟨[stream, .chunk ⟨#[1, 0, 0, 0, 0, 0, 0, 0]⟩ 0, .chunk ⟨#[0, 0, 0, 0, 0, 0, 0, 0]⟩ 0]⟩
    Deflate.DecodesWhole ⟨#[0x01, 0x00, 0x00, 0xff, 0xff]⟩ ByteArray.empty ∧
      (∃ m : Member Script, (ofSource (⟨header :: torn.deliveries⟩ : Script)).1 = .ok m ∧
        m.stream.source = torn ∧ HasTrailer [] [0, 0, 0, 0, 0, 0, 0, 0] ∧
        answer (fun _ => 16) m 0 = .error (.io ⟨.other, "cable"⟩) ∧
        answer (fun _ => 16) m 1 = .error (.unexpectedEnd "GZIP trailer")) ∧
      ∃ m : Member Script, (ofSource (⟨header :: wrong.deliveries⟩ : Script)).1 = .ok m ∧
        m.stream.source = wrong ∧
        ¬HasTrailer [] [1, 0, 0, 0, 0, 0, 0, 0, 0, 0, 0, 0, 0, 0, 0, 0] ∧
        answer (fun _ => 16) m 0 = .error (.checksumMismatch .crc32 1 0) ∧
        answer (fun _ => 16) m 1 = .ok ByteArray.empty := by
  intro header stream torn wrong
  refine ⟨(Deflate.decodesWhole_iff _ _).mpr (by decide +kernel),
    ⟨⟨Header.empty, .new torn .raw, .empty, 0, false⟩, rfl, rfl,
      ⟨by decide, by decide +kernel, by decide⟩, by decide +kernel, by decide +kernel⟩,
    ⟨Header.empty, .new wrong .raw, .empty, 0, false⟩, rfl, rfl, fun h => ?_,
      by decide +kernel, by decide +kernel⟩
  have hcrc : (Crc32.of ⟨#[]⟩).toNat = 0 := by decide +kernel
  have hfirst : littleEndian [1, 0, 0, 0] = 1 := by decide
  cases hfirst.symm.trans (h.crc.trans hcrc)

end Verdict

end Unpack.Gzip.Member
