import Mathlib.Data.Fin.Tuple.Basic
import Unpack.Proofs.Deflate.DecodedStream

namespace Unpack.Deflate

open Reference
open Source (Steady Asked after answer gathered)

-- A finished decoder changes no more.
theorem Decoder.read_of_finished {s : Decoder} (h : s.isFinished = true) {n : Nat} (hn : 0 < n) :
    ∃ s', s.read n = (.ok ByteArray.empty, s') ∧ s'.isFinished = true ∧ s'.unread = s.unread := by
  obtain ⟨hphase, hempty⟩ := phase_of_isFinished h
  obtain ⟨settings, ⟨phase, r, w, last⟩, adler, supplied, produced⟩ := s
  obtain rfl : phase = .finished := hphase
  have hpending : w.pending = 0 := hempty
  have hbytes : (w.drain n).1.size = 0 := by
    simp only [Window.drain, ByteArray.size_extract, hpending]
    omega
  have hnone : ByteArray.empty ++ (w.drain n).1 = ByteArray.empty :=
    ByteArray.ext (Array.toList_inj.mp (List.eq_nil_of_length_eq_zero (by simpa using hbytes)))
  have hdrained : (w.drain n).2.pending = 0 := by
    simp only [Window.drain, hpending]
    omega
  rw [read, rounds, run, Loop.run, readRound]
  simp only [drain, step, Engine.step, ByteArray.size_empty, Nat.sub_zero, hnone, hdrained]
  rw [if_neg (Nat.ne_of_lt hn), if_pos (by decide)]
  refine ⟨_, rfl, ?_, rfl⟩
  simp only [isFinished, hdrained]
  rfl

namespace DecodedStream

variable {σ : Type} [Source σ] {valid : σ → Prop} {rest : σ → List UInt8}
  {all handed : List UInt8} {r : DecodedStream σ} {n : Nat}

-- Once the decoder is finished, the source is left alone.
theorem read_of_finished (h : r.decoder.isFinished = true) (hn : 0 < n) :
    ∃ r' : DecodedStream σ, Source.read r n = (.ok ByteArray.empty, r') ∧ r'.source = r.source ∧
      r'.decoder.isFinished = true ∧ r'.decoder.unread = r.decoder.unread := by
  obtain ⟨source, decoder, ended⟩ := r
  obtain ⟨s', hread, hfinished, hunread⟩ := Decoder.read_of_finished h hn
  refine ⟨⟨source, s', ended⟩, ?_, rfl, hfinished, hunread⟩
  have hcall : Source.read (⟨source, decoder, ended⟩ : DecodedStream σ) n =
      readRounds n (Source.left source + 2) ⟨source, decoder, ended⟩ := if_neg (Nat.ne_of_gt hn)
  rw [hcall, readRounds, hread]
  dsimp only
  rw [if_pos (Or.inr hfinished)]

variable {sizes : Nat → Nat}

-- Whatever calls came before.
structure Kept (valid : σ → Prop) (rest : σ → List UInt8) (all : List UInt8) (sizes : Nat → Nat)
    (r : DecodedStream σ) (call : Nat) : Prop where
  holds : Holds valid rest all (gathered sizes r call) (after sizes r call)
  asked : ∀ floor, Enough all floor → Asked rest floor r.source (after sizes r call).source

theorem Kept.reads {call : Nat} (h : Kept valid rest all sizes r call) (hsteady : Steady valid rest)
    (hsizes : ∀ call, 0 < sizes call) :
    Reads valid rest all (gathered sizes r call) (after sizes r call)
      (answer sizes r call, after sizes r (call + 1)) :=
  h.holds.read hsteady (hsizes call)

theorem Holds.kept (h : Holds valid rest all [] r) (hsteady : Steady valid rest)
    (hsizes : ∀ call, 0 < sizes call) (hsound : Sound all) (call : Nat) :
    Kept valid rest all sizes r call := by
  induction call with
  | zero => exact ⟨h, fun floor _ => .refl _⟩
  | succ call ih =>
      have hreads := ih.reads hsteady hsizes
      refine ⟨hreads.holds hsound, fun floor henough => ?_⟩
      exact (ih.asked floor henough).trans (hreads.asked hsound floor henough)

-- Every call brings something, meets a fault of the source, or is the last one.
theorem Kept.spends {call : Nat} (h : Kept valid rest all sizes r call)
    (hsteady : Steady valid rest) (hsizes : ∀ call, 0 < sizes call) {t : State}
    (hends : blocksToEnd .raw (.start [] (Bits.ofBytes all)) = .ok () t ∨
      blocksToEnd .raw (.start [] (Bits.ofBytes all)) = .error .starved t) :
    (answer sizes r call = .ok ByteArray.empty ∧
      (after sizes r (call + 1)).decoder.isFinished = true) ∨
    (blocksToEnd .raw (.start [] (Bits.ofBytes all)) = .error .starved t ∧
      (after sizes r (call + 1)).ended = true ∧ gathered sizes r (call + 1) = t.output ∧
      answer sizes r call = .error (.unexpectedEnd "deflate stream")) ∨
    t.output.length - (gathered sizes r (call + 1)).length +
        Source.left (after sizes r (call + 1)).source <
      t.output.length - (gathered sizes r call).length +
        Source.left (after sizes r call).source ∧
      answer sizes r call ≠ .ok ByteArray.empty := by
  have hreads := h.reads hsteady hsizes
  have hsound : Sound all := by
    intro fault u hfails
    rw [hfails] at hends
    rcases hends with hends | hends <;> cases hends
  have hnext := hreads.holds hsound
  rw [← List.append_nil all] at hends
  have hprefix := (hnext.handed_prefix hends).length_le
  rw [List.append_nil] at hends
  have hgathered : gathered sizes r (call + 1) =
      gathered sizes r call ++ Source.brought (answer sizes r call) := rfl
  rw [hgathered]
  generalize answer sizes r call = outcome at *
  generalize after sizes r (call + 1) = next at *
  cases hreads with
  | handed bytes r' hsome hholds hleft hasked =>
      refine Or.inr (Or.inr ⟨?_, fun hnone => ?_⟩)
      · simp only [Source.brought, List.length_append, Bits.Reader.length_toList] at hprefix ⊢
        omega
      · cases hnone
        exact hsome rfl
  | finished r' hfinished hholds hleft hasked => exact Or.inl ⟨rfl, hfinished⟩
  | starved r' u hended hholds hstarves houtput hasked =>
      refine Or.inr (Or.inl ?_)
      rw [hstarves] at hends
      rcases hends with hends | hends
      · cases hends
      · cases hends
        exact ⟨hstarves, hended, by rw [houtput]; exact List.append_nil _, rfl⟩
  | interrupted fault r' hmore hholds hleft hasked =>
      refine Or.inr (Or.inr ⟨?_, fun h => (nomatch h)⟩)
      simp only [Source.brought, List.append_nil]
      omega
  | failed fault r' t hfails => exact absurd hfails (hsound fault t)

variable {front out tail : List UInt8}

-- The whole stream is there.
theorem Holds.whole (h : Holds valid rest (front ++ tail) [] r) (hsteady : Steady valid rest)
    (hsizes : ∀ call, 0 < sizes call)
    (hinflate : inflate [] (Bits.ofBytes front) = some (out, [])) :
    (∃ last, gathered sizes r last = out ∧
      (∀ call, answer sizes r call = .ok ByteArray.empty ↔ last ≤ call) ∧
      ∀ call, last < call → (after sizes r call).decoder.isFinished = true) ∧
    ∀ call, Asked rest tail.length r.source (after sizes r call).source ∧
      ((after sizes r call).decoder.isFinished = true →
        (after sizes r call).decoder.unread.data.toList ++ rest (after sizes r call).source = tail) := by
  obtain ⟨t, hends, -, hout⟩ := blocksToEnd_of_inflate hinflate 0 tail
  have hsound : Sound (front ++ tail) := fun fault u hfails => by cases hends.symm.trans hfails
  have hkept := h.kept hsteady hsizes hsound
  have hspends := fun call => (hkept call).spends hsteady hsizes (Or.inl hends)
  have hstarved : blocksToEnd .raw (.start [] (Bits.ofBytes (front ++ tail))) ≠ .error .starved t :=
    fun hstarves => by cases hends.symm.trans hstarves
  obtain ⟨last, hlast, hearlier⟩ := Source.exists_first_call
    (fun call => answer sizes r call = .ok ByteArray.empty)
    (fun call => t.output.length - (gathered sizes r call).length +
      Source.left (after sizes r call).source) fun call => by
        rcases hspends call with hfinal | ⟨hstarves, -⟩ | ⟨hless, -⟩
        · exact Or.inl hfinal.1
        · exact absurd hstarves hstarved
        · exact Or.inr hless
  have hfinished : (after sizes r (last + 1)).decoder.isFinished = true := by
    rcases hspends last with hfinal | ⟨hstarves, -⟩ | ⟨-, hother⟩
    · exact hfinal.2
    · exact absurd hstarves hstarved
    · exact absurd hlast hother
  have hdone : ∀ call, last < call → (after sizes r call).decoder.isFinished = true := by
    intro call hcall
    refine Source.after_keeps (P := fun r : DecodedStream σ => r.decoder.isFinished = true)
      (fun call r h => ?_) hfinished hcall
    obtain ⟨r', hread, -, hagain, -⟩ := read_of_finished h (hsizes call)
    rw [hread]
    exact hagain
  have hgathered : gathered sizes r (last + 1) = out :=
    ((hkept (last + 1)).holds.finished_eq hinflate hfinished).1
  refine ⟨⟨last, ?_, fun call => ⟨fun hcall => ?_, fun hcall => ?_⟩, fun call hcall => ?_⟩,
    fun call => ⟨?_, fun hover => ?_⟩⟩
  · rw [← hgathered, gathered, hlast]
    exact (List.append_nil _).symm
  · by_contra hbefore
    exact hearlier call (Nat.lt_of_not_le hbefore) hcall
  · rcases Nat.eq_or_lt_of_le hcall with rfl | hlater
    · exact hlast
    · obtain ⟨r', hread, -⟩ := read_of_finished (hdone call hlater) (hsizes call)
      exact congrArg Prod.fst hread
  · exact hdone call hcall
  · exact (hkept call).asked _ (enough_of_inflate hinflate)
  · exact ((hkept call).holds.finished_eq hinflate hover).2

-- A corrupted front makes the whole corrupted.
theorem blocksToEnd_fault {fed : List UInt8} {fault : Fault} {t : State}
    (h : blocksToEnd .raw (.start [] (Bits.ofBytes fed)) = .error (.fault fault) t)
    (back : List UInt8) :
    ∃ u, blocksToEnd .raw (.start [] (Bits.ofBytes (fed ++ back))) = .error (.fault fault) u := by
  have hfed := (Decoder.new_stands .raw).feed ⟨fed.toArray⟩
  have hseen : ((Decoder.new .raw).feed ⟨fed.toArray⟩).seen 0 [] = .start [] (Bits.ofBytes fed) := by
    rw [Decoder.seen_feed, Decoder.seen_new]
    rfl
  have hsizes : ∀ i : Nat, 0 < (fun _ => 1 : Nat → Nat) i := fun _ => Nat.one_pos
  obtain ⟨result, hdrained, -⟩ := hfed.drainAll hsizes 0
  cases hdrained with
  | failed fault' s' u hleads =>
      rw [hseen] at hleads
      cases hleads.eq.symm.trans h
      exact ⟨_, leads_all hleads rfl⟩
  | dry s' longer q' hrests hleads hsettings =>
      have hsummary := hrests.summary_eq
      rw [hseen] at hleads
      rw [← hleads.eq] at hsummary
      have hverdict := hsummary.trans (congrArg Decoder.verdict h)
      cases hverdict

-- Without its last bytes, a stream starves.
theorem starves_of_cut {cut missing : List UInt8} (hmissing : missing ≠ [])
    (hinflate : inflate [] (Bits.ofBytes (cut ++ missing)) = some (out, [])) :
    ∃ t, blocksToEnd .raw (.start [] (Bits.ofBytes cut)) = .error .starved t := by
  obtain ⟨t, hwhole, -, hrest⟩ := inflate_eq_some_iff.mp hinflate
  cases hcut : blocksToEnd .raw (.start [] (Bits.ofBytes cut)) with
  | ok a u =>
      obtain ⟨front, back, rfl, -, hfront⟩ := inflate_of_blocksToEnd hcut
      obtain ⟨v, hends, hbits, -⟩ := blocksToEnd_of_inflate hfront 0 (back ++ missing)
      rw [← List.append_assoc] at hends
      cases hwhole.symm.trans hends
      have hlength := congrArg List.length (hbits.symm.trans hrest)
      rw [Bits.length_ofBytes, List.length_append, List.length_nil] at hlength
      exact absurd (List.eq_nil_of_length_eq_zero (by omega)) hmissing
  | error stop u =>
      cases stop with
      | starved => exact ⟨u, rfl⟩
      | awaits id => exact absurd hcut (blocksToEnd_never _ _ _)
      | fault fault =>
          obtain ⟨v, hfails⟩ := blocksToEnd_fault hcut missing
          cases hwhole.symm.trans hfails

-- Once the source has ended and everything is handed out, no call brings more.
theorem Holds.starved_again (h : Holds valid rest all handed r) (hsteady : Steady valid rest)
    (hn : 0 < n) (hended : r.ended = true) {t : State} (houtput : handed = t.output)
    (hstarves : blocksToEnd .raw (.start [] (Bits.ofBytes all)) = .error .starved t) :
    ∃ r', Source.read r n = (.error (.unexpectedEnd "deflate stream"), r') ∧ r'.ended = true ∧
      Holds valid rest all handed r' := by
  have hreads := h.read hsteady hn
  generalize Source.read r n = result at hreads
  cases hreads with
  | handed bytes r' hsome hholds hleft hasked =>
      rw [← List.append_nil all] at hstarves
      have hprefix := (hholds.handed_prefix (Or.inr hstarves)).length_le
      rw [List.length_append, Bits.Reader.length_toList, houtput] at hprefix
      omega
  | finished r' hfinished hholds hleft hasked =>
      obtain ⟨front, hsplit, hfront⟩ := hholds.finished hfinished
      obtain ⟨u, hends, -⟩ := blocksToEnd_of_inflate hfront 0
        (r'.decoder.unread.data.toList ++ rest r'.source)
      rw [← hsplit] at hends
      cases hends.symm.trans hstarves
  | starved r' u hended hholds hstarves houtput hasked => exact ⟨r', rfl, hended, hholds⟩
  | interrupted fault r' hmore hholds hleft hasked => exact absurd hended (hmore ▸ Bool.false_ne_true)
  | failed fault r' u hfails => cases hfails.symm.trans hstarves

-- The source ends inside the stream.
theorem Holds.cut {all missing : List UInt8} (h : Holds valid rest all [] r)
    (hsteady : Steady valid rest) (hsizes : ∀ call, 0 < sizes call) (hmissing : missing ≠ [])
    (hinflate : inflate [] (Bits.ofBytes (all ++ missing)) = some (out, [])) :
    (∀ call, answer sizes r call ≠ .ok ByteArray.empty) ∧
      ∃ last, ∀ call, last ≤ call →
        answer sizes r call = .error (.unexpectedEnd "deflate stream") := by
  obtain ⟨t, hstarves⟩ := starves_of_cut hmissing hinflate
  have hsound : Sound all := fun fault u hfails => by cases hstarves.symm.trans hfails
  have hkept := h.kept hsteady hsizes hsound
  have hspends := fun call => (hkept call).spends hsteady hsizes (Or.inr hstarves)
  have hnever : ∀ call, (after sizes r (call + 1)).decoder.isFinished ≠ true := by
    intro call hfinished
    obtain ⟨front, hsplit, hfront⟩ := (hkept (call + 1)).holds.finished hfinished
    obtain ⟨u, hends, -⟩ := blocksToEnd_of_inflate hfront 0
      ((after sizes r (call + 1)).decoder.unread.data.toList ++
        rest (after sizes r (call + 1)).source)
    rw [← hsplit] at hends
    cases hends.symm.trans hstarves
  obtain ⟨last, ⟨hlast, hended, houtput⟩, -⟩ := Source.exists_first_call
    (fun call => answer sizes r call = .error (.unexpectedEnd "deflate stream") ∧
      (after sizes r (call + 1)).ended = true ∧ gathered sizes r (call + 1) = t.output)
    (fun call => t.output.length - (gathered sizes r call).length +
      Source.left (after sizes r call).source) fun call => by
        rcases hspends call with ⟨-, hfinished⟩ | ⟨-, hended, houtput, hfinal⟩ | ⟨hless, -⟩
        · exact absurd hfinished (hnever call)
        · exact Or.inl ⟨hfinal, hended, houtput⟩
        · exact Or.inr hless
  have hforever : ∀ call, last < call → (after sizes r call).ended = true ∧
      Holds valid rest all t.output (after sizes r call) := by
    intro call hcall
    refine Source.after_keeps
      (P := fun r : DecodedStream σ => r.ended = true ∧ Holds valid rest all t.output r)
      (fun call r h => ?_) ⟨hended, houtput ▸ (hkept (last + 1)).holds⟩ hcall
    obtain ⟨r', hread, hagain⟩ := h.2.starved_again hsteady (hsizes call) h.1 rfl hstarves
    rw [hread]
    exact hagain
  refine ⟨fun call hnone => ?_, last, fun call hcall => ?_⟩
  · rcases hspends call with ⟨-, hfinished⟩ | ⟨-, -, -, hfinal⟩ | ⟨-, hother⟩
    · exact hnever call hfinished
    · cases hnone.symm.trans hfinal
    · exact hother hnone
  · rcases Nat.eq_or_lt_of_le hcall with rfl | hlater
    · exact hlast
    · obtain ⟨hended, hholds⟩ := hforever call hlater
      obtain ⟨r', hread, -⟩ := hholds.starved_again hsteady (hsizes call) hended rfl hstarves
      exact congrArg Prod.fst hread

-- However the source cuts up its bytes, whenever it fails in between and
-- whatever sizes are asked for, the calls bring the whole stream up to the first
-- call that brings nothing. The source is never asked for bytes behind the
-- stream, and all of them are still there when it ends. A source that ends
-- inside the stream is told from one that ends with it.
theorem read_decodesWhole (hsteady : Steady valid rest) {source : σ} (hvalid : valid source)
    (readSize : Nat) (hsizes : ∀ call, 0 < sizes call) {whole out : ByteArray}
    (hwhole : DecodesWhole whole out) :
    let r := new source ⟨.raw, readSize⟩
    (∀ tail, rest source = whole.data.toList ++ tail →
      (∃ last, gathered sizes r last = out.data.toList ∧
        (∀ call, answer sizes r call = .ok ByteArray.empty ↔ last ≤ call) ∧
        ∀ call, last < call → (after sizes r call).decoder.isFinished = true) ∧
      ∀ call, Asked rest tail.length source (after sizes r call).source ∧
        ((after sizes r call).decoder.isFinished = true →
          (after sizes r call).decoder.unread.data.toList ++ rest (after sizes r call).source =
            tail)) ∧
    ∀ missing, missing ≠ [] → rest source ++ missing = whole.data.toList →
      (∀ call, answer sizes r call ≠ .ok ByteArray.empty) ∧
      ∃ last, ∀ call, last ≤ call →
        answer sizes r call = .error (.unexpectedEnd "deflate stream") := by
  intro r
  have hinflate := (decodesWhole_iff whole out).mp hwhole
  have hholds : Holds valid rest (rest source) [] r := new_holds hvalid readSize
  constructor
  · intro tail hrest
    rw [hrest] at hholds
    exact hholds.whole hsteady hsizes hinflate
  · intro missing hmissing hrest
    rw [← hrest] at hinflate
    exact hholds.cut hsteady hsizes hmissing hinflate

theorem read_decodesWhole_bytewise :
    let script : Script := ⟨[.interruption, .chunk ⟨#[0x01, 0x01, 0x00]⟩ 0,
      .failure (.io ⟨.other, "cable"⟩), .chunk ⟨#[0xfe, 0xff, 0x41, 0x42]⟩ 0, .chunk ⟨#[0x43]⟩ 0]⟩
    (∃ last, gathered (fun _ => 1) (new script ⟨.raw, 2⟩) last = [0x41] ∧
      ∀ call, answer (fun _ => 1) (new script ⟨.raw, 2⟩) call = .ok ByteArray.empty ↔
        last ≤ call) ∧
    ∃ last, ∀ call, last ≤ call →
      answer (fun _ => 1) (new (Script.ofBytes ⟨#[0x01, 0x01, 0x00]⟩) ⟨.raw, 2⟩) call =
        .error (.unexpectedEnd "deflate stream") := by
  intro script
  have hwhole : DecodesWhole ⟨#[0x01, 0x01, 0x00, 0xfe, 0xff, 0x41]⟩ ⟨#[0x41]⟩ :=
    (decodesWhole_iff _ _).mpr (by decide +kernel)
  have hsolid : script.Solid := by decide
  have hshort : (Script.ofBytes ⟨#[0x01, 0x01, 0x00]⟩).Solid := by decide
  obtain ⟨⟨last, hgathered, hanswer, -⟩, -⟩ :=
    (read_decodesWhole Script.steady hsolid 2 (fun _ => Nat.one_pos) hwhole).1 [0x42, 0x43] rfl
  have hcut := (read_decodesWhole Script.steady hshort 2 (fun _ => Nat.one_pos) hwhole).2
    [0xfe, 0xff, 0x41] (by simp) rfl
  exact ⟨⟨last, hgathered, hanswer⟩, hcut.2⟩

end DecodedStream

end Unpack.Deflate
