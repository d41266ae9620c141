import Unpack.Proofs.Deflate.DecodedStream
import Unpack.Proofs.Deflate.Fatal
import Unpack.Proofs.Source.Reliable

namespace Unpack.Deflate

open Reference
open Source (Steady Reliable)

-- A read answers with no more than it was asked for.
theorem Decoder.size_run {n rounds : Nat} {out : ByteArray} (hout : out.size ≤ n) {s : Decoder}
    {bytes : ByteArray} (h : (run n rounds out s).1 = .ok bytes) : bytes.size ≤ n := by
  refine Loop.run_rule (P := fun t => t.1.size ≤ n)
    (Q := fun result : Except Fault ByteArray × Decoder => ∀ bytes, result.1 = .ok bytes →
      bytes.size ≤ n) (fun t ht => ?_) (fun t ht => ?_) rounds hout bytes h
  · obtain ⟨out, s⟩ := t
    have hdrained : (s.drain (n - out.size)).1.size ≤ n - out.size :=
      (s.drain_window _).1 ▸ Nat.min_le_left _ _
    rw [readRound]
    generalize s.drain (n - out.size) = drained at hdrained
    obtain ⟨got, s₁⟩ := drained
    dsimp only at ht hdrained ⊢
    have hfits : (out ++ got).size ≤ n := by
      rw [ByteArray.size_append]
      omega
    split
    · rintro _ ⟨⟩
      exact hfits
    · generalize s₁.step = stepped
      obtain ⟨_ | moved, s'⟩ := stepped
      · rintro _ ⟨⟩
      · dsimp only
        split
        · rintro _ ⟨⟩
          exact hfits
        · exact hfits
  · rintro _ ⟨⟩
    exact ht

-- A bit brings at most as many bytes as a match has.
theorem length_le_of_inflate {front out : List UInt8}
    (h : inflate [] (Bits.ofBytes front) = some (out, [])) :
    out.length ≤ 258 * (8 * front.length) := by
  obtain ⟨t, hends, rfl, -⟩ := inflate_eq_some_iff.mp h
  have hfed := (Decoder.new_stands .raw).feed ⟨front.toArray⟩
  have hseen : ((Decoder.new .raw).feed ⟨front.toArray⟩).seen 0 [] =
      .start [] (Bits.ofBytes front) := by
    rw [Decoder.seen_feed, Decoder.seen_new]
    rfl
  have hraw : stream Settings.raw.format = blocksToEnd .raw := rfl
  have hread := hfed.read (t.output.length + 1)
  rw [hraw] at hread hfed
  generalize ((Decoder.new .raw).feed ⟨front.toArray⟩).read _ = result at hread
  cases hread with
  | failed fault s' u hleads =>
      rw [hseen] at hleads
      cases hends.symm.trans hleads.eq
  | returned new bytes s' longer q' hstands hleads hfollows hsettings hbytes hgiven hend =>
      have hcapacity := hfed.capacity_le hstands hfollows hgiven
      have hnew : s'.given 0 longer = new := hgiven
      rw [hseen] at hleads
      have hthere := hleads.eq.symm.trans hends
      have hfits : (s'.given 0 longer).length ≤ t.output.length :=
        (hstands.given_prefix (congrArg Decoder.verdict hthere)).length_le
      have hsize : bytes.size = new.length := congrArg List.length hbytes
      rw [hnew] at hfits
      obtain ⟨hempty, hhalted⟩ := hend.resolve_left (by omega)
      have hsummary := (Decoder.Rests.mk hstands hempty hhalted).summary_eq
      rw [hthere, hnew] at hsummary
      have hall : new = t.output := congrArg Decoder.Summary.output (Except.ok.inj hsummary)
      have hbits := congrArg (fun s : State => s.bits.length) hseen
      simp only [Decoder.seen, State.at, State.start, Bits.Reader.length_bits, Bits.length_ofBytes]
        at hbits
      have hpending : ((Decoder.new .raw).feed ⟨front.toArray⟩).engine.window.pending = 0 := rfl
      rw [Decoder.capacity, Decoder.capacity, hpending, hbits] at hcapacity
      rw [← hall]
      omega

namespace DecodedStream

variable {σ : Type} [Source σ] {valid : σ → Prop} {rest : σ → List UInt8}
  {all handed front out tail : List UInt8} {r : DecodedStream σ} {n : Nat}

theorem fill_ok (h : Reliable valid rest) (hvalid : valid r.source) :
    ∃ r', r.fill = (.ok (), r') := by
  have hsize : 0 < r.readSize := Nat.lt_of_lt_of_le Nat.one_pos (Nat.le_max_right _ _)
  obtain ⟨bytes, next, hread, -⟩ := h.readOnce hvalid hsize
  obtain ⟨source, decoder, ended⟩ := r
  rw [fill]
  dsimp only at hread ⊢
  rw [hread]
  dsimp only
  split
  · exact ⟨_, rfl⟩
  · exact ⟨_, rfl⟩

-- As long as the source has all of a stream, a call brings what comes next.
theorem Holds.readRounds_ok (h : Holds valid rest all handed r) (hreliable : Reliable valid rest)
    {t : State} (hends : blocksToEnd .raw (.start [] (Bits.ofBytes all)) = .ok () t) (hn : n ≠ 0)
    (rounds : Nat) (hrounds : (if r.ended then 0 else Source.left r.source + 1) < rounds) :
    ∃ bytes r', DecodedStream.readRounds n rounds r = (.ok bytes, r') ∧ bytes.size ≤ n := by
  induction rounds generalizing handed r with
  | zero => omega
  | succ rounds ih =>
      obtain ⟨fed, history, q, hstands⟩ := h
      obtain ⟨source, decoder, ended⟩ := r
      have hread := hstands.decoder.read n
      have hfits : ∀ bytes, (decoder.read n).1 = .ok bytes → bytes.size ≤ n :=
        fun bytes => Decoder.size_run (Nat.zero_le n)
      rw [DecodedStream.readRounds]
      dsimp only at hread hrounds
      generalize decoder.read n = result at hread hfits
      cases hread with
      | failed fault s' u hleads =>
          cases hends.symm.trans (leads_all (hstands.leads.trans hleads) hstands.split)
      | returned new bytes s' longer q' hstands' hleads hfollows hsettings hbytes hgiven hend =>
          obtain rfl : bytes.data.toList = new := hbytes
          have hnext : Stands valid rest all (handed ++ bytes.data.toList) fed longer q'
              ⟨source, s', ended⟩ :=
            ⟨hstands.valid, hstands', hstands.leads.trans hleads, hstands.given ▸ hgiven,
              hstands.split, hstands.ended⟩
          dsimp only
          by_cases hstops : bytes.size ≠ 0 ∨ s'.isFinished = true
          · rw [if_pos hstops]
            exact ⟨bytes, _, rfl, hfits bytes rfl⟩
          · rw [if_neg hstops]
            rw [not_or, not_not, Bool.not_eq_true] at hstops
            have hstarves := hnext.leads.eq
            have hawaited : s'.awaitedDictionary = none := hnext.awaitedDictionary
            rw [Decoder.starves_of_halted (hend.resolve_left (by omega)) hstops.2 hawaited]
              at hstarves
            simp only [hawaited]
            cases ended with
            | true =>
                have hall : fed = all := by
                  rw [← hstands.split, hstands.ended rfl, List.append_nil]
                cases hends.symm.trans (hall ▸ hstarves)
            | false =>
                have hfills := hnext.fill hreliable.steady rfl hstarves
                obtain ⟨r', hfill⟩ := fill_ok hreliable (r := ⟨source, s', false⟩) hnext.valid
                rw [hfill] at hfills ⊢
                cases hfills with
                | filled r' hholds hleft hless hasked =>
                    refine ih hholds ?_
                    simp only [Bool.false_eq_true, if_false] at hrounds
                    have hfewer := Nat.lt_of_succ_lt_succ hrounds
                    cases hended : r'.ended with
                    | true => exact Nat.lt_of_le_of_lt (Nat.zero_le _) hfewer
                    | false => exact Nat.lt_of_le_of_lt (hless hended) hfewer

-- Every call on a reliable source brings more of the stream, or finds its end.
theorem Holds.read_reliable (h : Holds valid rest (front ++ tail) handed r)
    (hreliable : Reliable valid rest) (hinflate : inflate [] (Bits.ofBytes front) = some (out, []))
    (hn : 0 < n) :
    ∃ bytes r', Source.read r n = (.ok bytes, r') ∧ bytes.size ≤ n ∧
      Holds valid rest (front ++ tail) (handed ++ bytes.data.toList) r' ∧
      handed ++ bytes.data.toList <+: out ∧ (bytes.size = 0 → r'.decoder.isFinished = true) := by
  obtain ⟨t, hends, -, rfl⟩ := blocksToEnd_of_inflate hinflate 0 tail
  have hreads := h.read hreliable.steady hn
  obtain ⟨bytes, r', hread, hfits⟩ :=
    h.readRounds_ok hreliable hends (Nat.ne_of_gt hn) (Source.left r.source + 2)
      (by split <;> omega)
  have hcall : Source.read r n = DecodedStream.readRounds n (Source.left r.source + 2) r :=
    if_neg (Nat.ne_of_gt hn)
  rw [← hcall] at hread
  rw [hread] at hreads
  have hprefix : ∀ {given : List UInt8}, Holds valid rest (front ++ tail) given r' →
      given <+: t.output := by
    intro given hgiven
    rw [← List.append_nil (front ++ tail)] at hends
    exact hgiven.handed_prefix (Or.inl hends)
  cases hreads with
  | handed bytes r' hsome hholds hleft hasked =>
      exact ⟨bytes, r', hread, hfits, hholds, hprefix hholds, fun hnone => absurd hnone hsome⟩
  | finished r' hfinished hholds hleft hasked =>
      have hsame : handed ++ ByteArray.empty.data.toList = handed := List.append_nil handed
      exact ⟨_, r', hread, hfits, hsame.symm ▸ hholds, hsame.symm ▸ hprefix hholds,
        fun _ => hfinished⟩

end DecodedStream

end Unpack.Deflate
