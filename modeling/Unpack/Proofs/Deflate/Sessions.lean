import Unpack.Proofs.Deflate.Decoder
import Unpack.Proofs.Deflate.Reference.Crossing

namespace Unpack.Deflate.Decoder

open Engine (Halted)
open Reference

-- Ask for bytes until a call returns none or fails, for `sizes i` bytes in call
-- `i`. There is no answer yet when that takes more calls than given.
def drainAll (sizes : Nat → Nat) : (calls i : Nat) → (out : List UInt8) → Decoder →
    Option (Except Fault (List UInt8) × Decoder)
  | 0, _, _, _ => none
  | calls + 1, i, out, s =>
      match s.read (sizes i) with
      | (.error fault, s) => some (.error fault, s)
      | (.ok bytes, s) =>
          if bytes.size = 0 then some (.ok out, s)
          else drainAll sizes calls (i + 1) (out ++ bytes.data.toList) s

-- A piece of the input, and the sizes asked for after it.
structure Piece where
  data : ByteArray
  sizes : Nat → Nat

def Piece.joined (pieces : List Piece) : List UInt8 :=
  pieces.flatMap fun piece => piece.data.data.toList

-- Feed the pieces one after the other and drain after each.
def session (calls : Nat) : List Piece → (out : List UInt8) → Decoder →
    Option (Except Fault (List UInt8) × Decoder)
  | [], out, s => some (.ok out, s)
  | piece :: pieces, out, s =>
      match drainAll piece.sizes calls 0 out (s.feed piece.data) with
      | some (.ok out, s) => session calls pieces out s
      | stopped => stopped

-- What can be seen in the end.
structure Summary where
  output : List UInt8
  isFinished : Bool
  awaited : Option UInt32
  produced : Nat
  unread : List UInt8
  deriving DecidableEq

def summary : Except Fault (List UInt8) × Decoder → Except Fault Summary
  | (.error fault, _) => .error fault
  | (.ok output, s) =>
      .ok ⟨output, s.isFinished, s.awaitedDictionary, s.produced, s.unread.data.toList⟩

-- The same of the reference decoder.
def verdict : EStateM.Result Stop State Unit → Except Fault Summary
  | .error (.fault fault) _ => .error fault
  | .ok () s => .ok (ending s true none)
  | .error .starved s => .ok (ending s false none)
  | .error (.awaits id) s => .ok (ending s false (some id))
where
  ending (s : State) (isFinished : Bool) (awaited : Option UInt32) : Summary :=
    ⟨s.output, isFinished, awaited, s.output.length,
      Bits.toBytes (s.bits.drop (s.bits.length % 8))⟩

variable {s : Decoder} {preset : Nat} {history : List UInt8} {q : Decoding Unit}

-- The end of a drain: all that can be decoded is handed out.
structure Rests (s : Decoder) (preset : Nat) (history : List UInt8) (q : Decoding Unit) : Prop where
  stands : s.Stands preset history q
  empty : s.engine.window.pending = 0
  halted : Halted q (s.seen preset history) s.engine.phase

inductive Drained (s : Decoder) (preset : Nat) (history : List UInt8) (q : Decoding Unit) :
    Except Fault (List UInt8) × Decoder → Prop where
  | failed (fault : Fault) (s' : Decoder) (t : State)
      (hleads : Leads q (s.seen preset history) (fail fault) t) :
      Drained s preset history q (.error fault, s')
  | dry (s' : Decoder) (longer : List UInt8) (q' : Decoding Unit)
      (hrests : s'.Rests preset longer q')
      (hleads : Leads q (s.seen preset history) q' (s'.seen preset longer))
      (hsettings : s'.settings = s.settings) :
      Drained s preset history q (.ok (s'.given preset longer), s')

theorem Drained.after {s₁ : Decoder} {longer : List UInt8} {q₁ : Decoding Unit}
    {result : Except Fault (List UInt8) × Decoder} (h : Drained s₁ preset longer q₁ result)
    (hleads : Leads q (s.seen preset history) q₁ (s₁.seen preset longer))
    (hsettings : s₁.settings = s.settings) : Drained s preset history q result := by
  cases h with
  | failed fault s' t h => exact .failed fault s' t (hleads.trans h)
  | dry s' longest q' hrests h hsettings' =>
      exact .dry s' longest q' hrests (hleads.trans h) (hsettings'.trans hsettings)

-- A drain ends, as every call but the last takes from the capacity.
theorem Stands.drainAll (h : s.Stands preset history q) {sizes : Nat → Nat}
    (hsizes : ∀ i, 0 < sizes i) (i : Nat) :
    ∃ result, Drained s preset history q result ∧ ∀ calls, s.capacity < calls →
      drainAll sizes calls i (s.given preset history) s = some result := by
  induction hcapacity : s.capacity using Nat.strongRecOn generalizing s history q i with
  | ind capacity ih =>
      have hread := h.read (sizes i)
      cases hresult : s.read (sizes i) with
      | mk outcome s' =>
          rw [hresult] at hread
          cases hread with
          | failed fault s' t hleads =>
              refine ⟨_, .failed fault s' t hleads, fun calls hcalls => ?_⟩
              obtain ⟨rest, rfl⟩ := Nat.exists_eq_succ_of_ne_zero (Nat.ne_zero_of_lt hcalls)
              rw [Decoder.drainAll, hresult]
          | returned new bytes s' longer q' hstands hleads hfollows hsettings hbytes hgiven hend =>
              have hnew : bytes.data.toList = new := hbytes
              have hsize : bytes.size = new.length := by rw [← hnew]; rfl
              rw [← hnew] at hgiven
              have hle := h.capacity_le hstands hfollows hgiven
              rw [hnew, ← hsize] at hle
              by_cases hnone : bytes.size = 0
              · have hend := hend.resolve_left (by have := hsizes i; omega)
                refine ⟨_, .dry s' longer q' ⟨hstands, hend.1, hend.2⟩ hleads hsettings,
                  fun calls hcalls => ?_⟩
                obtain ⟨rest, rfl⟩ := Nat.exists_eq_succ_of_ne_zero (Nat.ne_zero_of_lt hcalls)
                have hnil : bytes.data.toList = [] := List.eq_nil_of_length_eq_zero hnone
                rw [hnil, List.append_nil] at hgiven
                rw [Decoder.drainAll, hresult]
                dsimp only
                rw [if_pos hnone, hgiven]
              · obtain ⟨result, hdrained, hcalls⟩ := ih s'.capacity (by omega) hstands (i + 1) rfl
                refine ⟨result, hdrained.after hleads hsettings, fun calls hmore => ?_⟩
                obtain ⟨rest, rfl⟩ := Nat.exists_eq_succ_of_ne_zero (Nat.ne_zero_of_lt hmore)
                rw [Decoder.drainAll, hresult]
                dsimp only
                rw [if_neg hnone, ← hgiven]
                exact hcalls rest (by omega)

theorem unread_eq (s : Decoder) (preset : Nat) (history : List UInt8) :
    s.unread.data.toList = Bits.toBytes ((s.seen preset history).bits.drop
      ((s.seen preset history).bits.length % 8)) := by
  rw [unread, ← Bits.toBytes_ofBytes s.engine.input.rest.data.toList, Bits.Reader.ofBytes_rest]
  rfl

-- What the decoder shows at rest is what the reference decoder ends with.
theorem Rests.summary_eq (h : s.Rests preset history q) :
    summary (.ok (s.given preset history), s) = verdict (q (s.seen preset history)) := by
  obtain ⟨hgiven, hproduced⟩ := h.stands.given_output h.empty
  have hunread := unread_eq s preset history
  obtain ⟨hstands, hempty, hhalted⟩ := h
  have hresidual := hstands.engine.residual
  have hsummary : ∀ isFinished awaited, s.isFinished = isFinished → s.awaitedDictionary = awaited →
      summary (.ok (s.given preset history), s) =
        .ok (verdict.ending (s.seen preset history) isFinished awaited) := by
    rintro _ _ rfl rfl
    rw [summary, hgiven, hproduced, hunread, verdict.ending]
  generalize hphase : s.engine.phase = phase at hhalted hresidual
  cases hhalted with
  | finished =>
      rw [residual_finished hresidual]
      exact hsummary true none (by simp [isFinished, hphase, hempty])
        (by simp [awaitedDictionary, hphase])
  | awaiting id =>
      rw [residual_dictionary hresidual]
      exact hsummary false (some id) (by simp [isFinished, hphase])
        (by simp [awaitedDictionary, hphase])
  | starved phase hstarves =>
      rw [show q (s.seen preset history) = _ from hstarves]
      apply hsummary
      · cases phase with
        | finished =>
            rw [residual_finished hresidual] at hstarves
            cases hstarves
        | _ => simp [isFinished, hphase]
      · cases phase with
        | dictionary missing id =>
            cases missing with
            | zero =>
                rw [residual_dictionary hresidual] at hstarves
                cases hstarves
            | succ missing => simp [awaitedDictionary, hphase]
        | _ => simp [awaitedDictionary, hphase]

theorem session_verdict {pieces : List Piece} (hsizes : ∀ piece ∈ pieces, ∀ i, 0 < piece.sizes i)
    {format : Format} {fed : List UInt8} (h : s.Rests 0 history q)
    (hleads : Leads (stream format) (.start [] (Bits.ofBytes fed)) q (s.seen 0 history)) :
    ∃ enough, ∀ calls, enough ≤ calls →
      (session calls pieces (s.given 0 history) s).map summary =
        some (verdict (stream format (.start [] (Bits.ofBytes (fed ++ Piece.joined pieces))))) := by
  induction pieces generalizing s history q fed with
  | nil =>
      refine ⟨0, fun calls _ => ?_⟩
      rw [session, Option.map_some, h.summary_eq, Piece.joined, List.flatMap_nil, List.append_nil,
        hleads.eq]
  | cons piece pieces ih =>
      have hstart : ∀ front back, State.feed (.start [] (Bits.ofBytes front)) (Bits.ofBytes back) =
          .start [] (Bits.ofBytes (front ++ back)) := by
        intro front back
        rw [Bits.ofBytes_append]
        rfl
      have hfed := hleads.feed _ (length_ofBytes_mod piece.data.data.toList)
      rw [hstart, ← seen_feed] at hfed
      have hjoined : fed ++ Piece.joined (piece :: pieces) =
          (fed ++ piece.data.data.toList) ++ Piece.joined pieces := by
        rw [Piece.joined, List.flatMap_cons, List.append_assoc, Piece.joined]
      obtain ⟨result, hdrained, hcalls⟩ := (h.stands.feed piece.data).drainAll
        (hsizes piece List.mem_cons_self) 0
      have hgiven : (s.feed piece.data).given 0 history = s.given 0 history := rfl
      rw [hjoined]
      cases hdrained with
      | failed fault s' t hfails =>
          refine ⟨(s.feed piece.data).capacity + 1, fun calls henough => ?_⟩
          have hverdict := ((hfed.trans hfails).feed _ (length_ofBytes_mod (Piece.joined pieces))).eq
          rw [hstart] at hverdict
          rw [session, ← hgiven, hcalls calls henough, hverdict]
          rfl
      | dry s' longer q' hrests hmoves hsettings =>
          obtain ⟨enough, hrest⟩ := ih (fun other hother => hsizes other (List.mem_cons_of_mem _ hother))
            hrests (hfed.trans hmoves)
          refine ⟨max ((s.feed piece.data).capacity + 1) enough, fun calls henough => ?_⟩
          rw [session, ← hgiven, hcalls calls (Nat.le_trans (Nat.le_max_left _ _) henough)]
          exact hrest calls (Nat.le_trans (Nat.le_max_right _ _) henough)

theorem verdict_eq_overflow_iff {p : Decoding Unit} {t : State} :
    verdict (p t) = .error .overflow ↔ Overflows p t := by
  rw [Overflows]
  cases p t with
  | ok a u => simp [verdict]
  | error stop u => cases stop <;> simp [verdict]

-- However the input is cut up and whatever sizes are asked for, every session
-- ends, and all end in the same way, without an answer just where lengths cross.
theorem session_independent (settings : Settings) (data : List UInt8) :
    ∃ verdict : Except Fault Summary,
      (verdict = .error .overflow ↔ settings.format.Crosses data) ∧
      ∀ pieces : List Piece, (∀ piece ∈ pieces, ∀ i, 0 < piece.sizes i) → Piece.joined pieces = data →
        ∃ enough, ∀ calls, enough ≤ calls →
          (session calls pieces [] (new settings)).map summary = some verdict := by
  refine ⟨verdict (stream settings.format (.start [] (Bits.ofBytes data))),
    verdict_eq_overflow_iff.trans (overflows_stream_iff _ _), ?_⟩
  rintro pieces hsizes rfl
  exact session_verdict hsizes ⟨new_stands settings, rfl, new_halted settings⟩ (Leads.refl _ _)

-- A piece for each byte, and a call for each byte of output.
def Piece.bytewise (data : List UInt8) : List Piece :=
  data.map fun byte => ⟨⟨#[byte]⟩, fun _ => 1⟩

theorem Piece.sizes_bytewise (data : List UInt8) :
    ∀ piece ∈ Piece.bytewise data, ∀ i, 0 < piece.sizes i := by
  simp [bytewise]

theorem session_independent_bytewise :
    ∃ verdict : Except Fault Summary, ∃ enough, ∀ calls, enough ≤ calls →
      (session calls (Piece.bytewise [0x01, 0x01, 0x00, 0xfe, 0xff, 0x41]) []
        (new .raw)).map summary = some verdict ∧
      (session calls [⟨⟨#[0x01, 0x01, 0x00, 0xfe, 0xff, 0x41]⟩, fun _ => 7⟩] []
        (new .raw)).map summary = some verdict := by
  obtain ⟨verdict, -, hverdict⟩ := session_independent .raw [0x01, 0x01, 0x00, 0xfe, 0xff, 0x41]
  obtain ⟨bytewise, hbytewise⟩ := hverdict (Piece.bytewise [0x01, 0x01, 0x00, 0xfe, 0xff, 0x41])
    (Piece.sizes_bytewise _) rfl
  obtain ⟨whole, hwhole⟩ := hverdict [⟨⟨#[0x01, 0x01, 0x00, 0xfe, 0xff, 0x41]⟩, fun _ => 7⟩]
    (by simp) rfl
  refine ⟨verdict, max bytewise whole, fun calls henough => ⟨?_, ?_⟩⟩
  · exact hbytewise calls (Nat.le_trans (Nat.le_max_left _ _) henough)
  · exact hwhole calls (Nat.le_trans (Nat.le_max_right _ _) henough)

-- This session neither ends without a fault nor fails: it has no answer.
theorem session_unanswered :
    let data : List UInt8 := [0x05, 0xcc, 0x81, 0x81, 0x24, 0x49, 0x10, 0xc4, 0x20, 0xff, 0xad, 0x06,
      0x40, 0x91, 0xd5, 0xb3, 0xf7, 0x0f]
    ∃ enough, ∀ calls, enough ≤ calls →
      (session calls (Piece.bytewise data) [] (new .raw)).map summary = some (.error .overflow) := by
  intro data
  obtain ⟨enough, hcalls⟩ := session_verdict (Piece.sizes_bytewise data)
    ⟨new_stands .raw, rfl, new_halted .raw⟩ (Leads.refl _ _)
  refine ⟨enough, fun calls henough => (hcalls calls henough).trans (congrArg some ?_)⟩
  exact verdict_eq_overflow_iff.mpr ((overflows_stream_iff .raw _).mpr crosses_distances)

end Unpack.Deflate.Decoder
