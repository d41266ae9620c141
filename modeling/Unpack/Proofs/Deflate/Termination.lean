import Unpack.Proofs.Deflate.Resting
import Unpack.Proofs.Zlib.Decompress

namespace Unpack

open Bits (Reader)

namespace Deflate

open Huffman (Table)

namespace CodeLengths

-- The loop over lengths ends.
theorem readLengths_ends (code : Table) (rounds : Nat) (c : CodeLengths) (r : Reader)
    (hrounds : c.total - c.lengths.size ≤ rounds) :
    ∃ k, Loop.Ends (lengthRound code) k (c, r) (readLengths code rounds c r) := by
  induction rounds generalizing c r with
  | zero =>
      refine ⟨1, .done ?_⟩
      rw [lengthRound, if_pos (by omega)]
      rfl
  | succ rounds ih =>
      rw [readLengths, Loop.run]
      cases hround : lengthRound code (c, r) with
      | inl s =>
          obtain ⟨c', next⟩ := s
          have hless := lengthRound_grows hround
          obtain ⟨k, hends⟩ := ih c' next (by omega)
          exact ⟨k + 1, .again hround hends⟩
      | inr result => exact ⟨1, .done hround⟩

end CodeLengths

namespace Engine

-- The phases before the first block.
def isEarly : Phase → Bool
  | .header | .dictionary .. => true
  | _ => false

def AfterMatch.Late : AfterMatch → Prop
  | .next .. => True
  | .halt _ phase _ _ => isEarly phase = false

theorem fromDistanceBits_late (codes : Codes) (length distance extra : Nat) (r : Reader)
    (w : Window) : (fromDistanceBits codes length distance extra r w).Late := by
  unfold fromDistanceBits
  repeat' split
  all_goals trivial

theorem fromDistance_late (codes : Codes) (length : Nat) (r : Reader) (w : Window) :
    (fromDistance codes length r w).Late := by
  unfold fromDistance
  split
  · rfl
  · rfl
  · split
    · exact fromDistanceBits_late _ _ _ _ _ _
    · rfl

theorem fromLengthBits_late (codes : Codes) (length extra : Nat) (r : Reader) (w : Window) :
    (fromLengthBits codes length extra r w).Late := by
  unfold fromLengthBits
  split
  · rfl
  · exact fromDistance_late _ _ _ _

theorem symbolRound_late (codes : Codes) (s : Reader × Window) :
    (symbolRound codes s).elim (fun _ => True) (fun result => isEarly result.2.1 = false) := by
  rw [symbolRound]
  split
  · rfl
  · split
    · rfl
    · rfl
    · split
      · split
        · trivial
        · rfl
      · split
        · rfl
        · split
          · split
            · trivial
            · rename_i hhalt
              exact (hhalt ▸ fromLengthBits_late _ _ _ _ _ : AfterMatch.Late (.halt _ _ _ _))
          · rfl

theorem symbols_late (codes : Codes) (rounds : Nat) (r : Reader) (w : Window) :
    isEarly (symbols codes rounds r w).2.1 = false :=
  Loop.run_rule (Q := fun result : Except Fault Bool × Phase × Reader × Window =>
      isEarly result.2.1 = false) (fun s _ => symbolRound_late codes s) (fun _ _ => rfl) rounds trivial

theorem AfterMatch.Late.symbols {result : AfterMatch} (h : result.Late) (codes : Codes) :
    isEarly (afterMatch codes result).2.1 = false := by
  cases result with
  | next r w => exact symbols_late codes _ r w
  | halt outcome phase r w => exact h

-- No step goes back to before the first block.
theorem step_late (format : Format) (adler : UInt32) {e : Engine} (h : isEarly e.phase = false) :
    isEarly (step format adler e).2.phase = false := by
  obtain ⟨phase, r, w, last⟩ := e
  unfold step
  cases phase with
  | header => cases h
  | dictionary missing id => cases h
  | block =>
      dsimp only
      split
      · cases format with
        | raw => rfl
        | zlib =>
            rw [endStep]
            split <;> rfl
      · unfold blockStep
        split
        · rfl
        · dsimp only
          split <;> rfl
  | storedLength =>
      dsimp only
      split <;> rfl
  | storedComplement length =>
      dsimp only
      split
      · rfl
      · split <;> rfl
  | stored left =>
      dsimp only
      split <;> rfl
  | codeLengths lengths =>
      unfold codeLengthsStep
      dsimp only
      split
      · rfl
      · rfl
      · split <;> rfl
  | symbol codes => exact symbols_late codes _ r w
  | lengthBits codes length extra => exact (fromLengthBits_late codes length extra r w).symbols codes
  | distance codes length => exact (fromDistance_late codes length r w).symbols codes
  | distanceBits codes length distance extra =>
      exact (fromDistanceBits_late codes length distance extra r w).symbols codes
  | trailer missing value =>
      unfold trailerStep
      dsimp only
      split
      · split <;> rfl
      · rfl
  | finished => rfl

-- The tables that a phase inside a compressed block holds.
def codesOf? : Phase → Option Codes
  | .symbol codes | .lengthBits codes .. | .distance codes _ | .distanceBits codes .. => some codes
  | _ => none

theorem Sound.codes_ready {e : Engine} (h : e.Sound) {codes : Codes}
    (hcodes : codesOf? e.phase = some codes) : codes.Ready := by
  obtain ⟨phase, r, w, last⟩ := e
  cases phase with
  | symbol codes => cases hcodes; exact h
  | lengthBits codes length extra => cases hcodes; exact h.1
  | distance codes length => cases hcodes; exact h.1
  | distanceBits codes length distance extra => cases hcodes; exact h.1
  | _ => cases hcodes

end Engine

namespace Decoder

variable {s : Decoder}

theorem read_late (h : Engine.isEarly s.engine.phase = false) (n : Nat) :
    Engine.isEarly (s.read n).2.engine.phase = false :=
  (run_rule (P := fun s => Engine.isEarly s.engine.phase = false) (Q := fun _ => True)
    (fun _ _ h => h) (fun _ h _ => ⟨Engine.step_late _ _ h, fun _ _ _ => trivial⟩) h n s.rounds
    ByteArray.empty (Nat.zero_le n)).1

-- Wherever the rounds of a call come to, the decoder is sound.
theorem Sound.reaches (h : s.Sound) {n : Nat} {out : ByteArray} {t : Decoder}
    (hreaches : Loop.Reaches (readRound n) (ByteArray.empty, s) (out, t)) : t.Sound := by
  have hround : ∀ u v : ByteArray × Decoder, (u.2.Sound ∧ u.1.size ≤ n) →
      readRound n u = .inl v → v.2.Sound ∧ v.1.size ≤ n := by
    rintro ⟨out, u⟩ v ⟨hsound, hsize⟩ hresult
    have hturn := readRound_turn hsound hsize (Nat.le_refl _)
    rw [hresult] at hturn
    exact ⟨hturn.1.1, hturn.1.2.1⟩
  exact (hreaches.invariant hround ⟨h, Nat.zero_le n⟩).1

theorem read_of_decode {data bytes : ByteArray} {n : Nat} {status : Status} {s' : Decoder}
    (h : s.decode data n = (.ok (bytes, status), s')) : (s.feed data).read n = (.ok bytes, s') := by
  rw [Decoder.decode] at h
  generalize (s.feed data).read n = result at h
  obtain ⟨outcome, t⟩ := result
  cases outcome with
  | error fault => cases h
  | ok new =>
      dsimp only at h
      split at h
      · cases h
        rfl
      · split at h
        · cases h
        · split at h <;> cases h <;> rfl

-- A call that hands out bytes lessens what can come.
theorem Sound.lessens (h : s.Sound) {n : Nat} {bytes : ByteArray} {s' : Decoder}
    (hread : s.read n = (.ok bytes, s')) : s'.Sound ∧ s'.capacity + bytes.size ≤ s.capacity := by
  have hturn := h.read_turn n
  rw [hread] at hturn
  cases hturn with
  | returned _ _ _ hsound hcapacity _ => exact ⟨hsound, hcapacity⟩

-- A round that goes on handed out some of the bytes that can come.
theorem decodeRound_lessens (h : s.Sound) {out : ByteArray} {next : ByteArray × Decoder}
    (hround : decodeRound (out, s) = .inl next) :
    next.2.Sound ∧ next.2.capacity < s.capacity := by
  have hlessens : ∀ {bytes status s'}, s.decode ByteArray.empty pieceSize = (.ok (bytes, status), s') →
      s'.Sound ∧ s'.capacity + bytes.size ≤ s.capacity := by
    intro bytes status s' hdecode
    obtain ⟨hsound, hcapacity⟩ := (h.feed ByteArray.empty).lessens (read_of_decode hdecode)
    rw [capacity_feed_empty] at hcapacity
    exact ⟨hsound, hcapacity⟩
  rw [decodeRound] at hround
  generalize s.decode ByteArray.empty pieceSize = result at hround hlessens
  obtain ⟨outcome, s'⟩ := result
  cases outcome with
  | error fault => cases hround
  | ok piece =>
      obtain ⟨bytes, status⟩ := piece
      cases status with
      | done => cases hround
      | needsInput | needsOutput =>
          obtain ⟨hsound, hcapacity⟩ := hlessens rfl
          dsimp only at hround
          split at hround
          · cases hround
          · cases hround
            exact ⟨hsound, by dsimp only; omega⟩

-- The loop over a whole stream ends, from wherever the decoder stands.
theorem decodeAll_ends (h : s.Sound) (data : ByteArray) :
    ∃ k, Loop.Ends decodeRound k (ByteArray.empty, s.feed data) (s.decodeAll data) := by
  have hround : ∀ t : ByteArray × Decoder, t.2.Sound → (decodeRound t).elim
      (fun t' => t'.2.Sound ∧ t'.2.capacity < t.2.capacity) fun _ => True := by
    rintro ⟨out, t⟩ hsound
    cases hresult : decodeRound (out, t) with
    | inl next => exact decodeRound_lessens hsound hresult
    | inr result => trivial
  obtain ⟨k, result, hends, hle, -⟩ := Loop.exists_ends (·.2.capacity) hround
    (s := (ByteArray.empty, s.feed data)) (h.feed data)
  refine ⟨k, ?_⟩
  rw [decodeAll, decodeRest, hends.run_eq _ (Nat.le_succ_of_le hle)]
  exact hends

end Decoder

end Deflate

namespace Zlib

open Deflate (Decoder)
open Deflate.Engine (isEarly)

-- Bytes that can come, and the dictionary that can be asked for.
def toCome (s : Decoder) : Nat :=
  s.capacity + if isEarly s.engine.phase then 1 else 0

theorem pending_preset {w w' : Window} {dictionary : ByteArray}
    (h : w.preset dictionary = (.ok (), w')) : w'.pending = 0 := by
  rw [Window.preset] at h
  split at h
  · rw [← (Prod.mk.inj h).2]
    rfl
  · cases h

-- A dictionary that is taken opens the first block.
theorem toCome_supplyDictionary {dictionary : ByteArray} {s s' : Decoder}
    (hawaits : s.awaitsDictionary = true) (h : s.supplyDictionary dictionary = (.ok (), s')) :
    isEarly s.engine.phase = true ∧ isEarly s'.engine.phase = false ∧ s'.capacity ≤ s.capacity := by
  obtain ⟨id, hid⟩ := Option.isSome_iff_exists.mp hawaits
  have hphase := Decoder.phase_of_awaitedDictionary hid
  refine ⟨by rw [hphase]; rfl, ?_⟩
  rw [Decoder.supplyDictionary] at h
  cases hformat : s.settings.format with
  | raw =>
      simp only [hformat, hphase] at h
      cases h
  | zlib =>
      simp only [hformat, hid] at h
      split at h
      · cases hpreset : s.engine.window.preset dictionary with
        | mk outcome w =>
            rw [hpreset] at h
            cases outcome with
            | error fault => cases h
            | ok _ =>
                have hnone := pending_preset hpreset
                cases h
                refine ⟨rfl, ?_⟩
                simp only [Decoder.capacity, hnone]
                omega
      · cases h

theorem unwrapRound_lessens {dictionary out : ByteArray} {s : Decoder} (h : s.Sound)
    {next : ByteArray × Decoder} (hround : unwrapRound dictionary (out, s) = .inl next) :
    next.2.Sound ∧ toCome next.2 < toCome s := by
  have hlessens : ∀ bytes s', s.read Decoder.pieceSize = (.ok bytes, s') →
      s'.Sound ∧ s'.capacity + bytes.size ≤ s.capacity := fun _ _ hread => h.lessens hread
  have hlate : isEarly s.engine.phase = false →
      isEarly (s.read Decoder.pieceSize).2.engine.phase = false :=
    fun hphase => Decoder.read_late hphase _
  rw [unwrapRound] at hround
  generalize s.read Decoder.pieceSize = result at hround hlessens hlate
  obtain ⟨outcome, s₁⟩ := result
  cases outcome with
  | error fault => cases hround
  | ok bytes =>
      obtain ⟨hsound, hcapacity⟩ := hlessens bytes s₁ rfl
      dsimp only at hround hlate
      have hearly : (if isEarly s₁.engine.phase then 1 else 0) ≤
          if isEarly s.engine.phase then 1 else 0 := by
        cases hphase : isEarly s.engine.phase with
        | true => split <;> simp
        | false => simp [hlate hphase]
      split at hround
      · rename_i hawaits
        have hsupply := hsound.supplyDictionary dictionary
        have hopens := @toCome_supplyDictionary dictionary s₁
        generalize s₁.supplyDictionary dictionary = result at hround hsupply hopens
        obtain ⟨outcome, s₂⟩ := result
        cases outcome with
        | error fault => cases hround
        | ok _ =>
            cases hround
            obtain ⟨hbefore, hafter, hless⟩ := hopens hawaits rfl
            refine ⟨hsupply, ?_⟩
            rw [if_pos hbefore] at hearly
            simp only [toCome, hafter, Bool.false_eq_true, if_false]
            omega
      · split at hround
        · cases hround
        · split at hround
          · cases hround
          · cases hround
            refine ⟨hsound, ?_⟩
            simp only [toCome]
            omega

-- The loop over a whole zlib stream ends.
theorem decompressWith_ends (dictionary data : ByteArray) :
    ∃ k, Loop.Ends (unwrapRound dictionary) k (ByteArray.empty, Decoder.zlib.feed data)
      (decompressWith dictionary data) := by
  have hround : ∀ t : ByteArray × Decoder, t.2.Sound → (unwrapRound dictionary t).elim
      (fun t' => t'.2.Sound ∧ toCome t'.2 < toCome t.2) fun _ => True := by
    rintro ⟨out, t⟩ hsound
    cases hresult : unwrapRound dictionary (out, t) with
    | inl next => exact unwrapRound_lessens hsound hresult
    | inr result => trivial
  obtain ⟨k, result, hends, hle, -⟩ := Loop.exists_ends (toCome ·.2) hround
    (s := (ByteArray.empty, Decoder.zlib.feed data)) ((Decoder.new_sound .zlib).feed data)
  have hrounds : k ≤ (Decoder.zlib.feed data).capacity + 3 := by
    dsimp only at hle
    rw [toCome] at hle
    split at hle <;> omega
  refine ⟨k, ?_⟩
  rw [decompressWith, decodeRest, hends.run_eq _ hrounds]
  exact hends

end Zlib

namespace Deflate.Decoder

-- Whatever was asked of a decoder before, and whatever failed: the rounds of a
-- call end, and so do the loops inside each of its steps. A call that asks for
-- bytes and gets none leaves nothing to be had from further calls, and nothing
-- that a caller can see changes. So the loops over whole streams end, whatever
-- the data. They come to an answer unless lengths cross.
theorem read_terminates (settings : Settings) (requests : List Request) (n : Nat) :
    let s := (new settings).serveAll requests
    (∃ k ≤ s.rounds, Loop.Ends (readRound n) k (ByteArray.empty, s) (s.read n)) ∧
    (∀ out t, Loop.Reaches (readRound n) (ByteArray.empty, s) (out, t) →
      ∀ codes, Engine.codesOf? t.engine.phase = some codes → ∀ r w, ∃ k ≤ r.available + 1,
        Loop.Ends (Engine.symbolRound codes) k (r, w) (Engine.symbols codes (r.available + 1) r w)) ∧
    (∀ lengths code r, ∃ k, Loop.Ends (CodeLengths.lengthRound code) k (lengths, r)
      (lengths.fromLengths code r)) ∧
    ((s.read n).1 = .ok ByteArray.empty → 0 < n → ∀ (sizes : List Nat) (m : Nat),
      let t := sizes.foldl (fun t size => (t.read size).2) (s.read n).2
      (t.read m).1 = .ok ByteArray.empty ∧ (t.read m).2.view = (s.read n).2.view) ∧
    (∀ data, ∃ k, Loop.Ends decodeRound k (ByteArray.empty, s.feed data) (s.decodeAll data)) ∧
    (∀ dictionary data, ∃ k, Loop.Ends (Zlib.unwrapRound dictionary) k
      (ByteArray.empty, zlib.feed data) (Zlib.decompressWith dictionary data)) ∧
    (∀ data, ((new settings).decodeAll data).1 = .error .overflow ↔
      settings.format.Crosses data.data.toList) ∧
    (∀ dictionary data, Zlib.decompressWith dictionary data = .error .overflow ↔
      Zlib.Crosses dictionary data.data.toList) := by
  intro s
  have hsound : s.Sound := (new_sound settings).serveAll requests
  obtain ⟨k, hk, hends, hturn⟩ := hsound.read_ends n
  refine ⟨⟨k, hk, hends⟩, fun out t hreaches codes hcodes r w => ?_, fun lengths code r => ?_,
    fun hnothing hn sizes m => ?_, fun data => decodeAll_ends hsound data,
    fun dictionary data => Zlib.decompressWith_ends dictionary data,
    decodeAll_new_overflow_iff settings, Zlib.decompressWith_overflow_iff⟩
  · exact Engine.symbols_ends ((hsound.reaches hreaches).codes_ready hcodes) r w
  · exact CodeLengths.readLengths_ends code _ lengths r (Nat.le_refl _)
  · generalize s.read n = result at hturn hnothing
    obtain ⟨outcome, s'⟩ := result
    dsimp only at hnothing
    subst hnothing
    cases hturn with
    | returned _ _ _ _ _ hrests =>
        have hresting : s'.Resting := hrests hn
        have hreads := hresting.reads sizes
        obtain ⟨hagain, hlast⟩ := (hresting.like hreads).read m
        exact ⟨hagain, (hreads.trans hlast).view_eq hresting.empty⟩

-- A block of no kind fails; the bits after it open a block whose length is not
-- there, and there the decoder stands still.
theorem read_terminates_after_fault :
    let s := (new .raw).serveAll [.feed ⟨#[0x06]⟩, .read 1]
    ((new .raw).serveAll [.feed ⟨#[0x06]⟩] |>.read 1).1 = .error (.corrupted 3 .reservedBlock) ∧
      (s.read 1).1 = .ok ByteArray.empty ∧ ((s.read 1).2.read 5).1 = .ok ByteArray.empty ∧
      ((s.read 1).2.read 5).2.view = (s.read 1).2.view := by
  intro s
  have hfault : ((new .raw).serveAll [.feed ⟨#[0x06]⟩] |>.read 1).1 =
      .error (.corrupted 3 .reservedBlock) := by decide +kernel
  have hnothing : (s.read 1).1 = .ok ByteArray.empty := by decide +kernel
  obtain ⟨-, -, -, hrests, -⟩ := read_terminates .raw [.feed ⟨#[0x06]⟩, .read 1] 1
  obtain ⟨hagain, hview⟩ := hrests hnothing Nat.one_pos [] 5
  exact ⟨hfault, hnothing, hagain, hview⟩

-- The loop ends, and still nothing is returned.
theorem decodeAll_unanswered :
    let data : ByteArray := ⟨#[0x05, 0xcc, 0x81, 0x81, 0x24, 0x49, 0x10, 0xc4, 0x20, 0xff, 0xad, 0x06,
      0x40, 0x91, 0xd5, 0xb3, 0xf7, 0x0f]⟩
    (raw.decodeAll data).1 = .error .overflow := by
  intro data
  exact (decodeAll_new_overflow_iff .raw data).mpr crosses_distances

end Deflate.Decoder

end Unpack
