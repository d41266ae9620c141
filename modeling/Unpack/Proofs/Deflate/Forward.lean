import Unpack.Deflate.Decoder
import Unpack.Proofs.Bits.Advance
import Unpack.Proofs.Loop

namespace Unpack

open Bits (Reader)

namespace Huffman.Table

theorem advances_take (r : Reader) (slot : Slot) : r.Advances (take r slot).2 := by
  unfold take
  split
  · exact r.advances_drop _
  · exact .refl r

theorem advances_takeLast (t : Table) (r : Reader) : r.Advances (t.takeLast r).2 := by
  unfold takeLast
  dsimp only
  split
  · exact r.advances_drop _
  · exact .refl r

theorem advances_symbol (t : Table) (r : Reader) : r.Advances (t.symbol r).2 := by
  have hfetch := (r.same_fetch rootBits).advances
  unfold symbol
  dsimp only
  split
  · exact hfetch.trans (t.advances_takeLast _)
  · split
    · rename_i width _ _
      have hfetch := hfetch.trans ((r.fetch rootBits).same_fetch width).advances
      split
      · exact hfetch.trans (t.advances_takeLast _)
      · exact hfetch.trans (advances_take _ _)
    · exact hfetch.trans (advances_take _ _)

end Huffman.Table

namespace Deflate

open Huffman (Table)

namespace CodeLengths

theorem advances_readRun (c : CodeLengths) (code : Table) (symbol : Nat) (r : Reader) :
    r.Advances (c.readRun code symbol r).2.2 := by
  have hread := r.advances_read (runCode symbol).1
  rw [readRun]
  dsimp only
  generalize r.read (runCode symbol).1 = result at hread
  obtain ⟨more, next⟩ := result
  cases more with
  | none => exact hread
  | some more =>
      dsimp only
      split <;> exact hread

theorem advances_lengthRound (code : Table) (c : CodeLengths) (r : Reader) :
    (lengthRound code (c, r)).elim (fun s => r.Advances s.2) (fun result => r.Advances result.2.2) := by
  have hsymbol := code.advances_symbol r
  rw [lengthRound]
  generalize code.symbol r = result at hsymbol
  obtain ⟨answer, next⟩ := result
  split
  · exact .refl r
  match answer with
  | .error fault => exact hsymbol
  | .ok none => exact hsymbol
  | .ok (some symbol) =>
      dsimp only
      split
      · exact hsymbol
      · split
        · exact hsymbol
        · have hrun := hsymbol.trans (c.advances_readRun code symbol next)
          generalize c.readRun code symbol next = result at hrun
          obtain ⟨outcome, c', last⟩ := result
          match outcome with
          | .error fault => exact hrun
          | .ok false => exact hrun
          | .ok true => exact hrun

theorem advances_readLengths (code : Table) (rounds : Nat) (c : CodeLengths) (r : Reader) :
    r.Advances (readLengths code rounds c r).2.2 := by
  refine Loop.run_rule (P := fun s => r.Advances s.2)
    (Q := fun result : Except Fault Bool × CodeLengths × Reader => r.Advances result.2.2)
    (fun s hs => ?_) (fun _ hs => hs) rounds (.refl r)
  have hround := advances_lengthRound code s.1 s.2
  generalize lengthRound code (s.1, s.2) = result at hround
  cases result <;> exact hs.trans hround

-- Reading a number and going on from there.
theorem advances_number (c : CodeLengths) (r : Reader) (n : Nat)
    {k : Nat → Reader → Except Fault Bool × CodeLengths × Reader}
    (hk : ∀ (number : Nat) (next : Reader), next.Advances (k number next).2.2) :
    r.Advances (match r.read n with
      | (none, r) => ((.ok false, c, r) : Except Fault Bool × CodeLengths × Reader)
      | (some number, r) => k number r).2.2 := by
  have hread := r.advances_read n
  generalize r.read n = result at hread
  obtain ⟨number, next⟩ := result
  cases number with
  | none => exact hread
  | some number => exact hread.trans (hk number next)

theorem advances_readOrder (count missing : Nat) (seen : Array Nat) (c : CodeLengths)
    (r : Reader) : r.Advances (readOrder count missing seen c r).2.2 := by
  induction missing generalizing seen r with
  | zero =>
      rw [readOrder]
      split
      · exact .refl r
      · exact advances_readLengths _ _ _ r
  | succ missing ih => exact advances_number _ r 3 fun length next => ih (seen.push length) next

theorem advances_fromOrderCount (c : CodeLengths) (r : Reader) :
    r.Advances (c.fromOrderCount r).2.2 :=
  advances_number _ r 4 fun more next => advances_readOrder (more + 4) (more + 4) #[] c next

theorem advances_fromDistanceCount (c : CodeLengths) (r : Reader) :
    r.Advances (c.fromDistanceCount r).2.2 :=
  advances_number _ r 5 fun _ next => advances_fromOrderCount _ next

theorem advances_fromLiteralCount (c : CodeLengths) (r : Reader) :
    r.Advances (c.fromLiteralCount r).2.2 :=
  advances_number _ r 5 fun _ next => advances_fromDistanceCount _ next

theorem advances_decode (c : CodeLengths) (r : Reader) : r.Advances (c.decode r).2.2 := by
  rw [decode]
  cases c.stage with
  | literalCount => exact c.advances_fromLiteralCount r
  | distanceCount => exact c.advances_fromDistanceCount r
  | orderCount => exact c.advances_fromOrderCount r
  | order count seen => exact advances_readOrder _ _ _ _ r
  | lengths code => exact advances_readLengths _ _ _ r
  | repeating code symbol =>
      have hrun := c.advances_readRun code symbol r
      dsimp only
      generalize c.readRun code symbol r = result at hrun
      obtain ⟨outcome, c', next⟩ := result
      match outcome with
      | .error fault => exact hrun
      | .ok false => exact hrun
      | .ok true => exact hrun.trans (advances_readLengths _ _ _ next)
  | complete => exact .refl r

end CodeLengths

namespace Engine

theorem advances_readWord (missing : Nat) (value : UInt32) (r : Reader) :
    r.Advances (readWord missing value r).2.2 := by
  induction missing generalizing value r with
  | zero => exact .refl r
  | succ missing ih =>
      have hread := r.advances_read 8
      rw [readWord]
      generalize r.read 8 = result at hread
      obtain ⟨byte, next⟩ := result
      cases byte with
      | none => exact hread
      | some byte => exact hread.trans (ih _ next)

-- The reader that a match leaves.
def AfterMatch.input : AfterMatch → Reader
  | .next r _ => r
  | .halt _ _ r _ => r

theorem advances_fromDistanceBits (codes : Codes) (length distance extra : Nat) (r : Reader)
    (w : Window) : r.Advances (fromDistanceBits codes length distance extra r w).input := by
  have hread := r.advances_read extra
  rw [fromDistanceBits]
  generalize r.read extra = result at hread
  obtain ⟨more, next⟩ := result
  cases more with
  | none => exact hread
  | some more =>
      dsimp only
      split <;> exact hread

theorem advances_fromDistance (codes : Codes) (length : Nat) (r : Reader) (w : Window) :
    r.Advances (fromDistance codes length r w).input := by
  have hsymbol := codes.distance.advances_symbol r
  rw [fromDistance]
  generalize codes.distance.symbol r = result at hsymbol
  obtain ⟨answer, next⟩ := result
  match answer with
  | .error fault => exact hsymbol
  | .ok none => exact hsymbol
  | .ok (some symbol) =>
      dsimp only
      split
      · exact hsymbol.trans (advances_fromDistanceBits _ _ _ _ next w)
      · exact hsymbol

theorem advances_fromLengthBits (codes : Codes) (length extra : Nat) (r : Reader) (w : Window) :
    r.Advances (fromLengthBits codes length extra r w).input := by
  have hread := r.advances_read extra
  rw [fromLengthBits]
  generalize r.read extra = result at hread
  obtain ⟨more, next⟩ := result
  cases more with
  | none => exact hread
  | some more => exact hread.trans (advances_fromDistance _ _ next w)

theorem advances_symbolRound (codes : Codes) (r : Reader) (w : Window) :
    (symbolRound codes (r, w)).elim (fun s => r.Advances s.1) (fun result => r.Advances result.2.2.1) := by
  have hsymbol := codes.literal.advances_symbol r
  rw [symbolRound]
  generalize codes.literal.symbol r = result at hsymbol
  obtain ⟨answer, next⟩ := result
  split
  · exact .refl r
  match answer with
  | .error fault => exact hsymbol
  | .ok none => exact hsymbol
  | .ok (some symbol) =>
      dsimp only
      split
      · split <;> exact hsymbol
      · split
        · exact hsymbol
        · split
          · rename_i length extra _
            have hmatch := hsymbol.trans (advances_fromLengthBits codes length extra next w)
            generalize fromLengthBits codes length extra next w = result at hmatch
            cases result <;> exact hmatch
          · exact hsymbol

theorem advances_symbols (codes : Codes) (rounds : Nat) (r : Reader) (w : Window) :
    r.Advances (symbols codes rounds r w).2.2.1 := by
  refine Loop.run_rule (P := fun s => r.Advances s.1)
    (Q := fun result : Except Fault Bool × Phase × Reader × Window => r.Advances result.2.2.1)
    (fun s hs => ?_) (fun _ hs => hs) rounds (.refl r)
  have hround := advances_symbolRound codes s.1 s.2
  generalize symbolRound codes (s.1, s.2) = result at hround
  cases result <;> exact hs.trans hround

theorem advances_afterMatch (codes : Codes) (result : AfterMatch) :
    result.input.Advances (afterMatch codes result).2.2.1 := by
  cases result with
  | next r w => exact advances_symbols _ _ r w
  | halt outcome phase r w => exact .refl r

theorem advances_headerStep (r : Reader) : r.Advances (headerStep r).2.2 := by
  have hread := r.advances_read 16
  rw [headerStep]
  generalize r.read 16 = result at hread
  obtain ⟨bits, next⟩ := result
  cases bits with
  | none => exact hread
  | some bits =>
      dsimp only
      repeat' split
      all_goals exact hread

theorem advances_blockStep (last : Bool) (r : Reader) : r.Advances (blockStep last r).2.2.1 := by
  have hread := r.advances_read 3
  rw [blockStep]
  generalize r.read 3 = result at hread
  obtain ⟨bits, next⟩ := result
  cases bits with
  | none => exact hread
  | some bits =>
      dsimp only
      split
      · exact hread.trans next.advances_align
      all_goals exact hread

theorem advances_endStep (format : Format) (r : Reader) (w : Window) :
    r.Advances (endStep format r w).2.2 := by
  cases format with
  | raw => exact r.advances_align
  | zlib =>
      rw [endStep]
      split <;> exact r.advances_align

theorem advances_trailerStep (adler : UInt32) (missing : Nat) (value : UInt32) (r : Reader) :
    r.Advances (trailerStep adler missing value r).2.2 := by
  have hword := advances_readWord missing value r
  rw [trailerStep]
  generalize readWord missing value r = result at hword
  obtain ⟨missing', value', next⟩ := result
  cases missing' with
  | zero =>
      simp only
      split <;> exact hword
  | succ missing' => exact hword

theorem advances_codeLengthsStep (lengths : CodeLengths) (r : Reader) :
    r.Advances (codeLengthsStep lengths r).2.2 := by
  have hdecode := lengths.advances_decode r
  rw [codeLengthsStep]
  generalize lengths.decode r = result at hdecode
  obtain ⟨outcome, lengths', next⟩ := result
  match outcome with
  | .error fault => exact hdecode
  | .ok false => exact hdecode
  | .ok true =>
      dsimp only
      split <;> exact hdecode

-- Whatever the engine is in the midst of, a step only consumes bits.
theorem advances_step (format : Format) (adler : UInt32) (e : Engine) :
    e.input.Advances (e.step format adler).2.input := by
  obtain ⟨phase, r, w, last⟩ := e
  unfold step
  cases phase with
  | header => exact advances_headerStep r
  | dictionary missing id => exact advances_readWord missing id r
  | block =>
      dsimp only
      split
      · exact advances_endStep format r w
      · exact advances_blockStep last r
  | storedLength =>
      have hread := r.advances_read 16
      dsimp only
      generalize r.read 16 = result at hread
      obtain ⟨length, next⟩ := result
      cases length <;> exact hread
  | storedComplement length =>
      have hread := r.advances_read 16
      dsimp only
      generalize r.read 16 = result at hread
      obtain ⟨complement, next⟩ := result
      cases complement with
      | none => exact hread
      | some complement =>
          dsimp only
          split <;> exact hread
  | stored left =>
      have htake := r.advances_take (min left w.free)
      dsimp only
      split <;> exact htake
  | codeLengths lengths => exact advances_codeLengthsStep lengths r
  | symbol codes => exact advances_symbols codes _ r w
  | lengthBits codes length extra =>
      exact (advances_fromLengthBits codes length extra r w).trans (advances_afterMatch codes _)
  | distance codes length =>
      exact (advances_fromDistance codes length r w).trans (advances_afterMatch codes _)
  | distanceBits codes length distance extra =>
      exact (advances_fromDistanceBits codes length distance extra r w).trans
        (advances_afterMatch codes _)
  | trailer missing value => exact advances_trailerStep adler missing value r
  | finished => exact .refl r

end Engine

end Deflate

end Unpack
