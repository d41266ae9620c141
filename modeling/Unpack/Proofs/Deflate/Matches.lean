import Unpack.Proofs.Deflate.Leads
import Unpack.Proofs.Window.Refinement

namespace Unpack.Deflate

open Bits (Reader)
open Reference

-- The tables of a block decode its two codes.
structure Codes.Decodes (codes : Codes) (literal distance : Code) : Prop where
  literal : codes.literal.Decodes literal.lengths
  distance : codes.distance.Decodes distance.lengths

theorem Codes.fixed_decodes : Codes.fixed.Decodes fixedLiteral fixedDistance := by
  have hliteral : fixedLiteralLengths = fixedLiteral.lengths := by decide +kernel
  have hlongest : fixedLiteralLengths.foldl max 0 = 9 := by decide +kernel
  refine ⟨⟨by decide +kernel, fixedLiteral.sound, ?_⟩, ⟨by decide, fixedDistance.sound, ?_⟩⟩
  · rw [← hliteral, hlongest]
    rfl
  · rfl

namespace Engine

-- What is left of a match where the decoder stopped inside it.
inductive InMatch (codes : Codes) (distance : Code) : Phase → Decoding Unit → Prop where
  | lengthBits (base extra : Nat) (hlength : base + 2 ^ extra ≤ 259) :
      InMatch codes distance (.lengthBits codes base extra)
        (matchFromLengthBits distance base extra)
  | distance (length : Nat) (hlength : length ≤ longestMatch) :
      InMatch codes distance (.distance codes length) (matchFromDistance distance length)
  | distanceBits (length base extra : Nat) (hlength : length ≤ longestMatch) (hextra : 0 < extra)
      (hdistance : base + 2 ^ extra ≤ 32769) :
      InMatch codes distance (.distanceBits codes length base extra)
        (matchFromDistanceBits length base extra)

-- What a match comes to when it takes at least `spent` bits. All but `settled`
-- bytes of the history are in the window and not drained.
inductive Matches (codes : Codes) (distance : Code) (settled : Nat) (p : Decoding Unit)
    (history : List UInt8) (preset : Nat) (r : Reader) (w : Window) (spent : Nat) :
    AfterMatch → Prop where
  | next (next : Reader) (w' : Window) (longer : List UInt8)
      (hleads : Leads p (.at history preset r) (pure ()) (.at longer preset next))
      (hstarts : history <+: longer) (hgrowth : longer.length ≤ history.length + longestMatch)
      (hshows : w'.Shows ⟨longer, w'.pending⟩) (hsettled : longer.length = settled + w'.pending)
      (hbits : next.bits.length + spent ≤ r.bits.length) :
      Matches codes distance settled p history preset r w spent (.next next w')
  | failed (fault : Fault) (phase : Phase) (next : Reader) (w' : Window)
      (hleads : Leads p (.at history preset r) (fail fault) (.at history preset next)) :
      Matches codes distance settled p history preset r w spent (.halt (.error fault) phase next w')
  | starved (phase : Phase) (next : Reader) (q : Decoding Unit)
      (hinside : InMatch codes distance phase q) (hleads : LeadsAt p r q next)
      (hbits : next.bits.length ≤ r.bits.length) (hstarves : StarvesAt q next) :
      Matches codes distance settled p history preset r w spent (.halt (.ok false) phase next w)

variable {codes : Codes} {literal distance : Code} {settled preset : Nat} {history : List UInt8}
  {r : Reader} {w : Window}

theorem Matches.after {p q : Decoding Unit} {mid : Reader} {spent total : Nat} {result : AfterMatch}
    (h : Matches codes distance settled q history preset mid w spent result)
    (hleads : LeadsAt p r q mid) (hbits : mid.bits.length ≤ r.bits.length)
    (htotal : mid.bits.length + total ≤ r.bits.length + spent) :
    Matches codes distance settled p history preset r w total result := by
  cases h with
  | next next w' longer h hstarts hgrowth hshows hsettled hle =>
      exact .next next w' longer ((hleads history preset).trans h) hstarts hgrowth hshows hsettled
        (by omega)
  | failed fault phase next w' h =>
      exact .failed fault phase next w' ((hleads history preset).trans h)
  | starved phase next q' hinside h hle hstarves =>
      exact .starved phase next q' hinside (hleads.trans h) (by omega) hstarves

theorem Matches.fewer {p : Decoding Unit} {spent fewer : Nat} {result : AfterMatch}
    (h : Matches codes distance settled p history preset r w spent result) (hfewer : fewer ≤ spent) :
    Matches codes distance settled p history preset r w fewer result :=
  h.after (LeadsAt.refl _ _) (Nat.le_refl _) (Nat.add_le_add_left hfewer _)

-- With room for the longest match and a distance that DEFLATE can express, a
-- window copies what the reference copies.
theorem copyBack_cases (hshows : w.Shows ⟨history, w.pending⟩) {length reach : Nat}
    (hlength : length ≤ longestMatch) (hroom : longestMatch ≤ w.free) (hreach : reach ≤ Window.span)
    (preset : Nat) (r : Reader) :
    (∃ w', w.copyBack length reach = (.ok (), w') ∧
      w'.Shows ⟨Log.echo reach length history, w'.pending⟩ ∧ w'.pending = w.pending + length ∧
      Leads (copy length reach) (.at history preset r) (pure ())
        (.at (Log.echo reach length history) preset r)) ∨
    (∃ fault w', w.copyBack length reach = (.error fault, w') ∧
      Leads (copy length reach) (.at history preset r) (fail fault) (.at history preset r)) := by
  simp only [longestMatch, Window.span] at *
  obtain ⟨hanswer, hafter⟩ := Window.copyBack_shows hshows length reach (by
    simp only [Window.span, Window.countModulus]
    omega)
  have hfits : ¬Log.limit < w.pending + length := by
    simp only [Window.free, Window.span, Log.limit] at *
    omega
  rw [Log.copyBack, if_neg hfits] at hanswer hafter
  by_cases hinside : 0 < reach ∧ reach ≤ history.length
  · have hreached : ¬(reach = 0 ∨ Log.reach ⟨history, w.pending⟩ < reach) := by
      simp only [Log.reach, Log.limit]
      omega
    rw [if_neg hreached] at hanswer hafter
    exact Or.inl ⟨_, Prod.ext hanswer rfl, hafter.self, hafter.pending, fun more _ => if_pos hinside⟩
  · have hbeyond : reach = 0 ∨ Log.reach ⟨history, w.pending⟩ < reach := by
      simp only [Log.reach, Log.limit]
      omega
    rw [if_pos hbeyond] at hanswer
    exact Or.inr ⟨_, _, Prod.ext hanswer rfl, fun more _ => if_neg hinside⟩

theorem fromDistanceBits_matches (hshows : w.Shows ⟨history, w.pending⟩)
    (hsettled : history.length = settled + w.pending) (hroom : longestMatch ≤ w.free)
    {length base extra : Nat} (hlength : length ≤ longestMatch)
    (hdistance : base + 2 ^ extra ≤ 32769) (r : Reader) :
    Matches codes distance settled (matchFromDistanceBits length base extra) history preset r w extra
      (fromDistanceBits codes length base extra r w) := by
  unfold fromDistanceBits
  rcases read_cases r extra with ⟨more, next, hread, hmore, hbits, hleads⟩ |
    ⟨next, hread, hfew, hsame, hstarves⟩
  · have hleads := hleads.bind_pure fun more => copy length (base + more)
    simp only [hread]
    rcases copyBack_cases hshows hlength hroom
      (show base + more ≤ Window.span by simp only [Window.span]; omega) preset next with
      ⟨w', hcopy, hshows', hpending, hcopied⟩ | ⟨fault, w', hcopy, hfails⟩
    · simp only [hcopy]
      refine .next next w' _ ((hleads history preset).trans hcopied) (Log.prefix_echo _ _ _) ?_
        hshows' ?_ (by omega)
      · rw [Log.length_echo]
        omega
      · rw [Log.length_echo, hpending]
        omega
    · simp only [hcopy]
      exact .failed fault _ next w' ((hleads history preset).trans hfails)
  · simp only [hread]
    have hbits := congrArg List.length hsame.bits
    exact .starved _ next _ (.distanceBits length base extra hlength (by omega) hdistance)
      (LeadsAt.of_same _ hsame) (Nat.le_of_eq hbits) (hstarves.bind _)

theorem fromDistance_matches (hcodes : codes.Decodes literal distance)
    (hshows : w.Shows ⟨history, w.pending⟩) (hsettled : history.length = settled + w.pending)
    (hroom : longestMatch ≤ w.free) {length : Nat} (hlength : length ≤ longestMatch) (r : Reader) :
    Matches codes distance settled (matchFromDistance distance length) history preset r w 1
      (fromDistance codes length r w) := by
  unfold fromDistance
  rcases symbol_cases hcodes.distance r with ⟨symbol, next, hsymbol, -, hbits, hleads⟩ |
    ⟨next, hsymbol, hsame, hstarves⟩ | ⟨fault, next, hsymbol, hleads⟩
  · have hleads : LeadsAt (matchFromDistance distance length) r _ next := hleads.bind_pure _
    simp only [hsymbol, distanceCode?_eq]
    cases hrange : distanceRange? symbol with
    | some range =>
        obtain ⟨base, extra⟩ := range
        simp only [hrange] at hleads
        exact (fromDistanceBits_matches hshows hsettled hroom hlength (distanceRange?_le hrange)
          next).after hleads (by omega) (by omega)
    | none =>
        simp only [hrange] at hleads
        exact .failed _ _ next w ((hleads history preset).trans (leads_corrupted _ _))
  · simp only [hsymbol]
    exact .starved _ next _ (.distance length hlength) (LeadsAt.of_same _ hsame)
      (Nat.le_of_eq (congrArg List.length hsame.bits)) (hstarves.bind _)
  · simp only [hsymbol]
    exact .failed fault _ next w (hleads.bind_fail _ history preset)

theorem fromLengthBits_matches (hcodes : codes.Decodes literal distance)
    (hshows : w.Shows ⟨history, w.pending⟩) (hsettled : history.length = settled + w.pending)
    (hroom : longestMatch ≤ w.free) {base extra : Nat} (hlength : base + 2 ^ extra ≤ 259)
    (r : Reader) :
    Matches codes distance settled (matchFromLengthBits distance base extra) history preset r w 1
      (fromLengthBits codes base extra r w) := by
  unfold fromLengthBits
  rcases read_cases r extra with ⟨more, next, hread, hmore, hbits, hleads⟩ |
    ⟨next, hread, -, hsame, hstarves⟩
  · simp only [hread]
    refine (fromDistance_matches hcodes hshows hsettled hroom ?_ next).after
      (hleads.bind_pure fun more => matchFromDistance distance (base + more)) (by omega) (by omega)
    simp only [longestMatch]
    omega
  · simp only [hread]
    exact .starved _ next _ (.lengthBits base extra hlength) (LeadsAt.of_same _ hsame)
      (Nat.le_of_eq (congrArg List.length hsame.bits)) (hstarves.bind _)

end Engine

end Unpack.Deflate
