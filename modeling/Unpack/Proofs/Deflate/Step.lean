import Unpack.Proofs.Deflate.Engine

namespace Unpack.Deflate.Engine

open Bits (Reader)
open Reference

variable {format : Format} {settled preset bound : Nat} {history : List UInt8} {r : Reader}

-- A halt with nothing pending gets nowhere.
theorem no_progress {p : Prop} {pending : Nat} (hpending : pending = 0)
    (h : false = true ∨ 0 < pending) : p := by
  have := h.resolve_left Bool.false_ne_true
  omega

-- A step that takes bits, or goes down the order of phases.
theorem Steps.advance {p q : Decoding Unit} {e : Engine} (hstands : e.Stands format settled history q)
    (hleads : LeadsAt p r q e.input) (hbits : e.input.bits.length ≤ r.bits.length)
    (heffort : e.effort < bound) :
    Steps format settled preset p (.at history preset r) bound (.ok true, e) :=
  .moved true e q history hstands (hleads history preset) (follows_at hbits)
    (fun h => Bool.noConfusion h) fun _ => heffort

-- A step that finds nothing to read.
theorem Steps.starve {p q : Decoding Unit} {e : Engine} (hstands : e.Stands format settled history q)
    (hpending : e.window.pending = 0) (hleads : LeadsAt p r q e.input)
    (hbits : e.input.bits.length ≤ r.bits.length) (hstarves : StarvesAt q e.input) :
    Steps format settled preset p (.at history preset r) bound (.ok false, e) :=
  .moved false e q history hstands (hleads history preset) (follows_at hbits)
    (fun _ _ => .starved _ (hstarves history preset))
    (no_progress hpending)

theorem Steps.fail {p : Decoding Unit} {e : Engine} {fault : Fault} {next : Reader}
    (hleads : LeadsAt p r (fail fault) next) :
    Steps format settled preset p (.at history preset r) bound (.error fault, e) :=
  .failed fault e _ (hleads history preset)

theorem readWord_leads (missing : Nat) (value : UInt32) (r : Reader) :
    ∃ missing' value' next, readWord missing value r = (missing', value', next) ∧
      LeadsAt (word missing value) r (word missing' value') next ∧
      next.bits.length ≤ r.bits.length ∧ (missing' ≠ 0 → StarvesAt (word missing' value') next) := by
  induction missing generalizing value r with
  | zero => exact ⟨0, value, r, rfl, LeadsAt.refl _ _, Nat.le_refl _, fun h => absurd rfl h⟩
  | succ missing ih =>
      rw [readWord]
      rcases read_cases r 8 with ⟨byte, next, hread, -, hbits, hleads⟩ |
        ⟨next, hread, -, hsame, hstarves⟩
      · obtain ⟨missing', value', last, hword, hrest, hle, hstarves⟩ :=
          ih ((value <<< 8) ||| UInt32.ofNat byte) next
        refine ⟨missing', value', last, ?_, ?_, by omega, hstarves⟩
        · simp only [hread, hword]
        · exact (hleads.bind_pure fun byte => word missing ((value <<< 8) ||| UInt32.ofNat byte)).trans
            hrest
      · refine ⟨missing + 1, value, next, ?_, LeadsAt.of_same _ hsame,
          Nat.le_of_eq (congrArg List.length hsame.bits), fun _ => hstarves.bind _⟩
        simp only [hread]

variable {w : Window} {last : Bool} {adler : UInt32}

theorem header_steps (hshows : w.Shows ⟨history, w.pending⟩)
    (hsettled : history.length = settled + w.pending) (hpending : w.pending = 0) :
    Steps .zlib settled preset (stream .zlib) (.at history preset r) (4 * r.bits.length)
      (step .zlib adler ⟨.header, r, w, false⟩) := by
  simp only [step, headerStep]
  rcases read_cases r 16 with ⟨bits, next, hread, -, hbits, hleads⟩ |
    ⟨next, hread, -, hsame, hstarves⟩
  · have hleads := hleads.bind_pure fun bits => afterHeader (bits % 256 * 256 + bits / 256)
    simp only [hread]
    generalize bits % 256 * 256 + bits / 256 = header at hleads ⊢
    unfold afterHeader at hleads
    by_cases hcheck : header % 31 ≠ 0
    · rw [if_pos hcheck] at hleads ⊢
      exact .fail hleads
    rw [if_neg hcheck] at hleads ⊢
    by_cases hmethod : header / 256 % 16 ≠ 8
    · rw [if_pos hmethod] at hleads ⊢
      exact .fail hleads
    rw [if_neg hmethod] at hleads ⊢
    by_cases hwindow : 15 < header / 4096 + 8
    · rw [if_pos hwindow] at hleads ⊢
      exact .fail hleads
    rw [if_neg hwindow] at hleads ⊢
    by_cases hdictionary : header.testBit 5 = true
    · rw [if_pos hdictionary] at hleads ⊢
      refine .advance ⟨.dictionary 4 0 rfl, hshows, hsettled⟩ hleads (by dsimp only; omega) ?_
      simp only [effort, rank]
      omega
    · rw [if_neg hdictionary] at hleads ⊢
      refine .advance ⟨.block, hshows, hsettled⟩ hleads (by dsimp only; omega) ?_
      simp only [effort, rank]
      omega
  · simp only [hread]
    exact .starve ⟨.header rfl rfl, hshows, hsettled⟩ hpending (LeadsAt.of_same _ hsame)
      (Nat.le_of_eq (congrArg List.length hsame.bits)) (hstarves.bind _)

theorem dictionary_steps (hshows : w.Shows ⟨history, w.pending⟩)
    (hsettled : history.length = settled + w.pending) (hpending : w.pending = 0) (missing : Nat)
    (id : UInt32) :
    Steps format settled preset (dictionary missing id) (.at history preset r) bound
      (step format adler ⟨.dictionary missing id, r, w, false⟩) := by
  obtain ⟨missing', id', next, hword, hleads, hbits, hstarves⟩ := readWord_leads missing id r
  simp only [step, hword]
  have hleads := hleads.bind fun id => (throw (.awaits id) : Decoding Unit)
  have hstands : Stands format settled history ⟨.dictionary missing' id', next, w, false⟩
      (dictionary missing' id') := ⟨.dictionary missing' id' rfl, hshows, hsettled⟩
  cases missing' with
  | zero =>
      exact .moved false _ _ history hstands (hleads history preset) (follows_at hbits)
        (fun _ _ => .awaiting id')
        (no_progress hpending)
  | succ missing' =>
      exact .starve hstands hpending hleads hbits ((hstarves (Nat.succ_ne_zero _)).bind _)

theorem leadsAt_align_bind (q : Decoding Unit) (r : Reader) :
    LeadsAt (do align; q) r q r.align :=
  (leadsAt_align r).bind_pure fun _ => q

theorem bits_align_le (r : Reader) : r.align.bits.length ≤ r.bits.length := by
  rw [r.bits_align, List.length_drop]
  omega

theorem bits_align_mod (r : Reader) : r.align.bits.length % 8 = 0 := by
  rw [r.bits_align, List.length_drop]
  omega

theorem block_steps_last (hshows : w.Shows ⟨history, w.pending⟩)
    (hsettled : history.length = settled + w.pending) (hpending : w.pending = 0) :
    Steps format settled preset (after format true) (.at history preset r) (4 * r.bits.length + 1)
      (step format adler ⟨.block, r, w, true⟩) := by
  have hle := bits_align_le r
  have hnone : ¬0 < w.pending := by omega
  simp only [step, if_true, endStep, if_neg hnone]
  cases format with
  | raw =>
      exact .moved false _ _ history ⟨.finished, hshows, hsettled⟩ (leadsAt_align r history preset)
        (follows_at hle) (fun _ _ => .finished) (no_progress hpending)
  | zlib =>
      refine .advance ⟨.trailer 4 0 rfl, hshows, hsettled⟩
        (leadsAt_align_bind (do checksum (← word 4 0)) r) hle ?_
      simp only [effort, rank]
      omega

theorem block_steps (hshows : w.Shows ⟨history, w.pending⟩)
    (hsettled : history.length = settled + w.pending) (hpending : w.pending = 0) :
    Steps format settled preset (after format false) (.at history preset r) (4 * r.bits.length + 1)
      (step format adler ⟨.block, r, w, false⟩) := by
  simp only [step, blockStep, after, Bool.false_eq_true, if_false]
  rcases read_cases r 3 with ⟨head, next, hread, hhead, hbits, hleads⟩ |
    ⟨next, hread, -, hsame, hstarves⟩
  · have hleads := hleads.bind_pure fun head => content (head / 2) >>= fun () =>
      if head % 2 = 1 then ending format else blocksToEnd format
    rw [← blocksToEnd_eq_number] at hleads
    have hafter : (if head % 2 = 1 then ending format else blocksToEnd format) =
        after format (decide (head % 2 = 1)) := by
      simp only [after, decide_eq_true_eq]
    rw [hafter] at hleads
    have hkind : head / 2 < 4 := by omega
    simp only [hread]
    generalize decide (head % 2 = 1) = last at hleads ⊢
    obtain h | h | h | h : head / 2 = 0 ∨ head / 2 = 1 ∨ head / 2 = 2 ∨ head / 2 = 3 := by omega
    · simp only [h, content, bind_assoc] at hleads ⊢
      have hle := bits_align_le next
      refine .advance ⟨.storedLength (bits_align_mod next), hshows, hsettled⟩
        (hleads.trans (leadsAt_align_bind _ next)) (by dsimp only; omega) ?_
      simp only [effort, rank]
      omega
    · simp only [h, content] at hleads ⊢
      refine .advance ⟨.symbol _ _ _ Codes.fixed_decodes, hshows, hsettled⟩ hleads
        (by dsimp only; omega) ?_
      simp only [effort, rank]
      omega
    · simp only [h, content, bind_assoc] at hleads ⊢
      refine .advance ⟨.codeLengths .start _ (.literalCount .start rfl), hshows, hsettled⟩ hleads
        (by dsimp only; omega) ?_
      simp only [effort, rank]
      omega
    · simp only [h, content] at hleads ⊢
      exact .fail (hleads.trans ((leadsAt_corrupted _ next).bind_fail _))
  · simp only [hread]
    refine .starve ⟨.block, hshows, hsettled⟩ hpending (LeadsAt.of_same _ hsame)
      (Nat.le_of_eq (congrArg List.length hsame.bits)) ?_
    simp only [after, Bool.false_eq_true, if_false]
    rw [blocksToEnd_eq_number]
    exact hstarves.bind _

theorem storedLength_steps (hshows : w.Shows ⟨history, w.pending⟩)
    (hsettled : history.length = settled + w.pending) (hpending : w.pending = 0)
    (haligned : r.bits.length % 8 = 0) :
    Steps format settled preset (do storedLength; after format last) (.at history preset r)
      (4 * r.bits.length) (step format adler ⟨.storedLength, r, w, last⟩) := by
  simp only [step]
  rcases read_cases r 16 with ⟨length, next, hread, -, hbits, hleads⟩ |
    ⟨next, hread, -, hsame, hstarves⟩
  · simp only [hread]
    have hleads := (hleads.bind_pure storedComplement).bind fun _ => after format last
    refine .advance ⟨.storedComplement length (by dsimp only; omega), hshows, hsettled⟩ hleads
      (by dsimp only; omega) ?_
    simp only [effort, rank]
    omega
  · simp only [hread]
    have hbits := congrArg List.length hsame.bits
    exact .starve ⟨.storedLength (hbits ▸ haligned), hshows, hsettled⟩ hpending
      (LeadsAt.of_same _ hsame) (Nat.le_of_eq hbits) ((hstarves.bind _).bind _)

theorem storedComplement_steps (hshows : w.Shows ⟨history, w.pending⟩)
    (hsettled : history.length = settled + w.pending) (hpending : w.pending = 0)
    (haligned : r.bits.length % 8 = 0) (length : Nat) :
    Steps format settled preset (do storedComplement length; after format last)
      (.at history preset r) (4 * r.bits.length)
      (step format adler ⟨.storedComplement length, r, w, last⟩) := by
  simp only [step]
  rcases read_cases r 16 with ⟨complement, next, hread, -, hbits, hleads⟩ |
    ⟨next, hread, -, hsame, hstarves⟩
  · have hleads := (hleads.bind_pure fun complement =>
      if length + complement = 0xFFFF then bytes length
      else corrupted (.storedLength length complement)).bind fun _ => after format last
    simp only [hread]
    split
    · rename_i hmatch
      rw [if_pos hmatch] at hleads
      refine .advance ⟨.stored length (by dsimp only; omega), hshows, hsettled⟩ hleads
        (by dsimp only; omega) ?_
      simp only [effort, rank]
      omega
    · rename_i hmismatch
      rw [if_neg hmismatch] at hleads
      exact .fail (hleads.trans ((leadsAt_corrupted _ next).bind_fail _))
  · simp only [hread]
    have hbits := congrArg List.length hsame.bits
    exact .starve ⟨.storedComplement length (hbits ▸ haligned), hshows, hsettled⟩ hpending
      (LeadsAt.of_same _ hsame) (Nat.le_of_eq hbits) ((hstarves.bind _).bind _)

-- What a window takes from a reader at a byte boundary.
theorem copyFrom_leads (hshows : w.Shows ⟨history, w.pending⟩) (haligned : r.bits.length % 8 = 0)
    (preset length : Nat) :
    ∃ count next w', w.copyFrom r length = (w', next) ∧
      count = min (min length w.free) (r.bits.length / 8) ∧
      next.bits.length + 8 * count = r.bits.length ∧
      (count = r.bits.length / 8 → next.isStarved = true) ∧ w'.pending = w.pending + count ∧
      ∃ data : List UInt8, data.length = count ∧ w'.Shows ⟨history ++ data, w'.pending⟩ ∧
        Leads (bytes length) (.at history preset r) (bytes (length - count))
          (.at (history ++ data) preset next) := by
  obtain ⟨hafter, hnext⟩ := Window.copyFrom_shows hshows r length
  rw [← Reader.toList_take, ← hshows.free] at hafter
  rw [← hshows.free] at hnext
  obtain ⟨hsize, hdata, hbits, hconsumed⟩ := r.take_of_aligned (min length w.free) haligned
  have hlength := congrArg List.length hbits
  rw [List.length_drop] at hlength
  refine ⟨_, _, _, Prod.ext rfl hnext, hsize, by omega, r.isStarved_take _ haligned,
    hafter.pending, _, rfl, hafter.self, ?_⟩
  · have hsplit := List.take_append_drop (8 * (r.take (min length w.free)).1.size) r.bits
    rw [← hdata, ← hbits] at hsplit
    have hleads := leads_bytes (r.take (min length w.free)).1.data.toList _
      (length - (r.take (min length w.free)).1.size) (.at history preset r) hsplit.symm
    rw [Reader.length_toList, Nat.add_sub_of_le (by omega)] at hleads
    simpa only [State.at, hconsumed] using hleads

theorem stored_steps (hshows : w.Shows ⟨history, w.pending⟩)
    (hsettled : history.length = settled + w.pending) (hpending : w.pending = 0)
    (haligned : r.bits.length % 8 = 0) (left : Nat) :
    Steps format settled preset (do bytes left; after format last) (.at history preset r)
      (4 * r.bits.length + 2) (step format adler ⟨.stored left, r, w, last⟩) := by
  obtain ⟨count, next, w', hcopy, hcount, hbits, hdrained, hpending', data, hdata, hshows', hleads⟩ :=
    copyFrom_leads hshows haligned preset left
  have hcount' : r.availableBytes - next.availableBytes = count := by
    simp only [Reader.availableBytes, ← Reader.length_bits]
    omega
  have hstands : ∀ {phase q}, Residual format last next.bits phase q →
      Stands format settled (history ++ data) ⟨phase, next, w', last⟩ q := by
    intro phase q hresidual
    refine ⟨hresidual, hshows', ?_⟩
    show _ = settled + w'.pending
    rw [List.length_append, hdata]
    omega
  have hfollows : Follows (.at history preset r) (.at (history ++ data) preset next) := by
    refine ⟨List.prefix_append _ _, ?_⟩
    simp only [State.at, List.length_append, hdata, longestMatch]
    omega
  have hleads := hleads.bind fun () => after format last
  simp only [step, hcopy, hcount']
  by_cases hdone : left - count = 0
  · rw [if_pos hdone]
    rw [hdone, bytes, pure_bind] at hleads
    refine .moved true _ _ _ (hstands .block) hleads hfollows (fun h => Bool.noConfusion h) fun _ => ?_
    simp only [effort, rank]
    omega
  · rw [if_neg hdone]
    have hfree : w.free = 32768 := by rw [Window.free, hpending, Window.span]
    refine .moved _ _ _ _ (hstands (.stored _ (by omega))) hleads hfollows (fun _ hempty => ?_)
      fun hmoved => ?_
    · have hnothing : next.bits.length < 8 := by
        simp only at hempty
        omega
      obtain ⟨rest, hrest⟩ := Nat.exists_eq_succ_of_ne_zero hdone
      rw [hrest]
      exact .starved _ (((starves_number 8 _ hnothing).bind _).bind _)
    · have htaken : 0 < count := by
        rcases hmoved with hmoved | hmoved
        · have : count ≠ r.bits.length / 8 := by
            intro hall
            simp [hdrained hall] at hmoved
          omega
        · simp only at hmoved
          omega
      simp only [effort, rank]
      omega

theorem codeLengths_steps (hshows : w.Shows ⟨history, w.pending⟩)
    (hsettled : history.length = settled + w.pending) (hpending : w.pending = 0) {c : CodeLengths}
    {q : Decoding (Code × Code)} (hawaits : c.Awaits q) :
    Steps format settled preset (do
        let (literal, distance) ← q
        itemsToEnd format last literal distance) (.at history preset r)
      (4 * r.bits.length + 1) (step format adler ⟨.codeLengths c, r, w, last⟩) := by
  have hparses := CodeLengths.decode_parses hawaits r
  simp only [step, codeLengthsStep]
  generalize c.decode r = result at hparses
  cases hparses with
  | failed fault c' next hleads => exact .fail (hleads.bind_fail _)
  | suspended c' next q' hawaits' hbits hleads hstarves =>
      exact .starve ⟨.codeLengths c' q' hawaits', hshows, hsettled⟩ hpending (hleads.bind _) hbits
        (hstarves.bind _)
  | complete c' next hc hstage hsize hbits hleads =>
      dsimp only
      rcases CodeLengths.codes_cases hc hstage hsize with
        ⟨codes, literal, distance, hcodes, hliteral, hdistance, hpair⟩ | ⟨fault, hcodes, hpair⟩
      · rw [hcodes]
        rw [hpair] at hleads
        refine .advance ⟨.symbol codes literal distance ⟨hliteral, hdistance⟩, hshows, hsettled⟩
          (hleads.bind_pure _) hbits ?_
        simp only [effort, rank]
        omega
      · rw [hcodes]
        rw [hpair] at hleads
        exact .fail (hleads.bind_fail _)

-- Once all bytes of the checksum are there, they are compared.
theorem trailerStep_of_word (adler : UInt32) {missing : Nat} {value value' : UInt32}
    {r next : Reader} (hword : readWord missing value r = (0, value', next)) :
    trailerStep adler missing value r =
      if adler = value' then (.ok false, .finished, next)
      else (.error (.checksumMismatch .adler32 value' adler), .trailer 0 value', next) := by
  rw [trailerStep, hword]
  rfl

theorem trailer_steps (hshows : w.Shows ⟨history, w.pending⟩)
    (hsettled : history.length = settled + w.pending) (hpending : w.pending = 0)
    (hadler : adler = Adler32.of ⟨(history.drop preset).toArray⟩) (missing : Nat) (value : UInt32) :
    Steps .zlib settled preset (do checksum (← word missing value)) (.at history preset r) bound
      (step .zlib adler ⟨.trailer missing value, r, w, last⟩) := by
  obtain ⟨missing', value', next, hword, hleads, hbits, hstarves⟩ := readWord_leads missing value r
  have hleads := hleads.bind checksum
  simp only [step]
  cases missing' with
  | zero =>
      rw [trailerStep_of_word adler hword]
      rw [word, pure_bind] at hleads
      by_cases heq : adler = value'
      · rw [if_pos heq]
        refine .moved false _ _ history ⟨.finished, hshows, hsettled⟩
          ((hleads history preset).trans fun more _ => ?_) (follows_at hbits) (fun _ _ => .finished)
          (no_progress hpending)
        exact if_pos (hadler.symm.trans heq)
      · rw [if_neg heq]
        refine .failed _ _ (.at history preset next) ((hleads history preset).trans fun more _ => ?_)
        rw [hadler] at heq ⊢
        exact if_neg heq
  | succ missing' =>
      have htrailer : trailerStep adler missing value r =
          (.ok false, .trailer (missing' + 1) value', next) := by
        rw [trailerStep, hword]
        rfl
      rw [htrailer]
      exact .starve ⟨.trailer (missing' + 1) value' rfl, hshows, hsettled⟩ hpending hleads hbits
        ((hstarves (Nat.succ_ne_zero _)).bind _)

theorem inMatch_steps (hshows : w.Shows ⟨history, w.pending⟩)
    (hsettled : history.length = settled + w.pending) (hpending : w.pending = 0) {codes : Codes}
    {literal distance : Code} (hcodes : codes.Decodes literal distance) {phase : Phase}
    {q : Decoding Unit} (hinside : InMatch codes distance phase q) :
    Steps format settled preset (do q; itemsToEnd format last literal distance)
      (.at history preset r) (4 * r.bits.length) (step format adler ⟨phase, r, w, last⟩) := by
  have hroom : longestMatch ≤ w.free := by
    simp only [longestMatch, Window.free, hpending, Window.span]
    omega
  cases hinside with
  | lengthBits base extra hlength =>
      exact afterMatch_steps hcodes (fromLengthBits_matches hcodes hshows hsettled hroom hlength r)
        hshows hsettled hpending (Nat.le_refl _)
  | distance length hlength =>
      exact afterMatch_steps hcodes (fromDistance_matches hcodes hshows hsettled hroom hlength r)
        hshows hsettled hpending (Nat.le_refl _)
  | distanceBits length base extra hlength hextra hdistance =>
      exact afterMatch_steps hcodes
        ((fromDistanceBits_matches hshows hsettled hroom hlength hdistance r).fewer hextra)
        hshows hsettled hpending (Nat.le_refl _)

-- With an empty window and the checksum of all output, a step of the engine
-- does a part of what is left to do.
theorem step_steps {e : Engine} {q : Decoding Unit} (hstands : e.Stands format settled history q)
    (hpending : e.window.pending = 0)
    (hadler : format = .zlib → adler = Adler32.of ⟨(history.drop preset).toArray⟩) :
    Steps format settled preset q (.at history preset e.input) e.effort (step format adler e) := by
  obtain ⟨phase, r, w, last⟩ := e
  obtain ⟨hresidual, hshows, hsettled⟩ := hstands
  cases hresidual with
  | header hformat hlast =>
      cases hformat
      cases hlast
      exact header_steps hshows hsettled hpending
  | dictionary missing id hlast =>
      cases hlast
      exact dictionary_steps hshows hsettled hpending missing id
  | block =>
      cases last with
      | false => exact block_steps hshows hsettled hpending
      | true => exact block_steps_last hshows hsettled hpending
  | storedLength haligned => exact storedLength_steps hshows hsettled hpending haligned
  | storedComplement length haligned =>
      exact storedComplement_steps hshows hsettled hpending haligned length
  | stored left haligned => exact stored_steps hshows hsettled hpending haligned left
  | codeLengths c q hawaits => exact codeLengths_steps hshows hsettled hpending hawaits
  | symbol codes literal distance hcodes =>
      refine symbols_steps hcodes (r.available + 1)
        (Nat.lt_succ_of_le (Nat.le_of_eq r.length_bits)) hshows hsettled ?_
      rw [if_pos hpending]
      exact Nat.le_refl _
  | inMatch codes literal distance hcodes phase q hinside =>
      rw [effort, hinside.rank_eq]
      exact inMatch_steps hshows hsettled hpending hcodes hinside
  | trailer missing value hformat =>
      cases hformat
      exact trailer_steps hshows hsettled hpending (hadler rfl) missing value
  | finished =>
      exact .moved false _ _ history ⟨.finished, hshows, hsettled⟩ (Leads.refl _ _)
        (Follows.refl _) (fun _ _ => .finished)
        (no_progress hpending)

end Unpack.Deflate.Engine
