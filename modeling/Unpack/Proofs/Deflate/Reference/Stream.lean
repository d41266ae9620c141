import Unpack.Proofs.Deflate.Reference.Parts
import Unpack.Proofs.Huffman.Layout

namespace Unpack.Deflate.Reference

open Huffman (Complete Degenerate Table)

-- The first eight ranges of lengths hold one length each, and every four ranges
-- the number of extra bits grows by one. The last symbol stands for the longest
-- match alone.
def lengthExtra (index : Nat) : Nat :=
  if index < 8 ∨ index = 28 then 0 else index / 4 - 1

-- Each range begins where the one before ends.
def lengthBase (index : Nat) : Nat :=
  if index = 28 then 258 else 3 + ((List.range index).map fun i => 2 ^ lengthExtra i).sum

def lengthRange? (index : Nat) : Option (Nat × Nat) :=
  if index < 29 then some (lengthBase index, lengthExtra index) else none

-- As for lengths, with four ranges to begin with and growth every two.
def distanceExtra (index : Nat) : Nat :=
  index / 2 - 1

def distanceBase (index : Nat) : Nat :=
  1 + ((List.range index).map fun i => 2 ^ distanceExtra i).sum

def distanceRange? (index : Nat) : Option (Nat × Nat) :=
  if index < 30 then some (distanceBase index, distanceExtra index) else none

theorem lengthCode?_eq (symbol : Nat) :
    Engine.lengthCode? symbol = lengthRange? (symbol - 257) := by
  have hranges : ∀ index < 29, lengthCodes[index]? = some (lengthBase index, lengthExtra index) := by
    decide
  unfold Engine.lengthCode? lengthRange?
  split
  · exact hranges _ ‹_›
  · exact Array.getElem?_eq_none (Nat.le_of_not_lt ‹_›)

theorem distanceCode?_eq (symbol : Nat) : Engine.distanceCode? symbol = distanceRange? symbol := by
  have hranges : ∀ index < 30,
      distanceCodes[index]? = some (distanceBase index, distanceExtra index) := by
    decide
  unfold Engine.distanceCode? distanceRange?
  split
  · exact hranges _ ‹_›
  · exact Array.getElem?_eq_none (Nat.le_of_not_lt ‹_›)

theorem lengthRange?_le {index base extra : Nat} (h : lengthRange? index = some (base, extra)) :
    base + 2 ^ extra ≤ 259 := by
  have hranges : ∀ index < 29, lengthBase index + 2 ^ lengthExtra index ≤ 259 := by decide
  unfold lengthRange? at h
  split at h
  · cases h
    exact hranges _ ‹_›
  · cases h

theorem distanceRange?_le {index base extra : Nat} (h : distanceRange? index = some (base, extra)) :
    base + 2 ^ extra ≤ 32769 := by
  have hranges : ∀ index < 30, distanceBase index + 2 ^ distanceExtra index ≤ 32769 := by decide
  unfold distanceRange? at h
  split at h
  · cases h
    exact hranges _ ‹_›
  · cases h

-- A match, from the extra bits of its distance on, from the symbol of its
-- distance on, and from the extra bits of its length on.
def matchFromDistanceBits (length base extra : Nat) : Decoding Unit := do
  let more ← number extra
  copy length (base + more)

def matchFromDistance (distance : Code) (length : Nat) : Decoding Unit := do
  let symbol ← symbol distance
  match distanceRange? symbol with
  | some (base, extra) => matchFromDistanceBits length base extra
  | none => corrupted (.distanceSymbol symbol)

def matchFromLengthBits (distance : Code) (base extra : Nat) : Decoding Unit := do
  let more ← number extra
  matchFromDistance distance (base + more)

-- What a symbol of the literal and length alphabet stands for. The answer tells
-- whether the block goes on.
def meaning (distance : Code) (symbol : Nat) : Decoding Bool :=
  if symbol < endOfBlock then do
    emit symbol.toUInt8
    return true
  else if symbol = endOfBlock then
    return false
  else
    match lengthRange? (symbol - 257) with
    | some (base, extra) => do
        matchFromLengthBits distance base extra
        return true
    | none => corrupted (.literalSymbol symbol)

def item (literal distance : Code) : Decoding Bool :=
  symbol literal >>= meaning distance

theorem local_matchFromDistanceBits (length base extra : Nat) :
    Local (matchFromDistanceBits length base extra) :=
  (local_number extra).bind fun _ => local_copy _ _

theorem local_matchFromDistance (distance : Code) (length : Nat) :
    Local (matchFromDistance distance length) := by
  refine (takes_symbol distance).isLocal.bind fun symbol => ?_
  split
  · exact local_matchFromDistanceBits _ _ _
  · exact local_corrupted _

theorem local_matchFromLengthBits (distance : Code) (base extra : Nat) :
    Local (matchFromLengthBits distance base extra) :=
  (local_number extra).bind fun _ => local_matchFromDistance _ _

theorem local_meaning (distance : Code) (symbol : Nat) : Local (meaning distance symbol) := by
  unfold meaning
  split
  · exact (local_emit _).bind fun _ => Local.pure _
  split
  · exact Local.pure _
  split
  · exact (local_matchFromLengthBits _ _ _).bind fun _ => Local.pure _
  · exact local_corrupted _

theorem takes_item (literal distance : Code) : Takes (item literal distance) :=
  (takes_symbol literal).bind fun symbol => local_meaning distance symbol

-- A part and then the same again, as long as it answers true.
def repeating (part : Decoding Bool) (htakes : Takes part) : Decoding Unit :=
  loop (fun () => do return if ← part then .inr () else .inl ())
    (.of_takes fun () => htakes.bind fun _ => Local.pure _) ()

theorem repeating_eq (part : Decoding Bool) (htakes : Takes part) :
    repeating part htakes = do if ← part then repeating part htakes else return () := by
  conv => lhs; rw [repeating, loop_eq, bind_assoc]
  congr 1
  funext more
  cases more <;> rfl

theorem local_repeating {part : Decoding Bool} (htakes : Takes part) :
    Local (repeating part htakes) :=
  local_loop _ (fun () => htakes.isLocal.bind fun _ => Local.pure _) ()

def items (literal distance : Code) : Decoding Unit :=
  repeating (item literal distance) (takes_item literal distance)

theorem items_eq (literal distance : Code) :
    items literal distance = symbol literal >>= fun symbol => meaning distance symbol >>= fun more =>
      if more then items literal distance else pure () :=
  (repeating_eq _ _).trans (bind_assoc _ _ _)

-- The bytes of a stored block.
def bytes : (count : Nat) → Decoding Unit
  | 0 => return ()
  | count + 1 => do
      let byte ← number 8
      emit byte.toUInt8
      bytes count

def storedComplement (length : Nat) : Decoding Unit := do
  let complement ← number 16
  if length + complement = 0xFFFF then bytes length
  else corrupted (.storedLength length complement)

def storedLength : Decoding Unit := do
  let length ← number 16
  storedComplement length

theorem local_bytes (count : Nat) : Local (bytes count) := by
  induction count with
  | zero => exact Local.pure _
  | succ count ih => exact (local_number 8).bind fun _ => (local_emit _).bind fun _ => ih

theorem local_storedComplement (length : Nat) : Local (storedComplement length) := by
  refine (local_number 16).bind fun complement => ?_
  split
  · exact local_bytes _
  · exact local_corrupted _

theorem local_storedLength : Local storedLength :=
  (local_number 16).bind fun _ => local_storedComplement _

-- Lengths that make a code, or why they do not. `name` tells which code it is.
-- There is no answer to lengths that overfill the code space so far that the
-- difference of two stems is below zero.
def checked (lengths : List Nat) (lenient : Bool) (name : TableFlaw → TableFlaw) : Decoding Code :=
  if h : Complete lengths ∨ lenient = true ∧ Degenerate lengths then
    return ⟨lengths, h.imp_right And.right⟩
  else if Table.Crosses lengths then
    fail .overflow
  else
    fail (.invalidTable (name (Table.imbalance lengths)))

theorem local_checked (lengths : List Nat) (lenient : Bool) (name : TableFlaw → TableFlaw) :
    Local (checked lengths lenient name) := by
  unfold checked
  split
  · exact Local.pure _
  · split <;> exact local_fail _

-- Both codes of a dynamic block from the lengths that it announces.
def checkedPair (literals : Nat) (lengths : List Nat) : Decoding (Code × Code) :=
  if (lengths.take literals).getD endOfBlock 0 = 0 then
    fail (.invalidTable .noEndOfBlock)
  else do
    let literal ← checked (lengths.take literals) false id
    let distance ← checked (lengths.drop literals) true id
    return (literal, distance)

theorem local_checkedPair (literals : Nat) (lengths : List Nat) :
    Local (checkedPair literals lengths) := by
  unfold checkedPair
  split
  · exact local_fail _
  · exact (local_checked _ _ _).bind fun _ => (local_checked _ _ _).bind fun _ => Local.pure _

-- Extra bits and least count of the runs that the symbols from 16 on stand for.
def runBits (symbol : Nat) : Nat :=
  if symbol = 16 then 2 else if symbol = 17 then 3 else 7

def runBase (symbol : Nat) : Nat :=
  if symbol < 18 then 3 else 11

def appendRun (total count value : Nat) (lengths : List Nat) : Decoding (List Nat) :=
  if lengths.length + count ≤ total then return lengths ++ List.replicate count value
  else corrupted (.repeatOverrun count total)

-- A run of the last length, or of zeros.
def run (total symbol : Nat) (lengths : List Nat) : Decoding (List Nat) := do
  let more ← number (runBits symbol)
  appendRun total (runBase symbol + more) (if symbol = 16 then lengths.getLast?.getD 0 else 0) lengths

-- What a symbol of the code length code adds. The last length of one alphabet
-- cannot be repeated in the other.
def addition (literals total symbol : Nat) (lengths : List Nat) : Decoding (List Nat) :=
  if symbol < 16 then
    return lengths ++ [symbol]
  else if symbol = 16 ∧ lengths.length = 0 then
    corrupted (.repeatAtStart .literal)
  else if symbol = 16 ∧ lengths.length = literals then
    corrupted (.repeatAtStart .distance)
  else
    run total symbol lengths

-- One more symbol, as long as lengths are missing.
def addNext (code : Code) (literals total : Nat) (lengths : List Nat) :
    Decoding (List Nat ⊕ List Nat) :=
  if total ≤ lengths.length then
    return .inl lengths
  else do
    let symbol ← symbol code
    let lengths ← addition literals total symbol lengths
    return .inr lengths

theorem local_run (total symbol : Nat) (lengths : List Nat) : Local (run total symbol lengths) := by
  refine (local_number _).bind fun more => ?_
  unfold appendRun
  split
  · exact Local.pure _
  · exact local_corrupted _

theorem local_addition (literals total symbol : Nat) (lengths : List Nat) :
    Local (addition literals total symbol lengths) := by
  unfold addition
  split
  · exact Local.pure _
  split
  · exact local_corrupted _
  split
  · exact local_corrupted _
  · exact local_run _ _ _

theorem takes_addition (code : Code) (literals total : Nat) (lengths : List Nat) :
    Takes (do return .inr (← addition literals total (← symbol code) lengths) :
      Decoding (List Nat ⊕ List Nat)) :=
  (takes_symbol code).bind fun _ => (local_addition _ _ _ _).bind fun _ => Local.pure _

theorem local_addNext (code : Code) (literals total : Nat) (lengths : List Nat) :
    Local (addNext code literals total lengths) := by
  unfold addNext
  split
  · exact Local.pure _
  · exact (takes_addition code literals total lengths).isLocal

theorem advances_addNext (code : Code) (literals total : Nat) :
    Advances (addNext code literals total) := by
  intro lengths s next t h
  unfold addNext at h
  split at h
  · cases h
  · exact (takes_addition code literals total lengths).shorter s _ t h

def allLengths (code : Code) (literals total : Nat) (lengths : List Nat) : Decoding (List Nat) :=
  loop (addNext code literals total) (advances_addNext code literals total) lengths

theorem allLengths_of_le (code : Code) {literals total : Nat} {lengths : List Nat}
    (h : total ≤ lengths.length) : allLengths code literals total lengths = pure lengths := by
  rw [allLengths, loop_eq, addNext, if_pos h, pure_bind, Sum.elim_inl]

theorem allLengths_of_lt (code : Code) {literals total : Nat} {lengths : List Nat}
    (h : lengths.length < total) :
    allLengths code literals total lengths = symbol code >>= fun symbol =>
      addition literals total symbol lengths >>= allLengths code literals total := by
  conv => lhs; rw [allLengths, loop_eq, addNext, if_neg (Nat.not_le.mpr h)]
  simp only [bind_assoc, pure_bind, Sum.elim_inr]
  rfl

-- The lengths of the code length code, in the order in which they are sent.
def order : (missing : Nat) → (seen : List Nat) → Decoding (List Nat)
  | 0, seen => return seen
  | missing + 1, seen => do
      let length ← number 3
      order missing (seen ++ [length])

-- The same by symbol.
def bySymbol (seen : List Nat) : List Nat :=
  (List.range 19).map fun symbol => seen.getD (codeLengthOrder.idxOf symbol) 0

-- The codes of a dynamic block, from several places in its header on.
def codesFromLengths (code : Code) (literals total : Nat) (lengths : List Nat) :
    Decoding (Code × Code) := do
  let lengths ← allLengths code literals total lengths
  checkedPair literals lengths

def codesFromOrder (literals distances missing : Nat) (seen : List Nat) : Decoding (Code × Code) := do
  let seen ← order missing seen
  let code ← checked (bySymbol seen) false .inCodeLengthCode
  codesFromLengths code literals (literals + distances) []

def codesFromOrderCount (literals distances : Nat) : Decoding (Code × Code) := do
  let more ← number 4
  codesFromOrder literals distances (more + 4) []

def codesFromDistanceCount (literals : Nat) : Decoding (Code × Code) := do
  let more ← number 5
  codesFromOrderCount literals (more + 1)

def dynamicCodes : Decoding (Code × Code) := do
  let more ← number 5
  codesFromDistanceCount (more + 257)

theorem local_order (missing : Nat) (seen : List Nat) : Local (order missing seen) := by
  induction missing generalizing seen with
  | zero => exact Local.pure _
  | succ missing ih => exact (local_number 3).bind fun _ => ih _

theorem local_codesFromLengths (code : Code) (literals total : Nat) (lengths : List Nat) :
    Local (codesFromLengths code literals total lengths) :=
  (local_loop _ (local_addNext code _ _) _).bind fun _ => local_checkedPair _ _

theorem local_dynamicCodes : Local dynamicCodes :=
  (local_number 5).bind fun _ => (local_number 5).bind fun _ => (local_number 4).bind fun _ =>
    (local_order _ _).bind fun _ => (local_checked _ _ _).bind fun _ => local_codesFromLengths _ _ _ _

-- The codes of a fixed block. Literals take eight or nine bits, and the symbols
-- from the end of the block on seven or eight.
def fixedLiteral : Code where
  lengths := (List.range 288).map fun symbol =>
    if symbol < 144 then 8 else if symbol < 256 then 9 else if symbol < 280 then 7 else 8
  sound := by decide +kernel

def fixedDistance : Code where
  lengths := List.replicate 32 5
  sound := by decide

-- What follows the two bits that tell the kind of a block.
def content (kind : Nat) : Decoding Unit :=
  match kind with
  | 0 => do
      align
      storedLength
  | 1 => items fixedLiteral fixedDistance
  | 2 => do
      let (literal, distance) ← dynamicCodes
      items literal distance
  | _ => corrupted .reservedBlock

-- The answer tells whether a block follows.
def block : Decoding Bool := do
  let head ← number 3
  content (head / 2)
  return head % 2 = 0

theorem local_content (kind : Nat) : Local (content kind) := by
  unfold content
  split
  · exact local_align.bind fun _ => local_storedLength
  · exact local_repeating _
  · exact local_dynamicCodes.bind fun _ => local_repeating _
  · exact local_corrupted _

theorem takes_block : Takes block :=
  (takes_number (by decide)).bind fun _ => (local_content _).bind fun _ => Local.pure _

def blocks : Decoding Unit :=
  repeating block takes_block

-- Big-endian bytes, behind those that are there.
def word : (missing : Nat) → (value : UInt32) → Decoding UInt32
  | 0, value => return value
  | missing + 1, value => do
      let byte ← number 8
      word missing ((value <<< 8) ||| UInt32.ofNat byte)

-- The checksum of the output.
def checksum (expected : UInt32) : Decoding Unit := fun s =>
  let computed := Adler32.of ⟨s.output.toArray⟩
  if computed = expected then .ok () s
  else .error (.fault (.checksumMismatch .adler32 expected computed)) s

-- What follows the last block.
def ending : Format → Decoding Unit
  | .raw => align
  | .zlib => do
      align
      checksum (← word 4 0)

def blocksToEnd (format : Format) : Decoding Unit := do
  blocks
  ending format

theorem blocksToEnd_eq (format : Format) :
    blocksToEnd format = block >>= fun more =>
      if more then blocksToEnd format else ending format := by
  conv => lhs; rw [blocksToEnd, blocks, repeating_eq, bind_assoc]
  congr 1
  funext more
  cases more <;> rfl

-- A block from its first bits on, with all that follows.
theorem blocksToEnd_eq_number (format : Format) :
    blocksToEnd format = number 3 >>= fun head => content (head / 2) >>= fun () =>
      if head % 2 = 1 then ending format else blocksToEnd format := by
  conv => lhs; rw [blocksToEnd_eq, block, bind_assoc]
  congr 1
  funext head
  rw [bind_assoc]
  congr 1
  funext _
  rw [pure_bind]
  rcases Nat.mod_two_eq_zero_or_one head with h | h <;> simp [h]

-- A dictionary is never supplied here.
def dictionary (missing : Nat) (id : UInt32) : Decoding Unit := do
  throw (.awaits (← word missing id))

-- What the two bytes of a zlib header lead to.
def afterHeader (header : Nat) : Decoding Unit :=
  if header % 31 ≠ 0 then
    fail (.invalidHeader (.zlibCheck header))
  else if header / 256 % 16 ≠ 8 then
    fail (.unsupportedMethod s!"zlib compression method {header / 256 % 16}")
  else if 15 < header / 4096 + 8 then
    fail (.invalidHeader (.zlibWindow (header / 4096 + 8)))
  else if header.testBit 5 then
    dictionary 4 0
  else
    blocksToEnd .zlib

def stream : Format → Decoding Unit
  | .raw => blocksToEnd .raw
  | .zlib => do
      let bits ← number 16
      afterHeader (bits % 256 * 256 + bits / 256)

-- The output of a raw stream that begins the bits, and the bits after it.
def inflate (preset : List UInt8) (bits : List Bool) : Option (List UInt8 × List Bool) :=
  match stream .raw (.start preset bits) with
  | .ok () s => some (s.output, s.bits)
  | .error _ _ => none

theorem local_word (missing : Nat) (value : UInt32) : Local (word missing value) := by
  induction missing generalizing value with
  | zero => exact Local.pure _
  | succ missing ih => exact (local_number 8).bind fun _ => ih _

theorem checksum_eq_ok {expected : UInt32} {s t : State} {a : Unit} :
    checksum expected s = .ok a t ↔ s = t ∧ Adler32.of ⟨s.output.toArray⟩ = expected := by
  unfold checksum
  dsimp only
  by_cases hsame : Adler32.of ⟨s.output.toArray⟩ = expected
  · rw [if_pos hsame]
    constructor
    · intro h
      cases h
      exact ⟨rfl, hsame⟩
    · rintro ⟨rfl, -⟩
      rfl
  · rw [if_neg hsame]
    exact ⟨fun h => (nomatch h), fun h => absurd h.2 hsame⟩

theorem local_checksum (expected : UInt32) : Local (checksum expected) := by
  refine fun s => ⟨fun a t h => ?_, fun stop t h id => ?_⟩
  · obtain ⟨rfl, hsame⟩ := checksum_eq_ok.mp h
    exact ⟨[], rfl, fun consumed more _ => if_pos hsame⟩
  · unfold checksum at h
    dsimp only at h
    split at h
    · cases h
    · cases h
      exact Stop.noConfusion

theorem local_blocksToEnd (format : Format) : Local (blocksToEnd format) := by
  refine (local_repeating _).bind fun _ => ?_
  cases format with
  | raw => exact local_align
  | zlib => exact local_align.bind fun _ => (local_word 4 0).bind local_checksum

-- A dictionary is asked for in front of all blocks only.
theorem blocksToEnd_never {format : Format} (s : State) (id : UInt32) (t : State) :
    blocksToEnd format s ≠ .error (.awaits id) t :=
  fun h => (local_blocksToEnd format s).error _ t h id rfl

-- A raw stream ends at a byte boundary.
theorem blocksToEnd_aligned {s t : State} (h : blocksToEnd .raw s = .ok () t) :
    t.bits.length % 8 = 0 := by
  obtain ⟨_, _, _, halign⟩ := bind_eq_ok.mp h
  cases halign
  simp only [State.skip, List.length_drop]
  omega

theorem inflate_eq_some_iff {preset out : List UInt8} {bits rest : List Bool} :
    inflate preset bits = some (out, rest) ↔ ∃ t, blocksToEnd .raw (.start preset bits) = .ok () t ∧
      t.output = out ∧ t.bits = rest := by
  have hstream : stream .raw = blocksToEnd .raw := rfl
  rw [inflate, hstream]
  cases blocksToEnd .raw (.start preset bits) with
  | ok a t =>
      constructor
      · intro h
        cases h
        exact ⟨t, rfl, rfl, rfl⟩
      · rintro ⟨_, h, rfl, rfl⟩
        cases h
        rfl
  | error stop t =>
      constructor
      · intro h
        cases h
      · rintro ⟨_, h, _⟩
        cases h

-- A stream that begins the input is a stream of its own.
theorem inflate_of_blocksToEnd {preset data : List UInt8} {consumed : Nat} {t : State}
    (h : blocksToEnd .raw ⟨Bits.ofBytes data, consumed, preset, preset.length⟩ = .ok () t) :
    ∃ front back, data = front ++ back ∧ t.bits = Bits.ofBytes back ∧
      inflate preset (Bits.ofBytes front) = some (t.output, []) := by
  have haligned := blocksToEnd_aligned h
  obtain ⟨used, hused, halone⟩ := (local_blocksToEnd .raw _).ok _ _ h
  have hlength := congrArg List.length hused
  simp only [Bits.length_ofBytes, List.length_append] at hlength
  obtain ⟨count, hcount⟩ : ∃ count, used.length = 8 * count := ⟨used.length / 8, by omega⟩
  have hfront : Bits.ofBytes (data.take count) = used := by
    rw [← Bits.take_ofBytes, ← hcount]
    exact (congrArg (List.take used.length) hused).trans List.take_left
  have hback : Bits.ofBytes (data.drop count) = t.bits := by
    rw [← Bits.drop_ofBytes, ← hcount]
    exact (congrArg (List.drop used.length) hused).trans List.drop_left
  have hstream := halone 0 [] haligned.symm
  rw [List.append_nil] at hstream
  refine ⟨data.take count, data.drop count, (List.take_append_drop _ _).symm, hback.symm, ?_⟩
  rw [hfront]
  exact inflate_eq_some_iff.mpr ⟨_, hstream, rfl, rfl⟩

-- A stream stays one when bytes follow it.
theorem blocksToEnd_of_inflate {preset front out : List UInt8}
    (h : inflate preset (Bits.ofBytes front) = some (out, [])) (consumed : Nat)
    (back : List UInt8) :
    ∃ t, blocksToEnd .raw ⟨Bits.ofBytes (front ++ back), consumed, preset, preset.length⟩ =
      .ok () t ∧ t.bits = Bits.ofBytes back ∧ t.output = out := by
  obtain ⟨t, hstream, rfl, hrest⟩ := inflate_eq_some_iff.mp h
  obtain ⟨used, hused, hmore⟩ := (local_blocksToEnd .raw _).ok _ _ hstream
  rw [hrest, List.append_nil] at hused
  obtain rfl : Bits.ofBytes front = used := hused
  have hlonger := hmore consumed (Bits.ofBytes back) (by rw [hrest, Bits.length_ofBytes]; simp)
  rw [← Bits.ofBytes_append] at hlonger
  exact ⟨_, hlonger, rfl, rfl⟩

theorem inflate_ofBytes_iff (preset out data : List UInt8) :
    (∃ rest, inflate preset (Bits.ofBytes data) = some (out, rest)) ↔
      ∃ front, front <+: data ∧ inflate preset (Bits.ofBytes front) = some (out, []) := by
  constructor
  · rintro ⟨_, h⟩
    obtain ⟨t, hstream, rfl, -⟩ := inflate_eq_some_iff.mp h
    obtain ⟨front, back, rfl, -, hfront⟩ := inflate_of_blocksToEnd hstream
    exact ⟨front, List.prefix_append _ _, hfront⟩
  · rintro ⟨front, ⟨back, rfl⟩, hfront⟩
    obtain ⟨t, hstream, -, hout⟩ := blocksToEnd_of_inflate hfront 0 back
    exact ⟨t.bits, inflate_eq_some_iff.mpr ⟨t, hstream, hout, rfl⟩⟩

-- A stored block of one byte, and bits that are left.
example : inflate [] (Bits.ofBytes [0x01, 0x01, 0x00, 0xfe, 0xff, 0x41, 0x42]) =
    some ([0x41], Bits.ofBytes [0x42]) := by
  cbv

end Unpack.Deflate.Reference
