import Unpack.Deflate.Decoder
import Unpack.Machine.Lengths
import Unpack.Machine.Ring

namespace Unpack.Machine

-- What is read next.
inductive Mode where
  | header
  | dictionary
  | blocks
  | storedLength
  | storedComplement
  | stored
  | codeLengths
  | symbol
  | lengthBits
  | distance
  | distanceBits
  | trailer
  | finished
  deriving DecidableEq

-- The tables of a block.
inductive Tables where
  | fixed
  | dynamic (literal distance : FlatTable)

end Machine

-- A decoder whose state is spread over fields that are there in every mode and
-- mean something in some. `length` is that of a match or what is left of a
-- stored block, `needed` counts the bits that a length, a distance or a word of
-- the wrapper still lacks. Whatever could go wrong with such a state is
-- checked.
structure Machine where
  settings : Deflate.Settings
  mode : Machine.Mode
  input : Bits.Register
  window : Machine.Ring
  last : Bool
  header : Option Machine.Lengths
  tables : Option Machine.Tables
  length : Nat
  distance : Nat
  needed : Nat
  adler : Adler32
  word : UInt32
  supplied : Nat
  produced : Nat

namespace Machine

open Bits (Register)
open Deflate (Settings Decoder lengthCodes distanceCodes endOfBlock fixedLiteralLengths
  fixedDistanceLengths)
open Deflate.Engine (longestMatch)
open Lengths (Turn missing)

def new (settings : Settings) : Machine where
  settings := settings
  mode := match settings.format with | .raw => .blocks | .zlib => .header
  input := .empty
  window := .empty
  last := false
  header := none
  tables := none
  length := 0
  distance := 0
  needed := 0
  adler := .empty
  word := 0
  supplied := 0
  produced := 0

instance : Inhabited Machine := ⟨new .raw⟩

def feed (m : Machine) (data : ByteArray) : Machine :=
  { m with input := m.input.feed data, supplied := m.supplied + data.size }

def reset (m : Machine) : Machine :=
  new m.settings

def awaitsDictionary (m : Machine) : Bool :=
  m.mode = .dictionary ∧ m.needed = 0

def isFinished (m : Machine) : Bool :=
  m.mode = .finished ∧ m.window.filled = 0

-- Input bytes that are consumed, the last one perhaps in part.
def consumed (m : Machine) : Except Trap Nat :=
  minus m.supplied m.input.availableBytes

def supplyDictionary (m : Machine) (dictionary : ByteArray) :
    Except Trap (Except Fault Unit × Machine) := do
  match m.settings.format with
  | .zlib =>
      if !m.awaitsDictionary then
        return (.error (.invalidHeader .unexpectedDictionary), m)
      let computed := Adler32.of dictionary
      if computed ≠ m.word then
        return (.error (.checksumMismatch .adler32 m.word computed), m)
      match ← m.window.preset dictionary with
      | (.error fault, _) => return (.error fault, m)
      | (.ok (), window) => return (.ok (), { m with window, mode := .blocks })
  | .raw =>
      if m.mode ≠ .blocks ∨ 0 < m.input.consumed then
        return (.error (.invalidHeader .dictionaryAfterStart), m)
      match ← m.window.preset dictionary with
      | (.error fault, _) => return (.error fault, m)
      | (.ok (), window) => return (.ok (), { m with window })

-- Read the bytes of a word of the wrapper that are still needed.
def readWord (m : Machine) : (rounds : Nat) → Except Trap (Bool × Machine)
  | 0 => .error .endless
  | rounds + 1 => do
      if m.needed = 0 then
        return (true, m)
      match ← read m.input 8 with
      | (none, input) => return (false, { m with input })
      | (some byte, input) =>
          readWord
            { m with
              input
              word := (m.word <<< 8) ||| UInt32.ofNat byte
              needed := ← minus m.needed 8 } rounds

-- The answer tells whether another step may get further.
abbrev Stepped := Except Trap (Except Fault Bool × Machine)

def headerStep (m : Machine) : Stepped := do
  match ← read m.input 16 with
  | (none, input) => return (.ok false, { m with input })
  | (some bits, input) =>
      let m := { m with input }
      let header := (bits % 256) * 256 + bits / 256
      let method := header / 256 % 16
      let exponent := header / 4096 + 8
      if header % 31 ≠ 0 then
        return (.error (.invalidHeader (.zlibCheck header)), m)
      if method ≠ 8 then
        return (.error (.unsupportedMethod s!"zlib compression method {method}"), m)
      if 15 < exponent then
        return (.error (.invalidHeader (.zlibWindow exponent)), m)
      if header.testBit 5 then
        return (.ok true, { m with mode := .dictionary, needed := 32, word := 0 })
      return (.ok true, { m with mode := .blocks })

def dictionaryStep (m : Machine) : Stepped := do
  let (_, m) ← m.readWord 5
  return (.ok false, m)

def blockStep (m : Machine) : Stepped := do
  if m.last then
    let m := { m with input := ← align m.input }
    match m.settings.format with
    | .zlib =>
        -- The trailer covers every byte, so the window is drained first.
        if 0 < m.window.filled then
          return (.ok false, m)
        return (.ok true, { m with mode := .trailer, needed := 32, word := 0 })
    | .raw => return (.ok false, { m with mode := .finished })
  else
    match ← read m.input 3 with
    | (none, input) => return (.ok false, { m with input })
    | (some bits, input) =>
        let m := { m with input, last := bits % 2 = 1 }
        match bits / 2 with
        | 0 => return (.ok true, { m with input := ← align input, mode := .storedLength })
        | 1 => return (.ok true, { m with tables := some .fixed, mode := .symbol })
        | 2 => return (.ok true, { m with header := some .start, mode := .codeLengths })
        | _ => return (.error (.corrupted input.consumed .reservedBlock), m)

def storedLengthStep (m : Machine) : Stepped := do
  match ← read m.input 16 with
  | (none, input) => return (.ok false, { m with input })
  | (some length, input) => return (.ok true, { m with input, length, mode := .storedComplement })

def storedComplementStep (m : Machine) : Stepped := do
  match ← read m.input 16 with
  | (none, input) => return (.ok false, { m with input })
  | (some complement, input) =>
      let m := { m with input }
      if complement ≠ m.length ^^^ 0xFFFF then
        return (.error (.corrupted input.consumed (.storedLength m.length complement)), m)
      return (.ok true, { m with mode := .stored })

def storedStep (m : Machine) : Stepped := do
  let (count, window, input) ← m.window.copyFrom m.input m.length
  let length ← minus m.length count
  let m := { m with window, input, length }
  if length = 0 then
    return (.ok true, { m with mode := .blocks })
  return (.ok !input.isStarved, m)

def codeLengthsStep (m : Machine) : Stepped := do
  match m.header with
  | none => return (.error (missing m.input "dynamic header state missing"), m)
  | some header =>
      let (outcome, header, input) ← header.decode m.input
      let m := { m with header := some header, input }
      match outcome with
      | .error fault => return (.error fault, m)
      | .ok false => return (.ok false, m)
      | .ok true =>
          match ← header.literalTable with
          | .error fault => return (.error fault, m)
          | .ok literal =>
              match ← header.distanceTable with
              | .error fault => return (.error fault, m)
              | .ok distance =>
                  return (.ok true,
                    { m with
                      tables := some (.dynamic literal distance)
                      header := none
                      mode := .symbol })

-- The fixed code with the given lengths.
def fixedTable (lengths : List Nat) : Except Trap FlatTable := do
  match ← FlatTable.build lengths false with
  | .ok table => return table
  | .error _ => .error .unbuilt

def Tables.flat : Tables → Except Trap (FlatTable × FlatTable)
  | .fixed => do
      let literal ← fixedTable fixedLiteralLengths
      let distance ← fixedTable fixedDistanceLengths
      return (literal, distance)
  | .dynamic literal distance => return (literal, distance)

-- A literal or length symbol. `free` is the room in the window.
def symbolTurn (literal : FlatTable) (free : Nat) (m : Machine) :
    Except Trap (Turn (Nat × Machine)) := do
  let (outcome, input) ← literal.symbol m.input
  let m := { m with input }
  match outcome with
  | .error fault => return .stop (.error fault) (free, m)
  | .ok none => return .stop (.ok false) (free, m)
  | .ok (some symbol) =>
      if symbol < 256 then
        match ← m.window.write symbol.toUInt8 with
        | (.error fault, window) => return .stop (.error fault) (free, { m with window })
        | (.ok (), window) => return .on (← minus free 1, { m with window })
      else if symbol = endOfBlock then
        return .stop (.ok true) (free, { m with mode := .blocks })
      else
        let index ← minus symbol 257
        if lengthCodes.size ≤ index then
          return .stop (.error (.corrupted input.consumed (.literalSymbol symbol))) (free, m)
        let (length, needed) ← cell lengthCodes index
        return .on (free, { m with length, needed, mode := .lengthBits })

def lengthBitsTurn (free : Nat) (m : Machine) : Except Trap (Turn (Nat × Machine)) := do
  if m.needed = 0 then
    return .on (free, { m with mode := .distance })
  match ← read m.input m.needed with
  | (none, input) => return .stop (.ok false) (free, { m with input })
  | (some more, input) =>
      return .on (free, { m with input, length := m.length + more, mode := .distance })

def distanceTurn (distance : FlatTable) (free : Nat) (m : Machine) :
    Except Trap (Turn (Nat × Machine)) := do
  let (outcome, input) ← distance.symbol m.input
  let m := { m with input }
  match outcome with
  | .error fault => return .stop (.error fault) (free, m)
  | .ok none => return .stop (.ok false) (free, m)
  | .ok (some symbol) =>
      if distanceCodes.size ≤ symbol then
        return .stop (.error (.corrupted input.consumed (.distanceSymbol symbol))) (free, m)
      let (distance, needed) ← cell distanceCodes symbol
      return .on (free, { m with distance, needed, mode := .distanceBits })

-- Extra bits, if there are any.
def readExtra (g : Register) (needed : Nat) : Except Trap (Option Nat × Register) :=
  if needed = 0 then .ok (some 0, g) else read g needed

-- The extra bits of a distance, and then the match.
def distanceBitsTurn (free : Nat) (m : Machine) : Except Trap (Turn (Nat × Machine)) := do
  let (more, input) ← readExtra m.input m.needed
  let m := { m with input }
  match more with
  | none => return .stop (.ok false) (free, m)
  | some more =>
      let m := { m with distance := m.distance + more }
      match ← m.window.copyBack m.length m.distance with
      | (.error fault, window) => return .stop (.error fault) (free, { m with window })
      | (.ok (), window) =>
          return .on (← minus free m.length, { m with window, mode := .symbol })

-- Decode symbols while the longest match fits.
def symbolsTurn (literal distance : FlatTable) :
    Nat × Machine → Except Trap (Turn (Nat × Machine))
  | (free, m) => do
      if free < longestMatch then
        return .stop (.ok true) (free, m)
      match m.mode with
      | .symbol => symbolTurn literal free m
      | .lengthBits => lengthBitsTurn free m
      | .distance => distanceTurn distance free m
      | .distanceBits => distanceBitsTurn free m
      | _ =>
          return .stop (.error (missing m.input "decoder left Huffman mode unexpectedly")) (free, m)

def symbolsStep (m : Machine) : Stepped := do
  match m.tables with
  | none => return (.error (missing m.input "Huffman tables missing"), m)
  | some tables =>
      let (literal, distance) ← tables.flat
      let free ← m.window.free
      let (outcome, _, m) ←
        Turn.run (symbolsTurn literal distance) (4 * m.input.available + 8) (free, m)
      return (outcome, m)

def trailerStep (m : Machine) : Stepped := do
  let (whole, m) ← m.readWord 5
  if whole then
    if m.adler.value = m.word then
      return (.ok false, { m with mode := .finished })
    return (.error (.checksumMismatch .adler32 m.word m.adler.value), m)
  return (.ok false, m)

def step (m : Machine) : Stepped :=
  match m.mode with
  | .header => m.headerStep
  | .dictionary => m.dictionaryStep
  | .blocks => m.blockStep
  | .storedLength => m.storedLengthStep
  | .storedComplement => m.storedComplementStep
  | .stored => m.storedStep
  | .codeLengths => m.codeLengthsStep
  | .symbol | .lengthBits | .distance | .distanceBits => m.symbolsStep
  | .trailer => m.trailerStep
  | .finished => return (.ok false, m)

-- Hand out at most `n` bytes of the window.
def drain (m : Machine) (n : Nat) : Except Trap (ByteArray × Machine) := do
  let (bytes, window) ← m.window.drain n
  let adler := match m.settings.format with
    | .raw => m.adler
    | .zlib => m.adler.update bytes
  return (bytes, { m with window, adler, produced := m.produced + bytes.size })

-- Drain and step in turn until `n` bytes are there or nothing moves.
def run (n : Nat) : (rounds : Nat) → ByteArray → Machine →
    Except Trap (Except Fault ByteArray × Machine)
  | 0, _, _ => .error .endless
  | rounds + 1, out, m => do
      let (bytes, m) ← m.drain (n - out.size)
      let out := out ++ bytes
      if out.size = n then
        return (.ok out, m)
      match ← m.step with
      | (.error fault, m) => return (.error fault, m)
      | (.ok moved, m) =>
          if !moved && m.window.filled = 0 then
            return (.ok out, m)
          run n rounds out m

def readBytes (m : Machine) (n : Nat) : Except Trap (Except Fault ByteArray × Machine) :=
  run n (4 * m.input.available + 8) ByteArray.empty m

def decode (m : Machine) (data : ByteArray) (n : Nat) :
    Except Trap (Except Fault (ByteArray × Decoder.Status) × Machine) := do
  match ← (m.feed data).readBytes n with
  | (.error fault, m) => return (.error fault, m)
  | (.ok bytes, m) =>
      if m.isFinished then
        return (.ok (bytes, .done), m)
      if m.awaitsDictionary then
        return (.error (.dictionaryRequired m.word), m)
      if bytes.size = n ∧ n ≠ 0 then
        return (.ok (bytes, .needsOutput), m)
      return (.ok (bytes, .needsInput), m)

end Machine

end Unpack
