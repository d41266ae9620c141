import Unpack.Checksum.Adler32
import Unpack.Deflate.CodeLengths
import Unpack.Window

namespace Unpack.Deflate

open Huffman (Table)

-- What surrounds the compressed blocks: nothing, or the header and checksum
-- of RFC 1950.
inductive Format where
  | raw
  | zlib
  deriving Repr, DecidableEq

-- How a stream is decoded, and how many bytes are asked of a source at once.
structure Settings where
  format : Format
  readSize : Nat
  deriving Repr, DecidableEq

namespace Settings

def raw : Settings := ⟨.raw, 4096⟩

def zlib : Settings := ⟨.zlib, 4096⟩

-- A source is asked for at least one byte.
def withReadSize (settings : Settings) (size : Nat) : Settings :=
  { settings with readSize := max size 1 }

end Settings

-- Where the decoder stands in its stream.
inductive Phase where
  -- before the zlib header
  | header
  -- `missing` bytes of the dictionary id are to come; with none missing the
  -- decoder waits for the dictionary
  | dictionary (missing : Nat) (id : UInt32)
  -- between blocks, or at the end of the last one
  | block
  -- before the length of a stored block, then before its complement
  | storedLength
  | storedComplement (length : Nat)
  -- `left` bytes of a stored block are to come
  | stored (left : Nat)
  -- inside the code lengths of a dynamic block
  | codeLengths (lengths : CodeLengths)
  -- before a literal or length symbol
  | symbol (codes : Codes)
  -- before the extra bits of a length
  | lengthBits (codes : Codes) (length extra : Nat)
  -- before a distance symbol
  | distance (codes : Codes) (length : Nat)
  -- before the extra bits of a distance
  | distanceBits (codes : Codes) (length distance extra : Nat)
  -- `missing` bytes of the checksum are to come
  | trailer (missing : Nat) (value : UInt32)
  | finished

-- The decoder proper. `last` tells that the current block is the last one.
structure Engine where
  phase : Phase
  input : Bits.Reader
  window : Window
  last : Bool

namespace Engine

-- Length symbols 257 to 285.
@[irreducible] def lengthCode? (symbol : Nat) : Option (Nat × Nat) :=
  lengthCodes[symbol - 257]?

-- Distance symbols 0 to 29.
def distanceCode? (symbol : Nat) : Option (Nat × Nat) :=
  distanceCodes[symbol]?

-- Read big-endian bytes of a checksum.
def readWord : (missing : Nat) → UInt32 → Bits.Reader → Nat × UInt32 × Bits.Reader
  | 0, value, r => (0, value, r)
  | missing + 1, value, r =>
      match r.read 8 with
      | (none, r) => (missing + 1, value, r)
      | (some byte, r) => readWord missing ((value <<< 8) ||| UInt32.ofNat byte) r

-- The longest match. Symbols are decoded only while one more match fits.
def longestMatch : Nat := 258

-- What a match leads to: the next symbol, or a halt.
inductive AfterMatch where
  | next (input : Bits.Reader) (window : Window)
  | halt (outcome : Except Fault Bool) (phase : Phase) (input : Bits.Reader) (window : Window)

-- Read the extra bits of a distance and copy the match. The extra bits stay
-- added to the distance if it turns out to reach too far.
def fromDistanceBits (codes : Codes) (length distance extra : Nat) (r : Bits.Reader) (w : Window) :
    AfterMatch :=
  match r.read extra with
  | (none, r) => .halt (.ok false) (.distanceBits codes length distance extra) r w
  | (some more, r) =>
      match w.copyBack length (distance + more) with
      | (.ok (), w) => .next r w
      | (.error fault, w) =>
          .halt (.error fault) (.distanceBits codes length (distance + more) extra) r w

def fromDistance (codes : Codes) (length : Nat) (r : Bits.Reader) (w : Window) : AfterMatch :=
  match codes.distance.symbol r with
  | (.error fault, r) => .halt (.error fault) (.distance codes length) r w
  | (.ok none, r) => .halt (.ok false) (.distance codes length) r w
  | (.ok (some symbol), r) =>
      match distanceCode? symbol with
      | some (distance, extra) => fromDistanceBits codes length distance extra r w
      | none =>
          .halt (.error (.corrupted r.consumed (.distanceSymbol symbol))) (.distance codes length)
            r w

def fromLengthBits (codes : Codes) (length extra : Nat) (r : Bits.Reader) (w : Window) :
    AfterMatch :=
  match r.read extra with
  | (none, r) => .halt (.ok false) (.lengthBits codes length extra) r w
  | (some more, r) => fromDistance codes (length + more) r w

-- Decode a literal or a match, unless the window is too full, the bits end, the
-- block ends or something is wrong.
def symbolRound (codes : Codes) : Bits.Reader × Window →
    (Bits.Reader × Window) ⊕ (Except Fault Bool × Phase × Bits.Reader × Window)
  | (r, w) =>
      if w.free < longestMatch then
        .inr (.ok true, .symbol codes, r, w)
      else
        match codes.literal.symbol r with
        | (.error fault, r) => .inr (.error fault, .symbol codes, r, w)
        | (.ok none, r) => .inr (.ok false, .symbol codes, r, w)
        | (.ok (some symbol), r) =>
            if symbol < endOfBlock then
              match w.write symbol.toUInt8 with
              | (.ok (), w) => .inl (r, w)
              | (.error fault, w) => .inr (.error fault, .symbol codes, r, w)
            else if symbol = endOfBlock then
              .inr (.ok true, .block, r, w)
            else
              match lengthCode? symbol with
              | some (length, extra) =>
                  match fromLengthBits codes length extra r w with
                  | .next r w => .inl (r, w)
                  | .halt outcome phase r w => .inr (outcome, phase, r, w)
              | none =>
                  .inr (.error (.corrupted r.consumed (.literalSymbol symbol)), .symbol codes, r, w)

-- Each round consumes a bit.
def symbols (codes : Codes) (rounds : Nat) (r : Bits.Reader) (w : Window) :
    Except Fault Bool × Phase × Bits.Reader × Window :=
  Loop.run (symbolRound codes) (fun s => (.ok true, .symbol codes, s.1, s.2)) rounds (r, w)

def afterMatch (codes : Codes) : AfterMatch → Except Fault Bool × Phase × Bits.Reader × Window
  | .next r w => symbols codes (r.available + 1) r w
  | .halt outcome phase r w => (outcome, phase, r, w)

-- The zlib header: method, window size, and whether a dictionary is needed.
def headerStep (r : Bits.Reader) : Except Fault Bool × Phase × Bits.Reader :=
  match r.read 16 with
  | (none, r) => (.ok false, .header, r)
  | (some bits, r) =>
      let header := (bits % 256) * 256 + bits / 256
      let method := header / 256 % 16
      let exponent := header / 4096 + 8
      if header % 31 ≠ 0 then
        (.error (.invalidHeader (.zlibCheck header)), .header, r)
      else if method ≠ 8 then
        (.error (.unsupportedMethod s!"zlib compression method {method}"), .header, r)
      else if 15 < exponent then
        (.error (.invalidHeader (.zlibWindow exponent)), .header, r)
      else if header.testBit 5 then
        (.ok true, .dictionary 4 0, r)
      else
        (.ok true, .block, r)

-- The three bits that open a block.
def blockStep (last : Bool) (r : Bits.Reader) : Except Fault Bool × Phase × Bits.Reader × Bool :=
  match r.read 3 with
  | (none, r) => (.ok false, .block, r, last)
  | (some bits, r) =>
      let last := bits % 2 = 1
      match bits / 2 with
      | 0 => (.ok true, .storedLength, r.align, last)
      | 1 => (.ok true, .symbol .fixed, r, last)
      | 2 => (.ok true, .codeLengths .start, r, last)
      | _ => (.error (.corrupted r.consumed .reservedBlock), .block, r, last)

-- After the last block the rest of its byte is skipped. A zlib checksum
-- covers every byte, so it waits until all are drained.
def endStep (format : Format) (r : Bits.Reader) (w : Window) :
    Except Fault Bool × Phase × Bits.Reader :=
  match format with
  | .raw => (.ok false, .finished, r.align)
  | .zlib =>
      if 0 < w.pending then (.ok false, .block, r.align)
      else (.ok true, .trailer 4 0, r.align)

def trailerStep (adler : UInt32) (missing : Nat) (value : UInt32) (r : Bits.Reader) :
    Except Fault Bool × Phase × Bits.Reader :=
  match readWord missing value r with
  | (0, value, r) =>
      if adler = value then (.ok false, .finished, r)
      else (.error (.checksumMismatch .adler32 value adler), .trailer 0 value, r)
  | (missing, value, r) => (.ok false, .trailer missing value, r)

def codeLengthsStep (lengths : CodeLengths) (r : Bits.Reader) :
    Except Fault Bool × Phase × Bits.Reader :=
  match lengths.decode r with
  | (.error fault, lengths, r) => (.error fault, .codeLengths lengths, r)
  | (.ok false, lengths, r) => (.ok false, .codeLengths lengths, r)
  | (.ok true, lengths, r) =>
      match lengths.codes with
      | .error fault => (.error fault, .codeLengths lengths, r)
      | .ok codes => (.ok true, .symbol codes, r)

-- Advance by one step. `adler` is the checksum of everything drained. The
-- answer is false when nothing more can be done without input, a dictionary
-- or a drained window.
def step (format : Format) (adler : UInt32) : Engine → Except Fault Bool × Engine
  | ⟨phase, r, w, last⟩ =>
      match phase with
      | .header =>
          let (outcome, phase, r) := headerStep r
          (outcome, ⟨phase, r, w, last⟩)
      | .dictionary missing id =>
          let (missing, id, r) := readWord missing id r
          (.ok false, ⟨.dictionary missing id, r, w, last⟩)
      | .block =>
          if last then
            let (outcome, phase, r) := endStep format r w
            (outcome, ⟨phase, r, w, last⟩)
          else
            let (outcome, phase, r, last) := blockStep last r
            (outcome, ⟨phase, r, w, last⟩)
      | .storedLength =>
          match r.read 16 with
          | (none, r) => (.ok false, ⟨.storedLength, r, w, last⟩)
          | (some length, r) => (.ok true, ⟨.storedComplement length, r, w, last⟩)
      | .storedComplement length =>
          match r.read 16 with
          | (none, r) => (.ok false, ⟨.storedComplement length, r, w, last⟩)
          | (some complement, r) =>
              if length + complement = 0xFFFF then
                (.ok true, ⟨.stored length, r, w, last⟩)
              else
                (.error (.corrupted r.consumed (.storedLength length complement)),
                  ⟨.storedComplement length, r, w, last⟩)
      | .stored left =>
          let before := r.availableBytes
          let (w, r) := w.copyFrom r left
          let left := left - (before - r.availableBytes)
          if left = 0 then (.ok true, ⟨.block, r, w, last⟩)
          else (.ok !r.isStarved, ⟨.stored left, r, w, last⟩)
      | .codeLengths lengths =>
          let (outcome, phase, r) := codeLengthsStep lengths r
          (outcome, ⟨phase, r, w, last⟩)
      | .symbol codes =>
          let (outcome, phase, r, w) := symbols codes (r.available + 1) r w
          (outcome, ⟨phase, r, w, last⟩)
      | .lengthBits codes length extra =>
          let (outcome, phase, r, w) := afterMatch codes (fromLengthBits codes length extra r w)
          (outcome, ⟨phase, r, w, last⟩)
      | .distance codes length =>
          let (outcome, phase, r, w) := afterMatch codes (fromDistance codes length r w)
          (outcome, ⟨phase, r, w, last⟩)
      | .distanceBits codes length distance extra =>
          let (outcome, phase, r, w) :=
            afterMatch codes (fromDistanceBits codes length distance extra r w)
          (outcome, ⟨phase, r, w, last⟩)
      | .trailer missing value =>
          let (outcome, phase, r) := trailerStep adler missing value r
          (outcome, ⟨phase, r, w, last⟩)
      | .finished => (.ok false, ⟨.finished, r, w, last⟩)

end Engine

-- A decoder that takes its input in pieces of any size and hands out its
-- output in pieces of any size. `adler` covers what was handed out of a zlib
-- stream; `supplied` and `produced` count the bytes of either side.
structure Decoder where
  settings : Settings
  engine : Engine
  adler : Adler32
  supplied : Nat
  produced : Nat

namespace Decoder

def new (settings : Settings) : Decoder where
  settings := settings
  engine :=
    { phase := match settings.format with | .raw => .block | .zlib => .header
      input := .empty
      window := .empty
      last := false }
  adler := .empty
  supplied := 0
  produced := 0

instance : Inhabited Decoder := ⟨new .raw⟩

def raw : Decoder := new .raw

def zlib : Decoder := new .zlib

-- Start over with the same settings.
def reset (s : Decoder) : Decoder :=
  new s.settings

def feed : Decoder → ByteArray → Decoder
  | ⟨settings, ⟨phase, r, w, last⟩, adler, supplied, produced⟩, data =>
      ⟨settings, ⟨phase, r.feed data, w, last⟩, adler, supplied + data.size, produced⟩

def isStarved (s : Decoder) : Bool :=
  s.engine.input.isStarved

-- The id of the dictionary that the decoder waits for.
def awaitedDictionary (s : Decoder) : Option UInt32 :=
  match s.engine.phase with
  | .dictionary 0 id => some id
  | _ => none

def awaitsDictionary (s : Decoder) : Bool :=
  s.awaitedDictionary.isSome

-- Whether the stream has ended and everything is drained.
def isFinished (s : Decoder) : Bool :=
  match s.engine.phase with
  | .finished => s.engine.window.pending = 0
  | _ => false

-- Input bytes that are not consumed.
def remaining (s : Decoder) : Nat :=
  s.engine.input.availableBytes

def unread (s : Decoder) : ByteArray :=
  s.engine.input.rest

-- Input bytes that are consumed, the last one perhaps in part.
def consumed (s : Decoder) : Nat :=
  s.supplied - s.remaining

-- Give the decoder a dictionary: for zlib when it waits for one, and the one
-- it waits for; for raw data before anything is decoded.
def supplyDictionary (s : Decoder) (dictionary : ByteArray) : Except Fault Unit × Decoder :=
  match s.settings.format with
  | .zlib =>
      match s.awaitedDictionary with
      | none => (.error (.invalidHeader .unexpectedDictionary), s)
      | some id =>
          let computed := Adler32.of dictionary
          if computed = id then
            match s.engine.window.preset dictionary with
            | (.ok (), w) =>
                (.ok (), { s with engine := { s.engine with window := w, phase := .block } })
            | (.error fault, _) => (.error fault, s)
          else
            (.error (.checksumMismatch .adler32 id computed), s)
  | .raw =>
      match s.engine.phase with
      | .block =>
          if s.engine.input.consumed = 0 then
            match s.engine.window.preset dictionary with
            | (.ok (), w) => (.ok (), { s with engine := { s.engine with window := w } })
            | (.error fault, _) => (.error fault, s)
          else
            (.error (.invalidHeader .dictionaryAfterStart), s)
      | _ => (.error (.invalidHeader .dictionaryAfterStart), s)

-- Hand out at most `n` bytes of the window.
def drain (n : Nat) : Decoder → ByteArray × Decoder
  | ⟨settings, ⟨phase, r, w, last⟩, adler, supplied, produced⟩ =>
      let (bytes, w) := w.drain n
      let adler := match settings.format with
        | .raw => adler
        | .zlib => adler.update bytes
      (bytes, ⟨settings, ⟨phase, r, w, last⟩, adler, supplied, produced + bytes.size⟩)

def step : Decoder → Except Fault Bool × Decoder
  | ⟨settings, engine, adler, supplied, produced⟩ =>
      let (outcome, engine) := engine.step settings.format adler.value
      (outcome, ⟨settings, engine, adler, supplied, produced⟩)

-- Drain and then take a step, unless `n` bytes are there or nothing moves.
def readRound (n : Nat) :
    ByteArray × Decoder → (ByteArray × Decoder) ⊕ (Except Fault ByteArray × Decoder)
  | (out, s) =>
      let (bytes, s) := s.drain (n - out.size)
      let out := out ++ bytes
      if out.size = n then
        .inr (.ok out, s)
      else
        match s.step with
        | (.error fault, s) => .inr (.error fault, s)
        | (.ok moved, s) =>
            if !moved && s.engine.window.pending = 0 then .inr (.ok out, s) else .inl (out, s)

def run (n rounds : Nat) (out : ByteArray) (s : Decoder) : Except Fault ByteArray × Decoder :=
  Loop.run (readRound n) (fun s => (.ok s.1, s.2)) rounds (out, s)

-- A bound on the rounds that one call can take: each consumes a bit, or
-- changes the phase once after bits were consumed, or empties the window.
def rounds (s : Decoder) : Nat :=
  4 * s.engine.input.available + 8

-- Decode at most `n` bytes. No bytes mean that more input or a dictionary is
-- needed, or that the stream has ended. What a failing call had already
-- drained is lost.
def read (s : Decoder) (n : Nat) : Except Fault ByteArray × Decoder :=
  run n s.rounds ByteArray.empty s

-- Why a call ended.
inductive Status where
  | needsInput
  | needsOutput
  | done
  deriving Repr, DecidableEq

-- Take all of `data` and decode at most `n` bytes.
def decode (s : Decoder) (data : ByteArray) (n : Nat) :
    Except Fault (ByteArray × Status) × Decoder :=
  match (s.feed data).read n with
  | (.error fault, s) => (.error fault, s)
  | (.ok bytes, s) =>
      if s.isFinished then
        (.ok (bytes, .done), s)
      else
        match s.awaitedDictionary with
        | some id => (.error (.dictionaryRequired id), s)
        | none =>
            if bytes.size = n ∧ n ≠ 0 then (.ok (bytes, .needsOutput), s)
            else (.ok (bytes, .needsInput), s)

-- Output bytes that the input at hand can still lead to, at most.
def capacity (s : Decoder) : Nat :=
  s.engine.window.pending + 258 * s.engine.input.available

-- Bytes decoded at a time when all input is at hand.
def pieceSize : Nat := 32768

-- One more piece of a whole stream.
def decodeRound :
    ByteArray × Decoder → (ByteArray × Decoder) ⊕ (Except Fault ByteArray × Decoder)
  | (out, s) =>
      match s.decode ByteArray.empty pieceSize with
      | (.error fault, s) => .inr (.error fault, s)
      | (.ok (bytes, .done), s) => .inr (.ok (out ++ bytes), s)
      | (.ok (bytes, _), s) =>
          if bytes.size = 0 then .inr (.error (.unexpectedEnd "compressed stream"), s)
          else .inl (out ++ bytes, s)

def decodeRest (rounds : Nat) (out : ByteArray) (s : Decoder) : Except Fault ByteArray × Decoder :=
  Loop.run decodeRound (fun s => (.ok s.1, s.2)) rounds (out, s)

-- Decode a whole stream that ends within `data`.
def decodeAll (s : Decoder) (data : ByteArray) : Except Fault ByteArray × Decoder :=
  let s := s.feed data
  decodeRest (s.capacity + 2) ByteArray.empty s

end Decoder

-- Decode a whole raw stream.
def decode (data : ByteArray) : Except Fault ByteArray :=
  (Decoder.raw.decodeAll data).1

end Unpack.Deflate
