import Unpack.Deflate.Symbols
import Unpack.Loop

namespace Unpack.Deflate

open Huffman (Table)

-- How far the code lengths of a dynamic block have been read.
inductive CodeLengths.Stage where
  | literalCount
  | distanceCount
  | orderCount
  | order (count : Nat) (seen : Array Nat)
  | lengths (code : Table)
  | repeating (code : Table) (symbol : Nat)
  | complete

-- The code lengths that open a dynamic block. The lengths of both alphabets
-- form one sequence, and a run may cross from one into the other.
structure CodeLengths where
  stage : CodeLengths.Stage
  literals : Nat
  distances : Nat
  lengths : Array Nat

namespace CodeLengths

def start : CodeLengths := ⟨.literalCount, 0, 0, #[]⟩

instance : Inhabited CodeLengths := ⟨start⟩

-- Lengths announced for both alphabets.
def total (c : CodeLengths) : Nat :=
  c.literals + c.distances

-- Extra bits and least count of the run symbols 16, 17 and 18.
def runCode (symbol : Nat) : Nat × Nat :=
  if symbol = 16 then (2, 3) else if symbol = 17 then (3, 3) else (7, 11)

-- Symbol 16 repeats the previous length, the other two repeat zero.
def runValue (symbol : Nat) (lengths : Array Nat) : Nat :=
  if symbol = 16 then lengths.back?.getD 0 else 0

-- A run needs a previous length in its own alphabet to repeat.
def runStartsAlphabet (c : CodeLengths) (symbol : Nat) : Option Alphabet :=
  if symbol ≠ 16 then none
  else if c.lengths.size = 0 then some .literal
  else if c.lengths.size = c.literals then some .distance
  else none

-- Read the count of a run and append the run.
def readRun (c : CodeLengths) (code : Table) (symbol : Nat) (r : Bits.Reader) :
    Except Fault Bool × CodeLengths × Bits.Reader :=
  let (extra, least) := runCode symbol
  match r.read extra with
  | (none, r) => (.ok false, { c with stage := .repeating code symbol }, r)
  | (some more, r) =>
      let count := least + more
      if c.lengths.size + count ≤ c.total then
        let value := runValue symbol c.lengths
        (.ok true,
          { c with stage := .lengths code, lengths := c.lengths ++ Array.replicate count value },
          r)
      else
        (.error (.corrupted r.consumed (.repeatOverrun count c.total)),
          { c with stage := .repeating code symbol }, r)

-- Read a length or a run, unless all announced lengths are there.
def lengthRound (code : Table) : CodeLengths × Bits.Reader →
    (CodeLengths × Bits.Reader) ⊕ (Except Fault Bool × CodeLengths × Bits.Reader)
  | (c, r) =>
      if c.total ≤ c.lengths.size then
        .inr (.ok true, { c with stage := .complete }, r)
      else
        match code.symbol r with
        | (.error fault, r) => .inr (.error fault, { c with stage := .lengths code }, r)
        | (.ok none, r) => .inr (.ok false, { c with stage := .lengths code }, r)
        | (.ok (some symbol), r) =>
            if symbol < 16 then
              .inl ({ c with lengths := c.lengths.push symbol }, r)
            else
              match c.runStartsAlphabet symbol with
              | some alphabet =>
                  .inr (.error (.corrupted r.consumed (.repeatAtStart alphabet)),
                    { c with stage := .lengths code }, r)
              | none =>
                  match c.readRun code symbol r with
                  | (.ok true, c, r) => .inl (c, r)
                  | stopped => .inr stopped

-- Each round appends at least one length, so `rounds` need not exceed what is
-- missing.
def readLengths (code : Table) (rounds : Nat) (c : CodeLengths) (r : Bits.Reader) :
    Except Fault Bool × CodeLengths × Bits.Reader :=
  Loop.run (lengthRound code) (fun s => (.ok true, { s.1 with stage := .complete }, s.2)) rounds
    (c, r)

def fromLengths (c : CodeLengths) (code : Table) (r : Bits.Reader) :
    Except Fault Bool × CodeLengths × Bits.Reader :=
  readLengths code (c.total - c.lengths.size) c r

-- The lengths of the code length code, by symbol.
def orderLengths (seen : Array Nat) : List Nat :=
  (List.range codeLengthOrder.length).map fun symbol =>
    ((codeLengthOrder.zip seen.toList).lookup symbol).getD 0

def nameCodeLengthCode : Fault → Fault
  | .invalidTable flaw => .invalidTable (.inCodeLengthCode flaw)
  | fault => fault

-- Read the lengths of the code length code, three bits each, and build it.
def readOrder (count : Nat) : (missing : Nat) → (seen : Array Nat) → CodeLengths → Bits.Reader →
    Except Fault Bool × CodeLengths × Bits.Reader
  | 0, seen, c, r =>
      match Table.ofLengths (orderLengths seen) with
      | .error fault =>
          (.error (nameCodeLengthCode fault), { c with stage := .order count seen }, r)
      | .ok code => fromLengths { c with lengths := #[] } code r
  | missing + 1, seen, c, r =>
      match r.read 3 with
      | (none, r) => (.ok false, { c with stage := .order count seen }, r)
      | (some length, r) => readOrder count missing (seen.push length) c r

def fromOrder (c : CodeLengths) (count : Nat) (seen : Array Nat) (r : Bits.Reader) :
    Except Fault Bool × CodeLengths × Bits.Reader :=
  readOrder count (count - seen.size) seen c r

def fromOrderCount (c : CodeLengths) (r : Bits.Reader) :
    Except Fault Bool × CodeLengths × Bits.Reader :=
  match r.read 4 with
  | (none, r) => (.ok false, { c with stage := .orderCount }, r)
  | (some more, r) => c.fromOrder (more + 4) #[] r

def fromDistanceCount (c : CodeLengths) (r : Bits.Reader) :
    Except Fault Bool × CodeLengths × Bits.Reader :=
  match r.read 5 with
  | (none, r) => (.ok false, { c with stage := .distanceCount }, r)
  | (some more, r) => fromOrderCount { c with distances := more + 1 } r

def fromLiteralCount (c : CodeLengths) (r : Bits.Reader) :
    Except Fault Bool × CodeLengths × Bits.Reader :=
  match r.read 5 with
  | (none, r) => (.ok false, { c with stage := .literalCount }, r)
  | (some more, r) => fromDistanceCount { c with literals := more + 257 } r

-- Read on from where the last call stopped. The answer tells whether all
-- lengths are there; if not, more bits are needed.
def decode (c : CodeLengths) (r : Bits.Reader) : Except Fault Bool × CodeLengths × Bits.Reader :=
  match c.stage with
  | .literalCount => c.fromLiteralCount r
  | .distanceCount => c.fromDistanceCount r
  | .orderCount => c.fromOrderCount r
  | .order count seen => c.fromOrder count seen r
  | .lengths code => c.fromLengths code r
  | .repeating code symbol =>
      match c.readRun code symbol r with
      | (.ok true, c, r) => c.fromLengths code r
      | stopped => stopped
  | .complete => (.ok true, c, r)

-- The announced lengths; those not read yet count as zero.
def announced (c : CodeLengths) : List Nat :=
  match c.stage with
  | .lengths _ | .repeating .. | .complete =>
      c.lengths.toList ++ List.replicate (c.total - c.lengths.size) 0
  | _ => []

def literalLengths (c : CodeLengths) : List Nat :=
  c.announced.take c.literals

def distanceLengths (c : CodeLengths) : List Nat :=
  c.announced.drop c.literals

-- A block must be able to end.
def literalTable (c : CodeLengths) : Except Fault Table :=
  if c.literalLengths.getD endOfBlock 0 = 0 then
    .error (.invalidTable .noEndOfBlock)
  else
    Table.ofLengths c.literalLengths

def distanceTable (c : CodeLengths) : Except Fault Table :=
  Table.ofDistanceLengths c.distanceLengths

def codes (c : CodeLengths) : Except Fault Codes := do
  let literal ← c.literalTable
  let distance ← c.distanceTable
  return ⟨literal, distance⟩

end CodeLengths

end Unpack.Deflate
