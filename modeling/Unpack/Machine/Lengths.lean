import Unpack.Deflate.CodeLengths
import Unpack.Machine.FlatTable

namespace Unpack.Machine

open Bits (Register)
open Deflate (codeLengthOrder endOfBlock)

-- What of the code lengths of a dynamic block is read next.
inductive Lengths.Stage where
  | literalCount
  | distanceCount
  | orderCount
  | order
  | literals
  | distances
  | literalRun
  | distanceRun
  | complete
  deriving DecidableEq

-- The code lengths that open a dynamic block, in arrays of their full size.
-- `next` is the first place of the array at hand that is not filled, `symbol`
-- the run that was announced last.
structure Lengths where
  stage : Lengths.Stage
  literals : Nat
  distances : Nat
  orders : Nat
  orderLengths : Array Nat
  code : Option FlatTable
  lengths : Array Nat
  next : Nat
  symbol : Nat

namespace Lengths

def start : Lengths where
  stage := .literalCount
  literals := 0
  distances := 0
  orders := 0
  orderLengths := Array.replicate 19 0
  code := none
  lengths := #[]
  next := 0
  symbol := 0

-- What one turn of the reader leads to: another turn, or an answer.
inductive Turn (σ : Type) where
  | on (state : σ)
  | stop (outcome : Except Fault Bool) (state : σ)

-- Take turns until one of them stops.
def Turn.run {σ : Type} (turn : σ → Except Trap (Turn σ)) :
    (rounds : Nat) → σ → Except Trap (Except Fault Bool × σ)
  | 0, _ => .error .endless
  | rounds + 1, state => do
      match ← turn state with
      | .on state => Turn.run turn rounds state
      | .stop outcome state => return (outcome, state)

-- A missing part of the state.
def missing (g : Register) (part : String) : Fault :=
  .corrupted g.consumed (.described part)

-- Extra bits and least count of the run symbols 16, 17 and 18.
def runCodes : Array (Nat × Nat) :=
  #[(2, 3), (3, 3), (7, 11)]

-- The lengths of the code length code that are still to come.
def readOrder (c : Lengths) (g : Register) :
    (rest : Nat) → Except Trap (Bool × Lengths × Register)
  | 0 => return (true, c, g)
  | rest + 1 => do
      match ← read g 3 with
      | (none, g) => return (false, c, g)
      | (some length, g) =>
          let place ← cell codeLengthOrder.toArray c.next
          let orderLengths ← put c.orderLengths place length
          readOrder { c with orderLengths, next := c.next + 1 } g rest

def orderTurn (c : Lengths) (g : Register) : Except Trap (Turn (Lengths × Register)) := do
  match ← c.readOrder g (c.orders - c.next) with
  | (false, c, g) => return .stop (.ok false) (c, g)
  | (true, c, g) =>
      match ← FlatTable.build c.orderLengths.toList false with
      | .error fault => return .stop (.error (Deflate.CodeLengths.nameCodeLengthCode fault)) (c, g)
      | .ok code =>
          return .on
            ({ c with
                code := some code
                lengths := Array.replicate (c.literals + c.distances) 0
                next := 0
                stage := .literals }, g)

-- The alphabet that the next length belongs to.
def alphabet (c : Lengths) (literal distance : Stage) : Stage :=
  if c.next < c.literals then literal else distance

-- Read lengths up to the next run. The answer is the symbol of the run, or
-- none if the lengths are complete.
def readLengths (code : FlatTable) (c : Lengths) (g : Register) :
    (rest : Nat) → Except Trap ((Except (Except Fault Bool) (Option Nat)) × Lengths × Register)
  | 0 => return (.ok none, c, g)
  | rest + 1 => do
      match ← code.symbol g with
      | (.error fault, g) => return (.error (.error fault), c, g)
      | (.ok none, g) =>
          return (.error (.ok false), { c with stage := c.alphabet .literals .distances }, g)
      | (.ok (some symbol), g) =>
          if symbol < 16 then
            let lengths ← put c.lengths c.next symbol
            readLengths code { c with lengths, next := c.next + 1 } g rest
          else if symbol = 16 ∧ (c.next = 0 ∨ c.next = c.literals) then
            let alphabet := if c.next = 0 then .literal else .distance
            return (.error (.error (.corrupted g.consumed (.repeatAtStart alphabet))), c, g)
          else
            return (.ok (some symbol), c, g)

def lengthsTurn (c : Lengths) (g : Register) : Except Trap (Turn (Lengths × Register)) := do
  match c.code with
  | none => return .stop (.error (missing g "code length table missing")) (c, g)
  | some code =>
      match ← c.readLengths code g (c.lengths.size - c.next) with
      | (.error outcome, c, g) => return .stop outcome (c, g)
      | (.ok none, c, g) => return .on ({ c with stage := .complete }, g)
      | (.ok (some symbol), c, g) =>
          return .on ({ c with symbol, stage := c.alphabet .literalRun .distanceRun }, g)

def runTurn (c : Lengths) (g : Register) : Except Trap (Turn (Lengths × Register)) := do
  let (extra, least) ← cell runCodes (← minus c.symbol 16)
  match ← read g extra with
  | (none, g) => return .stop (.ok false) (c, g)
  | (some more, g) =>
      let count := more + least
      if c.lengths.size < c.next + count then
        return .stop (.error (.corrupted g.consumed (.repeatOverrun count c.lengths.size))) (c, g)
      let value ← if c.symbol = 16 then cell c.lengths (← minus c.next 1) else pure 0
      let lengths ← paste c.lengths c.next (List.replicate count value)
      let c := { c with lengths, next := c.next + count }
      return .on ({ c with stage := c.alphabet .literals .distances }, g)

-- A count of `bits` bits, and what it leads to.
def countTurn (c : Lengths) (g : Register) (bits : Nat) (k : Nat → Lengths) :
    Except Trap (Turn (Lengths × Register)) := do
  match ← read g bits with
  | (none, g) => return .stop (.ok false) (c, g)
  | (some count, g) => return .on (k count, g)

def turn : Lengths × Register → Except Trap (Turn (Lengths × Register))
  | (c, g) =>
      match c.stage with
      | .literalCount =>
          c.countTurn g 5 fun count => { c with literals := count + 257, stage := .distanceCount }
      | .distanceCount =>
          c.countTurn g 5 fun count => { c with distances := count + 1, stage := .orderCount }
      | .orderCount =>
          c.countTurn g 4 fun count =>
            { c with
              orders := count + 4
              orderLengths := Array.replicate 19 0
              next := 0
              stage := .order }
      | .order => c.orderTurn g
      | .literals | .distances => c.lengthsTurn g
      | .literalRun | .distanceRun => c.runTurn g
      | .complete => return .stop (.ok true) (c, g)

-- More turns than 320 lengths can take, a run for each of them.
def rounds : Nat := 700

def decode (c : Lengths) (g : Register) : Except Trap (Except Fault Bool × Lengths × Register) :=
  Turn.run turn rounds (c, g)

-- The two tables. A block must be able to end.
def literalTable (c : Lengths) : Except Trap (Except Fault FlatTable) :=
  let lengths := c.lengths.toList.take (min c.literals c.lengths.size)
  if lengths.getD endOfBlock 0 = 0 then return .error (.invalidTable .noEndOfBlock)
  else FlatTable.build lengths false

def distanceTable (c : Lengths) : Except Trap (Except Fault FlatTable) :=
  FlatTable.build (c.lengths.toList.drop (min c.literals c.lengths.size)) true

end Lengths

end Unpack.Machine
