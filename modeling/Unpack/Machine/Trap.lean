import Unpack.Bits.Register

namespace Unpack.Machine

open Bits (Register)

-- What stops a machine that checks every step it takes.
inductive Trap where
  -- a place outside its array
  | outside (place size : Nat)
  -- less than nothing left
  | below (amount less : Nat)
  -- more bits looked at together than a look allows
  | wide (count : Nat)
  -- more bits consumed than are held
  | overdrawn (count held : Nat)
  -- whole bytes taken from inside a byte
  | unaligned (held : Nat)
  -- a number below zero as a place
  | negative (number : Int)
  -- a code of the format that cannot be built
  | unbuilt
  -- a loop that does not end in time
  | endless
  deriving Repr, DecidableEq

variable {α : Type}

def cell (cells : Array α) (i : Nat) : Except Trap α :=
  if h : i < cells.size then .ok cells[i] else .error (.outside i cells.size)

def put (cells : Array α) (i : Nat) (value : α) : Except Trap (Array α) :=
  if h : i < cells.size then .ok (cells.set i value h) else .error (.outside i cells.size)

-- `count` cells from `i` on.
def slice (cells : Array α) (i count : Nat) : Except Trap (List α) :=
  if i + count ≤ cells.size then .ok ((cells.toList.drop i).take count)
  else .error (.outside (i + count) cells.size)

-- The cells with others in place of those from `i` on.
def paste (cells : Array α) (i : Nat) (values : List α) : Except Trap (Array α) :=
  if i + values.length ≤ cells.size then
    .ok (cells.toList.take i ++ values ++ cells.toList.drop (i + values.length)).toArray
  else
    .error (.outside (i + values.length) cells.size)

def minus (amount less : Nat) : Except Trap Nat :=
  if less ≤ amount then .ok (amount - less) else .error (.below amount less)

def natural (number : Int) : Except Trap Nat :=
  if 0 ≤ number then .ok number.toNat else .error (.negative number)

def peek (g : Register) (n : Nat) : Except Trap (Option Nat × Register) :=
  if n ≤ 16 then .ok (g.peek n) else .error (.wide n)

def drop (g : Register) (n : Nat) : Except Trap Register :=
  if n ≤ g.held then .ok (g.drop n) else .error (.overdrawn n g.held)

def read (g : Register) (n : Nat) : Except Trap (Option Nat × Register) := do
  match ← peek g n with
  | (some number, g) => return (some number, ← drop g n)
  | (none, g) => return (none, g)

def align (g : Register) : Except Trap Register :=
  drop g (g.held % 8)

def take (g : Register) (n : Nat) : Except Trap (ByteArray × Register) :=
  if g.held % 8 = 0 then .ok (g.take n) else .error (.unaligned g.held)

end Unpack.Machine
