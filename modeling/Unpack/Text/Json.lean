import Unpack.Decimal.Shortest
import Unpack.Text.Numeral

namespace Unpack.Text

-- A JSON value. The members of an object stand in the order in which they are
-- written.
inductive Json where
  | null
  | bool (value : Bool)
  | nat (value : Nat)
  | float (value : Float)
  | string (value : String)
  | array (items : List Json)
  | object (members : List (String × Json))

namespace Json

def escape (c : Char) : String :=
  match c with
  | '"' => "\\\""
  | '\\' => "\\\\"
  | '\n' => "\\n"
  | '\r' => "\\r"
  | '\t' => "\\t"
  | '\x08' => "\\b"
  | '\x0C' => "\\f"
  | c => if c.toNat < 0x20 then "\\u" ++ hex 4 c.toNat else c.toString

def quote (text : String) : String :=
  "\"" ++ String.join (text.toList.map escape) ++ "\""

-- Digits with a point after the first `whole` of them. Zeros fill up what lies
-- between the digits and the point, on either side of it.
def positional (digits : List Char) (whole : Int) : String :=
  let zeros (n : Int) := List.replicate n.toNat '0'
  let front := zeros (1 - whole) ++ digits ++ zeros (whole - digits.length)
  let point := (max whole 1).toNat
  let after := front.drop point
  String.ofList (front.take point ++ '.' :: if after = [] then ['0'] else after)

-- One digit, the others after a point, and the exponent of the first digit.
def scientific (digits : List Char) (exponent : Int) : String :=
  let mantissa :=
    match digits with
    | first :: second :: rest => first :: '.' :: second :: rest
    | digits => digits
  let sign := if exponent < 0 then "e-" else "e+"
  String.ofList mantissa ++ sign ++ toString exponent.natAbs

-- Exponents of the first digit outside of these bounds are written out.
def leastPositional : Int := -5

def greatestPositional : Int := 15

-- Drop the zeros that a coefficient ends with.
def withoutZeros (digits : List Char) : List Char :=
  (digits.reverse.dropWhile (· = '0')).reverse

def ofScaled (number : Decimal.Scaled) : String :=
  let written := Nat.toDigits 10 number.coefficient
  let exponent := number.exponent + written.length - 1
  let digits := withoutZeros written
  if leastPositional ≤ exponent ∧ exponent ≤ greatestPositional then
    positional digits (exponent + 1)
  else
    scientific digits exponent

-- The shortest number that reads back. There is no JSON number for infinity
-- and for what is not a number.
def ofFloat (x : Float) : String :=
  let sign := if Decimal.isNegative x then "-" else ""
  match Decimal.Binary.ofBits x.toBits with
  | none => "null"
  | some number =>
      if number.significand = 0 then sign ++ "0.0"
      else sign ++ ofScaled (Decimal.shortest number)

-- Blanks at the beginning of a line.
def margin (depth : Nat) : String :=
  String.ofList (List.replicate (2 * depth) ' ')

-- Items on lines of their own between two brackets.
def block (opening closing : String) (depth : Nat) : List String → String
  | [] => opening ++ closing
  | items =>
      let line := "\n" ++ margin (depth + 1)
      opening ++ line ++ ("," ++ line).intercalate items ++ "\n" ++ margin depth ++ closing

mutual

-- A value whose first line stands in a line with the given depth.
def render (depth : Nat) : Json → String
  | .null => "null"
  | .bool value => if value then "true" else "false"
  | .nat value => toString value
  | .float value => ofFloat value
  | .string value => quote value
  | .array items => block "[" "]" depth (renderItems (depth + 1) items)
  | .object members => block "\x7b" "\x7d" depth (renderMembers (depth + 1) members)

def renderItems (depth : Nat) : List Json → List String
  | [] => []
  | item :: items => render depth item :: renderItems depth items

def renderMembers (depth : Nat) : List (String × Json) → List String
  | [] => []
  | (name, value) :: members =>
      (quote name ++ ": " ++ render depth value) :: renderMembers depth members

end

-- A value over several lines, two blanks further in at each depth.
def pretty (value : Json) : String :=
  render 0 value

end Json

end Unpack.Text
