namespace Unpack.Command

-- What a switch on the command line does.
inductive Use where
  | flag
  | count
  | path
  | patterns
  | help
  | version
  deriving Repr, DecidableEq

-- A word that begins with two dashes, and its short form after one.
structure Switch where
  long : String
  short : Char
  use : Use
  deriving Repr, DecidableEq

def Switch.takesValue (s : Switch) : Bool :=
  s.use = .path ∨ s.use = .patterns

-- The switches that a command understands, and how many operands it takes.
-- The first operand is always a path.
structure Shape where
  switches : List Switch
  operands : Option Nat
  deriving Repr, DecidableEq

-- Why there is nothing to run.
inductive Stop where
  | usage
  | help
  | version
  deriving Repr, DecidableEq

-- What the words of a command line came to.
structure Words where
  given : List (Switch × String)
  operands : List String
  deriving Repr, DecidableEq

namespace Words

def empty : Words := ⟨[], []⟩

def count (w : Words) (s : Switch) : Nat :=
  (w.given.filter (·.1 = s)).length

def has (w : Words) (s : Switch) : Bool :=
  w.count s ≠ 0

-- The values of a switch, in order.
def values (w : Words) (s : Switch) : List String :=
  (w.given.filter (·.1 = s)).map (·.2)

def value? (w : Words) (s : Switch) : Option String :=
  (w.values s).head?

-- Some switches may be given once only, and a path is not empty.
def give (w : Words) (s : Switch) (value : String) : Except Stop Words :=
  let more : Words := { w with given := w.given ++ [(s, value)] }
  match s.use with
  | .help => .error .help
  | .version => .error .version
  | .count | .patterns => .ok more
  | .flag => if w.has s then .error .usage else .ok more
  | .path => if w.has s ∨ value = "" then .error .usage else .ok more

end Words

namespace Shape

def addOperand (shape : Shape) (w : Words) (word : String) : Except Stop Words :=
  if shape.operands.any (· ≤ w.operands.length) ∨ w.operands = [] ∧ word = "" then .error .usage
  else .ok { w with operands := w.operands ++ [word] }

-- Switches after one dash. The last one may still need a value.
def readShort (shape : Shape) (w : Words) : List Char → Except Stop (Words × Option Switch)
  | [] => .ok (w, none)
  | c :: rest =>
      match shape.switches.find? (·.short = c) with
      | none => .error .usage
      | some s =>
          if s.takesValue then
            match rest with
            | [] => .ok (w, some s)
            | '=' :: value => (w.give s (String.ofList value)).map (·, none)
            | value => (w.give s (String.ofList value)).map (·, none)
          else
            match w.give s "" with
            | .ok w => readShort shape w rest
            | .error stop => .error stop

-- A switch after two dashes, with its value after an equals sign or to come.
def readLong (shape : Shape) (w : Words) (word : List Char) :
    Except Stop (Words × Option Switch) :=
  let name := String.ofList (word.takeWhile (· ≠ '='))
  match shape.switches.find? (·.long = name), word.dropWhile (· ≠ '=') with
  | none, _ => .error .usage
  | some s, [] => if s.takesValue then .ok (w, some s) else (w.give s "").map (·, none)
  | some s, _ :: value =>
      if s.takesValue then (w.give s (String.ofList value)).map (·, none) else .error .usage

-- Whether a word is about switches. One dash alone is an ordinary word.
def isDashed (word : String) : Bool :=
  word.startsWith "-" ∧ word ≠ "-"

-- One dashed word.
def readDashed (shape : Shape) (w : Words) (word : String) :
    Except Stop (Words × Option Switch) :=
  match word.toList with
  | '-' :: '-' :: name => shape.readLong w name
  | _ :: names => shape.readShort w names
  | [] => .error .usage

-- All words after the name of a command. After two dashes alone every word is
-- an operand.
def read (shape : Shape) (w : Words) : List String → Except Stop Words
  | [] => .ok w
  | word :: rest =>
      if word = "--" then
        rest.foldlM shape.addOperand w
      else if isDashed word then
        match shape.readDashed w word, rest with
        | .error stop, _ => .error stop
        | .ok (w, none), rest => read shape w rest
        | .ok (_, some _), [] => .error .usage
        | .ok (w, some s), value :: rest =>
            if isDashed value then .error .usage
            else
              match w.give s value with
              | .ok w => read shape w rest
              | .error stop => .error stop
      else
        match shape.addOperand w word with
        | .ok w => read shape w rest
        | .error stop => .error stop

end Shape

end Unpack.Command
