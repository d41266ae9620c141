import Unpack.Fault

namespace Unpack.Command

-- An opened file: when it was last modified, if that is known, and what
-- reading it brings.
structure OpenFile where
  modified : Option Int
  content : Except IoFault ByteArray

-- What commands do to the world around them.
class Host (m : Type → Type) where
  openFile : (path : String) → m (Except IoFault OpenFile)
  createFile : (path : String) → m (Except IoFault Unit)
  writeFile : (path : String) → (content : ByteArray) → m (Except IoFault Unit)
  createDirectories : (path : String) → m (Except IoFault Unit)
  setModified : (path : String) → (time : Int) → m (Except IoFault Unit)
  isSameFile : (path other : String) → m Bool
  write : (output : ByteArray) → m Unit
  complain : (text : String) → m Unit

-- Why a command fails: a fault of the library, trouble with a file of its own,
-- or what it finds.
inductive Failure where
  | fault (cause : Fault)
  | io (cause : IoFault)
  | unknownFormat (path : String)
  | isGzip (path : String)
  | entriesFailed (failed total : Nat)
  deriving DecidableEq

def Failure.message : Failure → String
  | .fault cause => cause.message
  | .io cause => cause.text
  | .unknownFormat path => path ++ ": not a ZIP or GZIP file"
  | .isGzip path => path ++ " is a GZIP file; use `gunzip`"
  | .entriesFailed failed total => s!"{failed} of {total} entries failed"

-- How weighty a log line is.
inductive Level where
  | warn
  | info
  | debug
  | trace
  deriving Repr, DecidableEq

namespace Level

def name : Level → String
  | .warn => "WARN"
  | .info => "INFO"
  | .debug => "DEBUG"
  | .trace => "TRACE"

-- Lines of this weight and weightier ones are admitted.
def depth : Level → Nat
  | .warn => 0
  | .info => 1
  | .debug => 2
  | .trace => 3

-- The level that so many requests for more output ask for.
def ofVerbosity : Nat → Level
  | 0 => .warn
  | 1 => .info
  | 2 => .debug
  | _ => .trace

def admits (limit level : Level) : Bool :=
  level.depth ≤ limit.depth

end Level

-- How much a command tells. Without a log level nothing is logged.
structure Manner where
  verbose : Bool
  log : Option Level
  deriving Repr, DecidableEq

-- A step of a command, which may fail.
abbrev Action (m : Type → Type) := ExceptT Failure m

variable {m : Type → Type} [Monad m] [Host m]

namespace Action

def orFail {α : Type} (failure : IoFault → Failure) (step : m (Except IoFault α)) : Action m α := do
  match ← step with
  | .ok value => return value
  | .error cause => throw (failure cause)

-- A step with a file, whose trouble is the command's own.
def io {α : Type} (step : m (Except IoFault α)) : Action m α :=
  orFail .io step

def ofExcept {α : Type} (answer : Except Fault α) : Action m α :=
  match answer with
  | .ok value => return value
  | .error fault => throw (.fault fault)

-- Write a line.
def say (line : String) : Action m Unit :=
  ExceptT.lift (Host.write (line ++ "\n").toUTF8)

def output (bytes : ByteArray) : Action m Unit :=
  ExceptT.lift (Host.write bytes)

def complain (line : String) : Action m Unit :=
  ExceptT.lift (Host.complain (line ++ "\n"))

-- A line of the log.
def note (manner : Manner) (level : Level) (text : String) : Action m Unit :=
  if manner.log.any (·.admits level) then
    complain (Text.padLeft 5 level.name ++ " " ++ text)
  else
    return

end Action

end Unpack.Command
