import Unpack.Command.Input
import Unpack.Gzip.Writer
import Unpack.Text.Path

namespace Unpack.Command

open Text (Path.fileName Path.steps Path.lastPart)

-- Whether an output path stands for the standard output.
def isStandardOutput (path : String) : Bool :=
  path.startsWith "-" ∧ Path.steps path.toList = [['-']]

namespace Gzipping

-- A file to turn into another one.
structure Options where
  input : String
  output : Option String
  deriving Repr, DecidableEq

-- The endings that decompression takes off, in lower case.
def endings : List (List Char) := [".gz".toList, ".gzip".toList]

-- The ending that a path has, if something stands before it in its last part.
def ending? (path : String) : Option (List Char) :=
  let name := (Path.lastPart path.toList).map Char.toLower
  endings.find? fun ending => ending.length < name.length ∧ ending.isSuffixOf name

-- Without an ending that tells of compression, or with one that tells of none.
def decompressedPath (path : String) : String :=
  match ending? path with
  | some ending => String.ofList (path.toList.take (path.length - ending.length))
  | none => path ++ ".out"

def compressedPath (path : String) : String :=
  path ++ ".gz"

-- What was made of what.
def line (input output : String) (size : Nat) : String :=
  s!"{input} -> {output} ({size} bytes)"

variable {m : Type → Type} [Monad m] [Host m]

-- Decompressing a file onto itself ends after this many pieces at the latest.
def mostPieces : Nat := 16777216

-- The data of a member whose file is written with it meanwhile: what the
-- member has not read yet is read from there.
def copyOntoItself (member : Gzip.Member FileSource) : ByteArray × Except Fault Unit :=
  let (bytes, outcome, _) := Source.copyChanging
    (fun written => Gzip.Member.mapSource (FileSource.nowHolding written))
    mostPieces ByteArray.empty member
  (bytes, outcome)

-- The data of a member.
def copy (member : Gzip.Member FileSource) : ByteArray × Except Fault Unit :=
  let (bytes, outcome, _) := Source.copy member
  (bytes, outcome)

-- Decompress a GZIP file. Bytes that came before a fault stay.
def decompress (manner : Manner) (options : Options) : Action m Unit := do
  let member ← openMember options.input
  if options.output.any isStandardOutput then
    let (bytes, outcome) := copy member
    Action.output bytes
    Action.ofExcept outcome
  else
    let target := options.output.getD (decompressedPath options.input)
    Action.io (Host.createFile target)
    let ontoItself ← ExceptT.lift (Host.isSameFile target options.input)
    let (bytes, outcome) := if ontoItself then copyOntoItself member else copy member
    Action.io (Host.writeFile target bytes)
    Action.ofExcept outcome
    if let some time := member.header.modified then
      Action.io (Host.setModified target time)
    if manner.verbose then
      Action.say (line options.input target bytes.size)
    Action.note manner .info s!"decompressed {bytes.size} bytes"

-- Wrap a file in a GZIP member that tells its name and time. The file is read
-- when the output is there already, even if both are the same.
def compress (manner : Manner) (options : Options) : Action m Unit := do
  let source ← Action.io (Host.openFile options.input)
  let target := options.output.getD (compressedPath options.input)
  let header := (Gzip.Header.named (Path.fileName options.input)).withTime
    (source.modified.getD 0)
  Action.io (Host.createFile target)
  let source ← Action.io (Host.openFile options.input)
  Action.io (Host.writeFile target (← Action.ofExcept header.toBytes))
  let data ← Action.io (pure source.content)
  Action.io (Host.writeFile target (← Action.ofExcept (Gzip.compress header data)))
  if manner.verbose then
    Action.say (line options.input target data.size)

end Gzipping

end Unpack.Command
