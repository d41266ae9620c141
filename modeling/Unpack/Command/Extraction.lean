import Unpack.Command.Input
import Unpack.Zip.Selection

namespace Unpack.Command

open Zip (Archive Entry)

namespace Extraction

-- What to extract, and where to.
structure Options where
  path : String
  directory : String
  selection : Zip.Selection
  deriving Repr, DecidableEq

-- Where an entry goes. There is no place for an entry whose name leads nowhere.
def target (directory : String) (e : Entry) : Option String :=
  if e.relativePath = "" then none else some (Text.Path.under directory e.relativePath)

-- How far an extraction has come: the archive, and the directories that were
-- extracted, the last one first, with the times that they are to have in the
-- end. Putting files into them changes their times.
structure Progress where
  archive : Archive ByteArray
  times : List (String × Nat)

variable {m : Type → Type} [Monad m] [Host m]

def restoreTime (path : String) (time : Option Nat) : Action m Unit := do
  if let some time := time then
    Action.io (Host.setModified path time)

-- The archive after a file was created. Nothing is left of it if it was that
-- file.
def afterCreating (options : Options) (path : String) (archive : Archive ByteArray) :
    Action m (Archive ByteArray) := do
  if ← ExceptT.lift (Host.isSameFile path options.path) then
    return { archive with store := some ByteArray.empty }
  else
    return archive

-- A file keeps the bytes that came before a fault.
def extractFile (options : Options) (path : String) (e : Entry) (archive : Archive ByteArray) :
    Action m (Archive ByteArray) := do
  Action.io (Host.createDirectories (Text.Path.parent path))
  let stream ← Action.ofExcept (archive.openStream e).1
  Action.io (Host.createFile path)
  let archive ← afterCreating options path archive
  let (bytes, outcome, _) := Source.copy (stream.attach archive.store)
  Action.io (Host.writeFile path bytes)
  Action.ofExcept outcome
  restoreTime path e.modified
  return archive

def extractEntry (manner : Manner) (options : Options) (progress : Progress) (e : Entry) :
    Action m Progress := do
  match target options.directory e with
  | none =>
      Action.note manner .warn ("skipping entry with unusable name \"" ++ e.name ++ "\"")
      return progress
  | some path =>
      if e.isDirectory then
        Action.io (Host.createDirectories path)
        return { progress with times := (e.modified.map (path, ·)).toList ++ progress.times }
      else
        return { progress with archive := ← extractFile options path e progress.archive }

-- Put the selected entries of an archive below a directory.
def run (manner : Manner) (options : Options) : Action m Unit := do
  if (← detect options.path) = .gzip then
    throw (.isGzip options.path)
  let archive ← openArchive manner options.path
  let entries := archive.entries.toList.filter fun e => options.selection.admits e.name
  Action.say s!"Extracting {options.path} to {options.directory}"
  let progress ← entries.foldlM (extractEntry manner options) ⟨archive, []⟩
  progress.times.forM fun (path, time) => restoreTime path (some time)
  Action.note manner .info s!"extracted {entries.length} entries"

-- Write the data of one entry, as far as it comes.
def printEntry (manner : Manner) (path name : String) : Action m Unit := do
  let archive ← openArchive manner path
  let stream ← Action.ofExcept (archive.openNamed name).1
  let (bytes, outcome, _) := Source.copy stream
  Action.output bytes
  Action.ofExcept outcome

end Extraction

end Unpack.Command
