import Unpack.Command.Host
import Unpack.Gzip.Member
import Unpack.Source.Buffered
import Unpack.Source.RandomAccess
import Unpack.Zip.Archive

namespace Unpack.Command

-- What a file is, as its first bytes tell.
inductive Format where
  | zip
  | gzip
  deriving Repr, DecidableEq

namespace Format

def name : Format → String
  | .zip => "ZIP"
  | .gzip => "GZIP"

-- First bytes of an archive: those of a local record, or of the end record if
-- there are no entries.
def zipMagics : List (List UInt8) :=
  [[0x50, 0x4B, 0x03, 0x04], [0x50, 0x4B, 0x05, 0x06]]

def ofMagic (bytes : ByteArray) : Option Format :=
  let bytes := (bytes.extract 0 4).toList
  if zipMagics.contains bytes then some .zip
  else if Gzip.Header.magic.toList.isPrefixOf bytes then some .gzip
  else none

end Format

variable {m : Type → Type} [Monad m] [Host m]

-- The format of a file.
def detect (path : String) : Action m Format := do
  let file ← Action.io (Host.openFile path)
  let content ← Action.io (pure file.content)
  match Format.ofMagic content with
  | some format => return format
  | none => throw (.unknownFormat path)

-- An archive, which holds its file in memory.
def openArchive (manner : Manner) (path : String) : Action m (Zip.Archive ByteArray) := do
  let file ← Action.orFail (.fault ∘ .io) (Host.openFile path)
  let content ← Action.orFail (.fault ∘ .io) (pure file.content)
  let ending ← Action.ofExcept (Zip.Ending.find content).1
  if ending.excess ≠ 0 then
    Action.note manner .warn
      s!"{ending.excess} unexpected bytes after the ZIP end of central directory"
  Action.ofExcept (Zip.Archive.ofEnding content ending true)

-- An opened file, read from its beginning on.
abbrev FileSource : Type := Buffered (Cursor (Except IoFault ByteArray))

namespace FileSource

def ofFile (file : OpenFile) : FileSource := .start ⟨file.content, 0⟩

-- The file after others have written it. What was read before stays read.
def nowHolding (content : ByteArray) (source : FileSource) : FileSource :=
  { source with inner := { source.inner with store := .ok content } }

end FileSource

-- The member of a GZIP file.
def openMember (path : String) : Action m (Gzip.Member FileSource) := do
  let file ← Action.io (Host.openFile path)
  Action.ofExcept (Gzip.Member.ofSource (FileSource.ofFile file)).1

end Unpack.Command
