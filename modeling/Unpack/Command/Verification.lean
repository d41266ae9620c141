import Unpack.Command.Input

namespace Unpack.Command

namespace Verification

-- What decoding an entry came to: the size of its data, or a fault.
structure Finding where
  name : String
  outcome : Except Fault Nat

namespace Finding

-- Decode everything and keep nothing.
def ofSource {σ : Type} [Source σ] (name : String) (source : σ) : Finding :=
  let (bytes, outcome, _) := Source.copy source
  ⟨name, outcome.map fun _ => bytes.size⟩

def ofEntry (archive : Zip.Archive ByteArray) (e : Zip.Entry) : Finding :=
  match (archive.openStream e).1 with
  | .ok stream => ofSource e.name stream
  | .error fault => ⟨e.name, .error fault⟩

def fault? (finding : Finding) : Option Fault :=
  match finding.outcome with
  | .ok _ => none
  | .error fault => some fault

def line (finding : Finding) : String :=
  match finding.outcome with
  | .ok size => s!"  OK: {finding.name} ({size} bytes)"
  | .error fault => "  FAILED: " ++ finding.name ++ " - " ++ fault.message

def complaint? (finding : Finding) : Option String :=
  finding.fault?.map fun fault => "  " ++ finding.name ++ ": " ++ fault.message

end Finding

variable {m : Type → Type} [Monad m] [Host m]

-- The findings on all files of an archive, or on the one member of a GZIP file.
def findings (manner : Manner) (path : String) : Format → Action m (List Finding)
  | .zip => do
      let archive ← openArchive manner path
      return (archive.entries.toList.filter (·.isFile)).map (Finding.ofEntry archive)
  | .gzip => do
      let member ← openMember path
      return [.ofSource (member.header.filename.getD "<unnamed>") member]

-- Tell of a finding. Data that stops the program leaves none.
def report (manner : Manner) (finding : Finding) : Action m Unit := do
  if finding.fault? = some .overflow then
    throw (.fault .overflow)
  if manner.verbose then
    Action.say finding.line

-- Decode everything in an archive or a GZIP file and check it.
def run (manner : Manner) (path : String) : Action m Unit := do
  let format ← detect path
  Action.say ("Testing " ++ path ++ " (" ++ format.name ++ ")")
  let findings ← findings manner path format
  findings.forM (report manner)
  Action.say ""
  let complaints := findings.filterMap (·.complaint?)
  if complaints = [] then
    Action.say s!"All {findings.length} entries OK"
  else
    complaints.forM Action.complain
    throw (.entriesFailed complaints.length findings.length)

end Verification

end Unpack.Command
