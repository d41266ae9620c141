import Unpack.Command.Input
import Unpack.Decimal.Fixed
import Unpack.Text.Json
import Unpack.Zip.Selection

namespace Unpack.Command

open Text (Json padLeft)
open Zip (Entry)

namespace Listing

-- The columns before the name.
def row (size compressed ratio method crc : String) : String :=
  padLeft 10 size ++ " " ++ padLeft 10 compressed ++ " " ++ padLeft 6 ratio ++ " "
    ++ padLeft 8 method ++ " " ++ padLeft 8 crc ++ "  "

def percentage (savings : Float) : String :=
  Decimal.fixed 1 savings ++ "%"

def entryRow (e : Entry) : String :=
  let ratio := if e.size = 0 then "-" else percentage e.savings
  row (toString e.size) (toString e.compressedSize) ratio e.method.name (Text.hex 8 e.crc.toNat)
    ++ (if e.isDirectory then "d " else "  ") ++ e.name

def rule : String :=
  String.ofList (List.replicate 70 '-')

def totalRow (entries : List Entry) : String :=
  let size := entries.foldl (fun sum e => sum + e.size) 0
  let compressed := entries.foldl (fun sum e => sum + e.compressedSize) 0
  padLeft 10 (toString size) ++ " " ++ padLeft 10 (toString compressed) ++ " "
    ++ padLeft 6 (percentage (Zip.savings compressed size))
    ++ String.ofList (List.replicate 20 ' ') ++ s!"{entries.length} entries"

-- Names, sizes, methods and checksums, with the sums below.
def table (entries : List Entry) : List String :=
  [row "Size" "Compressed" "Ratio" "Method" "CRC-32" ++ "Name", rule]
    ++ entries.map entryRow ++ [rule, totalRow entries]

def lines (long : Bool) (entries : List Entry) : List String :=
  if long then table entries else entries.map (·.name)

-- A member that is left out if there is nothing to say.
def optional {α : Type} (name : String) (json : α → Json) (value : Option α) :
    List (String × Json) :=
  value.toList.map fun value => (name, json value)

def entryJson (e : Entry) : Json :=
  .object <|
    [("name", .string e.name), ("size", .nat e.size), ("compressed_size", .nat e.compressedSize),
      ("ratio", .float e.ratio), ("method", .string e.method.name), ("crc", .nat e.crc.toNat)]
    ++ optional "mtime" .nat e.modified ++ [("is_dir", .bool e.isDirectory)]

def archiveJson (path comment : String) (entries : List Entry) : Json :=
  .object <|
    [("archive", .string path), ("format", .string Format.zip.name)]
    ++ optional "comment" .string (if comment = "" then none else some comment)
    ++ [("entries", .array (entries.map entryJson))]

def memberJson (path : String) (header : Gzip.Header) : Json :=
  .object <|
    [("archive", .string path), ("format", .string Format.gzip.name)]
    ++ optional "comment" .string header.comment
    ++ [("metadata", .object
        [("filename", (header.filename.map Json.string).getD .null),
          ("flags", .nat header.flags.toNat), ("mtime", .nat header.mtime.toNat),
          ("os", .nat header.os.toNat)])]

-- A header in words.
def memberLines (path : String) (header : Gzip.Header) : List String :=
  ["GZIP file: " ++ path]
    ++ (header.filename.map ("  Original name: " ++ ·)).toList
    ++ (header.comment.map ("  Comment: " ++ ·)).toList
    ++ (header.modified.map fun time => s!"  Modified: {time} (Unix time)").toList
    ++ [s!"  OS: {header.os.toNat}"]

-- What to list, and how.
structure Options where
  path : String
  long : Bool
  json : Bool
  selection : Zip.Selection
  deriving Repr, DecidableEq

variable {m : Type → Type} [Monad m] [Host m]

def listArchive (manner : Manner) (options : Options) : Action m Unit := do
  let archive ← openArchive manner options.path
  let entries := archive.entries.toList.filter fun e => options.selection.admits e.name
  if options.json then
    Action.say (archiveJson options.path archive.comment entries).pretty
  else
    Action.say s!"Archive: {options.path} ({archive.entries.size} entries)"
    if archive.comment ≠ "" then
      Action.say ("Comment: " ++ archive.comment)
    Action.say ""
    (lines options.long entries).forM Action.say

def listMember (options : Options) : Action m Unit := do
  let member ← openMember options.path
  if options.json then
    Action.say (memberJson options.path member.header).pretty
  else
    (memberLines options.path member.header).forM Action.say

-- Show what an archive or a GZIP file holds.
def run (manner : Manner) (options : Options) : Action m Unit := do
  match ← detect options.path with
  | .zip => listArchive manner options
  | .gzip => listMember options

end Listing

end Unpack.Command
