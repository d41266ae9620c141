import Unpack.Command.Arguments
import Unpack.Command.Basic

namespace Unpack.Command

-- A command and how much it is to tell.
structure Invocation where
  verbosity : Nat
  command : Command
  deriving Repr, DecidableEq

-- The names of the commands.
inductive Verb where
  | list
  | extract
  | cat
  | test
  | gunzip
  | gzip
  deriving Repr, DecidableEq

namespace Verb

def ofWord? : String → Option Verb
  | "list" | "l" => some .list
  | "extract" | "x" => some .extract
  | "cat" => some .cat
  | "test" | "t" => some .test
  | "gunzip" => some .gunzip
  | "gzip" => some .gzip
  | _ => none

def verbose : Switch := ⟨"verbose", 'v', .count⟩

def help : Switch := ⟨"help", 'h', .help⟩

def version : Switch := ⟨"version", 'V', .version⟩

def long : Switch := ⟨"long", 'l', .flag⟩

def json : Switch := ⟨"json", 'j', .flag⟩

def including : Switch := ⟨"include", 'I', .patterns⟩

def excluding : Switch := ⟨"exclude", 'X', .patterns⟩

def directory : Switch := ⟨"dir", 'd', .path⟩

def progress : Switch := ⟨"progress", 'P', .flag⟩

def output : Switch := ⟨"output", 'o', .path⟩

-- The switches of all commands.
def common : List Switch := [verbose, help]

def shape : Verb → Shape
  | .list => ⟨common ++ [long, json, including, excluding], some 1⟩
  | .extract => ⟨common ++ [directory, including, excluding, progress], none⟩
  | .cat => ⟨common, some 2⟩
  | .test => ⟨common, some 1⟩
  | .gunzip | .gzip => ⟨common ++ [output], some 1⟩

-- The command that the words after its name describe. No operand may be
-- missing.
def command (verb : Verb) (w : Words) : Except Stop Command :=
  let selection (requested : List String) : Zip.Selection :=
    ⟨requested, w.values including, w.values excluding⟩
  match verb, w.operands with
  | .list, [path] => .ok (.list ⟨path, w.has long, w.has json, selection []⟩)
  | .extract, path :: names =>
      .ok (.extract ⟨path, (w.value? directory).getD ".", selection names⟩)
  | .cat, [path, name] => .ok (.cat path name)
  | .test, [path] => .ok (.test path)
  | .gunzip, [input] => .ok (.gunzip ⟨input, w.value? output⟩)
  | .gzip, [input] => .ok (.gzip ⟨input, w.value? output⟩)
  | _, _ => .error .usage

end Verb

namespace Invocation

-- Before the name of a command.
def shape : Shape := ⟨Verb.common ++ [Verb.version], some 0⟩

-- Requests for help on the program or on one command.
def helpOn : List String → Stop
  | [] => .help
  | [word] => if word = "help" ∨ (Verb.ofWord? word).isSome then .help else .usage
  | _ => .usage

-- What the program is asked for. Requests for more output after the name of
-- the command replace those before it.
def read (w : Words) : List String → Except Stop Invocation
  | [] => .error .usage
  | word :: rest =>
      if word = "--" then
        .error .usage
      else if Shape.isDashed word then
        match shape.readDashed w word with
        | .ok (w, none) => read w rest
        | .ok (_, some _) => .error .usage
        | .error stop => .error stop
      else if word = "help" then
        .error (helpOn rest)
      else do
        let some verb := Verb.ofWord? word | throw .usage
        let inner ← verb.shape.read .empty rest
        let command ← verb.command inner
        let verbosity :=
          if inner.has Verb.verbose then inner.count Verb.verbose else w.count Verb.verbose
        return ⟨verbosity, command⟩

def ofArguments (arguments : List String) : Except Stop Invocation :=
  read .empty arguments

def manner (invocation : Invocation) : Manner :=
  ⟨invocation.verbosity ≠ 0, some (.ofVerbosity invocation.verbosity)⟩

def versionLine : String := "oxiflate 0.1.0"

def usageLines : List String :=
  ["Usage: oxiflate [-v]... COMMAND",
    "",
    "  list [-l] [-j] [-I PATTERN]... [-X PATTERN]... ARCHIVE",
    "  extract [-d DIR] [-I PATTERN]... [-X PATTERN]... [-P] ARCHIVE [FILE]...",
    "  cat ARCHIVE NAME",
    "  test ARCHIVE",
    "  gunzip [-o OUTPUT] INPUT",
    "  gzip [-o OUTPUT] INPUT"]

variable {m : Type → Type} [Monad m] [Host m]

def writeLines (lines : List String) : m Unit :=
  Host.write (String.join (lines.map (· ++ "\n"))).toUTF8

-- Run the program. The answer is its exit code.
def execute (arguments : List String) : m Nat := do
  match ofArguments arguments with
  | .error .help => writeLines usageLines; return 0
  | .error .version => writeLines [versionLine]; return 0
  | .error .usage =>
      Host.complain (String.join (usageLines.map (· ++ "\n")))
      return 2
  | .ok invocation =>
      match ← (invocation.command.run invocation.manner).run with
      | .ok () => return 0
      | .error (.fault .overflow) => return 101
      | .error failure =>
          Host.complain ("Error: " ++ failure.message ++ "\n")
          return 1

end Invocation

end Unpack.Command
