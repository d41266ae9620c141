import Unpack.Text.Glob

namespace Unpack.Zip

-- Which entries of an archive a command is about: those that were asked for,
-- all if none were, as far as the glob patterns let them through.
structure Selection where
  requested : List String
  included : List String
  excluded : List String
  deriving Repr, DecidableEq

namespace Selection

def everything : Selection := ⟨[], [], []⟩

instance : Inhabited Selection := ⟨everything⟩

def trimSlashes (path : List Char) : List Char :=
  (path.reverse.dropWhile (· = '/')).reverse

-- Whether `name` is the requested path or lies below it.
def covers (requested name : String) : Bool :=
  name = requested ∨ (trimSlashes requested.toList ++ ['/']).isPrefixOf name.toList

-- Whether the patterns let a name through: no exclusion matches it and, if
-- there are inclusions, one of them does.
def passes (s : Selection) (name : String) : Bool :=
  !s.excluded.any (Text.globMatches · name)
    && (s.included.isEmpty || s.included.any (Text.globMatches · name))

def admits (s : Selection) (name : String) : Bool :=
  (s.requested.isEmpty || s.requested.any (covers · name)) && s.passes name

end Selection

end Unpack.Zip
