import Unpack.Command.Extraction
import Unpack.Command.Gzipping
import Unpack.Command.Listing
import Unpack.Command.Verification

namespace Unpack

open Command

-- Everything that the program can be told to do.
inductive Command where
  | list (options : Listing.Options)
  | extract (options : Extraction.Options)
  | cat (path name : String)
  | test (path : String)
  | gunzip (options : Gzipping.Options)
  | gzip (options : Gzipping.Options)
  deriving Repr, DecidableEq

namespace Command

def run {m : Type → Type} [Monad m] [Host m] (manner : Manner) : Command → Action m Unit
  | .list options => Listing.run manner options
  | .extract options => Extraction.run manner options
  | .cat path name => Extraction.printEntry manner path name
  | .test path => Verification.run manner path
  | .gunzip options => Gzipping.decompress manner options
  | .gzip options => Gzipping.compress manner options

end Command

end Unpack
