import Unpack.Fault

namespace Unpack

-- Something that bytes are written to. A write takes all its bytes, or it fails
-- and may have taken some of them.
class Sink (ω : Type) where
  write : ω → ByteArray → Except Fault Unit × ω
  flush : ω → Except Fault Unit × ω

-- Memory takes everything.
instance : Sink ByteArray where
  write out bytes := (.ok (), out ++ bytes)
  flush out := (.ok (), out)

namespace Sink

-- What a step leaves behind, if it succeeds.
def settled {α : Type} : Except Fault Unit × α → Except Fault α
  | (.error fault, _) => .error fault
  | (.ok (), state) => .ok state

variable {ω : Type} [Sink ω]

-- Write a record and answer with its length.
def record (out : ω) (bytes : ByteArray) : Except Fault Nat × ω :=
  match write out bytes with
  | (.error fault, out) => (.error fault, out)
  | (.ok (), out) => (.ok bytes.size, out)

end Sink

end Unpack
