namespace Unpack.Bytes

-- Equality of byte arrays is decided everywhere in the same way.
instance (priority := 2000) decideEq : DecidableEq ByteArray := ByteArray.instDecidableEq

-- The byte at `i`, zero past the end.
def octet (bytes : ByteArray) (i : Nat) : Nat :=
  if h : i < bytes.size then bytes[i].toNat else 0

-- The little-endian value of `count` bytes from `start` on.
def le (bytes : ByteArray) (start : Nat) : (count : Nat) → Nat
  | 0 => 0
  | count + 1 => octet bytes start + 256 * le bytes (start + 1) count

-- The big-endian value of `count` bytes from `start` on, after a leading value.
def be (bytes : ByteArray) (start : Nat) (lead : Nat) : (count : Nat) → Nat
  | 0 => lead
  | count + 1 => be bytes (start + 1) (256 * lead + octet bytes start) count

-- Append the low `count` bytes of `value`, least significant first.
def putLe (out : ByteArray) : (count value : Nat) → ByteArray
  | 0, _ => out
  | count + 1, value => putLe (out.push value.toUInt8) count (value / 256)

-- Fields of given widths, one after the other.
def ofFields (fields : List (Nat × Nat)) : ByteArray :=
  fields.foldl (fun out field => putLe out field.1 field.2) ByteArray.empty

end Unpack.Bytes
