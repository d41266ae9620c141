namespace Unpack.Text

namespace Utf8

-- Where a decoder stands: between characters, or inside one with `more`
-- octets to come, the next of them from `low` to `high`, and the bits so far.
inductive State where
  | between
  | inside (more low high bits : Nat)
  deriving Repr, DecidableEq

-- What stands for octets that are no character.
def replacement : Char := '\uFFFD'

-- An octet between characters. The second octet of some characters is
-- bounded so that none is longer than it needs to be, none is a surrogate and
-- none is beyond the last code point.
def lead (octet : Nat) : Option Char × State :=
  if octet < 0x80 then (some (Char.ofNat octet), .between)
  else if octet < 0xC2 then (some replacement, .between)
  else if octet < 0xE0 then (none, .inside 1 0x80 0xBF (octet - 0xC0))
  else if octet = 0xE0 then (none, .inside 2 0xA0 0xBF 0)
  else if octet = 0xED then (none, .inside 2 0x80 0x9F 0xD)
  else if octet < 0xF0 then (none, .inside 2 0x80 0xBF (octet - 0xE0))
  else if octet = 0xF0 then (none, .inside 3 0x90 0xBF 0)
  else if octet < 0xF4 then (none, .inside 3 0x80 0xBF (octet - 0xF0))
  else if octet = 0xF4 then (none, .inside 3 0x80 0x8F 4)
  else (some replacement, .between)

-- Decode octets, each longest beginning of a character that is not completed
-- becoming one replacement character.
def decode : State → List UInt8 → List Char
  | .between, [] => []
  | .inside .., [] => [replacement]
  | .between, octet :: rest =>
      match lead octet.toNat with
      | (some c, state) => c :: decode state rest
      | (none, state) => decode state rest
  | .inside more low high bits, octet :: rest =>
      if low ≤ octet.toNat ∧ octet.toNat ≤ high then
        let bits := bits * 64 + (octet.toNat - 0x80)
        if more ≤ 1 then Char.ofNat bits :: decode .between rest
        else decode (.inside (more - 1) 0x80 0xBF bits) rest
      else
        match lead octet.toNat with
        | (some c, state) => replacement :: c :: decode state rest
        | (none, state) => replacement :: decode state rest

end Utf8

-- Bytes as text. Bytes that are not UTF-8 are read with replacement characters.
def ofUtf8 (bytes : ByteArray) : String :=
  match String.fromUTF8? bytes with
  | some text => text
  | none => String.ofList (Utf8.decode .between bytes.toList)

def isUtf8 (bytes : ByteArray) : Bool :=
  (String.fromUTF8? bytes).isSome

end Unpack.Text
