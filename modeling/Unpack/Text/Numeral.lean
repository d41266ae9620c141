namespace Unpack.Text

-- A text filled up on the left to `width` characters.
def pad (fill : Char) (width : Nat) (text : List Char) : String :=
  String.ofList (List.replicate (width - text.length) fill ++ text)

-- The digits of `n` in lower-case hexadecimal, with leading zeros up to `width`.
def hex (width n : Nat) : String :=
  pad '0' width (Nat.toDigits 16 n)

-- The digits of `n` with leading zeros up to `width`.
def decimal (width n : Nat) : String :=
  pad '0' width (Nat.toDigits 10 n)

-- `0x` and then at least `width` hexadecimal digits.
def hex0x (width n : Nat) : String :=
  "0x" ++ hex width n

-- Blanks on the left up to `width` characters.
def padLeft (width : Nat) (text : String) : String :=
  pad ' ' width text.toList

-- Bytes as `[1f, 8b]`.
def byteList (bytes : ByteArray) : String :=
  "[" ++ ", ".intercalate (bytes.toList.map fun b => hex 2 b.toNat) ++ "]"

end Unpack.Text
