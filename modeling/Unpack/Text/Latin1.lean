namespace Unpack.Text

-- ISO 8859-1: every byte is the character of the same number.
def ofLatin1 (bytes : ByteArray) : String :=
  String.ofList (bytes.toList.map fun byte => Char.ofNat byte.toNat)

-- Characters beyond ISO 8859-1 become question marks.
def latin1Byte (c : Char) : UInt8 :=
  if c.toNat < 256 then c.toNat.toUInt8 else 63

def toLatin1 (text : String) : ByteArray :=
  ⟨(text.toList.map latin1Byte).toArray⟩

end Unpack.Text
