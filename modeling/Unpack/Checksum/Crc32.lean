namespace Unpack

-- CRC-32 of ISO 3309 in reflected form. The register starts at all ones and
-- is complemented at the end.
structure Crc32 where
  register : UInt32
  deriving Repr, DecidableEq

namespace Crc32

-- Shift the register by one bit.
def shift (register : UInt32) : UInt32 :=
  if register &&& 1 = 1 then (register >>> 1) ^^^ 0xEDB88320 else register >>> 1

def shifts : Nat → UInt32 → UInt32
  | 0, register => register
  | n + 1, register => shifts n (shift register)

def lookup (entries : Vector UInt32 256) (register : UInt32) : UInt32 :=
  entries.get register.toUInt8.toFin

-- What each byte comes to once it has been shifted out.
def byteTable : Vector UInt32 256 :=
  Vector.ofFn fun byte : Fin 256 => shifts 8 (UInt32.ofNat byte.val)

-- What each byte comes to when `zeros` zero bytes follow it.
def table : Nat → Vector UInt32 256
  | 0 => byteTable
  | zeros + 1 => (table zeros).map fun entry => lookup byteTable entry ^^^ (entry >>> 8)

def table0 : Vector UInt32 256 := table 0
def table1 : Vector UInt32 256 := table 1
def table2 : Vector UInt32 256 := table 2
def table3 : Vector UInt32 256 := table 3

-- One byte through the register.
def byteStep (register : UInt32) (byte : UInt8) : UInt32 :=
  lookup table0 (register ^^^ byte.toUInt32) ^^^ (register >>> 8)

-- Four bytes at once, one table for each distance to the end of the group.
def wordStep (register : UInt32) (b0 b1 b2 b3 : UInt8) : UInt32 :=
  let word := register ^^^ (b0.toUInt32 ||| (b1.toUInt32 <<< 8) ||| (b2.toUInt32 <<< 16)
    ||| (b3.toUInt32 <<< 24))
  lookup table3 word ^^^ lookup table2 (word >>> 8) ^^^ lookup table1 (word >>> 16)
    ^^^ lookup table0 (word >>> 24)

def runBytes (bytes : ByteArray) (i : Nat) (register : UInt32) : UInt32 :=
  if h : i < bytes.size then
    runBytes bytes (i + 1) (byteStep register bytes[i])
  else
    register
termination_by bytes.size - i

-- Whole groups of four, then what is left of the bytes.
def runWords (bytes : ByteArray) (i : Nat) (register : UInt32) : UInt32 :=
  if h : i + 3 < bytes.size then
    runWords bytes (i + 4) (wordStep register bytes[i] bytes[i + 1] bytes[i + 2] bytes[i + 3])
  else
    runBytes bytes i register
termination_by bytes.size - i

-- Fewer bytes than this go through the register one by one.
def threshold : Nat := 16

def run (bytes : ByteArray) (register : UInt32) : UInt32 :=
  if threshold ≤ bytes.size then runWords bytes 0 register else runBytes bytes 0 register

def empty : Crc32 := ⟨0xFFFFFFFF⟩

instance : Inhabited Crc32 := ⟨empty⟩

def update (crc : Crc32) (bytes : ByteArray) : Crc32 :=
  ⟨run bytes crc.register⟩

-- The checksum of everything fed so far.
def value (crc : Crc32) : UInt32 :=
  crc.register ^^^ 0xFFFFFFFF

def of (bytes : ByteArray) : UInt32 :=
  (empty.update bytes).value

end Crc32

end Unpack
