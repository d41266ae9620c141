namespace Unpack

-- Adler-32 of RFC 1950: `low` is one more than the sum of the bytes, `high`
-- the sum of all values that `low` took, both modulo 65521.
structure Adler32 where
  low : UInt32
  high : UInt32
  deriving Repr, DecidableEq

namespace Adler32

def modulus : UInt32 := 65521

-- So many bytes may be summed before `high` must be reduced.
def stretch : Nat := 5552

def empty : Adler32 := ⟨1, 0⟩

instance : Inhabited Adler32 := ⟨empty⟩

def sum (bytes : ByteArray) (stop i : Nat) (low high : UInt32) : Adler32 :=
  if h : i < stop ∧ i < bytes.size then
    let low := low + bytes[i].toUInt32
    sum bytes stop (i + 1) low (high + low)
  else
    ⟨low, high⟩
termination_by stop - i

def reduce (adler : Adler32) : Adler32 :=
  ⟨adler.low % modulus, adler.high % modulus⟩

def run (bytes : ByteArray) (i : Nat) (adler : Adler32) : Adler32 :=
  if i < bytes.size then
    run bytes (i + stretch) (sum bytes (i + stretch) i adler.low adler.high).reduce
  else
    adler
termination_by bytes.size - i
decreasing_by simp only [stretch]; omega

def update (adler : Adler32) (bytes : ByteArray) : Adler32 :=
  run bytes 0 adler

def value (adler : Adler32) : UInt32 :=
  (adler.high <<< 16) ||| adler.low

def of (bytes : ByteArray) : UInt32 :=
  (empty.update bytes).value

end Adler32

end Unpack
