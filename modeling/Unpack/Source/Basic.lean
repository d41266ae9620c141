import Unpack.Fault

namespace Unpack

-- Something that bytes are read from. One read answers with at most the
-- number of bytes asked for; no bytes mean the end. `left` bounds the reads
-- that can still bring bytes or an interruption.
class Source (σ : Type) where
  read : σ → Nat → Except Fault ByteArray × σ
  left : σ → Nat

namespace Source

variable {σ : Type} [Source σ]

-- Read again as long as the reads are interrupted.
def readThrough : (rounds : Nat) → σ → Nat → Except Fault ByteArray × σ
  | 0, source, n => read source n
  | rounds + 1, source, n =>
      match read source n with
      | (.error fault, source) =>
          if fault.isInterruption then readThrough rounds source n else (.error fault, source)
      | answer => answer

def readOnce (source : σ) (n : Nat) : Except Fault ByteArray × σ :=
  readThrough (left source) source n

-- What a read that needs all its bytes makes of a fault.
def faultWhile (reading : String) (fault : Fault) : Fault :=
  if fault.ioKind = .unexpectedEof then .unexpectedEnd reading else fault

def readRest (reading : String) (n : Nat) : (rounds : Nat) → (got : ByteArray) → σ →
    Except Fault ByteArray × σ
  | 0, _, source => (.error (.unexpectedEnd reading), source)
  | rounds + 1, got, source =>
      if got.size < n then
        match readOnce source (n - got.size) with
        | (.error fault, source) => (.error (faultWhile reading fault), source)
        | (.ok bytes, source) =>
            if bytes.size = 0 then (.error (.unexpectedEnd reading), source)
            else readRest reading n rounds (got ++ bytes) source
      else
        (.ok got, source)

-- Exactly `n` bytes. What was read is lost when they do not come.
def readExactly (reading : String) (source : σ) (n : Nat) : Except Fault ByteArray × σ :=
  readRest reading n (n + 1) ByteArray.empty source

-- Bytes copied at a time.
def copySize : Nat := 8192

-- Everything up to the end, or up to a fault. Before each read the source is
-- changed by what has been copied so far.
def copyChanging (change : ByteArray → σ → σ) : (rounds : Nat) → (got : ByteArray) → σ →
    ByteArray × Except Fault Unit × σ
  | 0, got, source => (got, .ok (), source)
  | rounds + 1, got, source =>
      match readOnce (change got source) copySize with
      | (.error fault, source) => (got, .error fault, source)
      | (.ok bytes, source) =>
          if bytes.size = 0 then (got, .ok (), source)
          else copyChanging change rounds (got ++ bytes) source

-- Everything up to the end, or up to a fault.
def copy (source : σ) : ByteArray × Except Fault Unit × σ :=
  copyChanging (fun _ source => source) (left source + 1) ByteArray.empty source

end Source

end Unpack
