import Unpack.Source.Basic

namespace Unpack.Source

-- The buffer of a reader that gathers everything: bytes held, bytes it has
-- room for, room it began with, and the most that one read asks for.
structure Gathering where
  size : Nat
  room : Nat
  initialRoom : Nat
  limit : Nat
  deriving Repr, DecidableEq

namespace Gathering

-- Bytes asked for when the buffer is full and may already hold everything.
def probe : Nat := 32

def start (room : Nat) : Gathering := ⟨0, room, room, 8192⟩

-- Make room for `more` bytes, at least doubling the buffer.
def reserve (g : Gathering) (more : Nat) : Gathering :=
  if g.room - g.size < more then
    { g with room := max (max (2 * g.room) (g.size + more)) 8 }
  else
    g

-- After a probe its bytes are appended.
def afterProbe (g : Gathering) (count : Nat) : Gathering :=
  { g.reserve count with size := g.size + count }

-- Bytes that the next read asks for.
def request (g : Gathering) : Nat :=
  min (g.room - g.size) g.limit

-- A read that brought all it was asked for may be followed by larger ones.
def afterRead (g : Gathering) (asked count : Nat) : Gathering :=
  { g with
    size := g.size + count
    limit := if g.limit ≤ asked ∧ count = asked then 2 * g.limit else g.limit }

end Gathering

variable {σ : Type} [Source σ]

open Gathering (probe)

-- Ask for a few bytes and append them.
def probeOnce (g : Gathering) (got : ByteArray) (source : σ) :
    Except Fault (Gathering × ByteArray) × σ :=
  match readOnce source probe with
  | (.error fault, source) => (.error fault, source)
  | (.ok bytes, source) => (.ok (g.afterProbe bytes.size, got ++ bytes), source)

-- Ask for as many bytes as there is room for and append them.
def readOn (g : Gathering) (got : ByteArray) (source : σ) :
    Except Fault (Gathering × ByteArray) × σ :=
  let g := if g.size = g.room then g.reserve probe else g
  match readOnce source g.request with
  | (.error fault, source) => (.error fault, source)
  | (.ok bytes, source) => (.ok (g.afterRead g.request bytes.size, got ++ bytes), source)

-- Probe a buffer that is full since the beginning, else read on, until no
-- bytes come.
def collectRest : (rounds : Nat) → Gathering → (got : ByteArray) → σ → Except Fault ByteArray × σ
  | 0, _, got, source => (.ok got, source)
  | rounds + 1, g, got, source =>
      let answer :=
        if g.size = g.room ∧ g.room = g.initialRoom then probeOnce g got source
        else readOn g got source
      match answer with
      | (.error fault, source) => (.error fault, source)
      | (.ok (grown, more), source) =>
          if more.size = got.size then (.ok got, source) else collectRest rounds grown more source

-- Everything up to the end, read into a buffer that begins with `room` bytes.
-- The bytes are lost when a read fails.
def collect (room : Nat) (source : σ) : Except Fault ByteArray × σ :=
  let rounds := left source + 1
  if room < probe then
    match probeOnce (.start room) ByteArray.empty source with
    | (.error fault, source) => (.error fault, source)
    | (.ok (g, got), source) =>
        if got.size = 0 then (.ok got, source) else collectRest rounds g got source
  else
    collectRest rounds (.start room) ByteArray.empty source

end Unpack.Source
