import Unpack.Deflate.Decoder

namespace Unpack.Zlib

open Deflate (Decoder)

-- Decode a whole zlib stream that needs no dictionary.
def decompress (data : ByteArray) : Except Fault ByteArray :=
  (Decoder.zlib.decodeAll data).1

-- One more piece of a whole stream, or the dictionary that it waits for.
def unwrapRound (dictionary : ByteArray) :
    ByteArray × Decoder → (ByteArray × Decoder) ⊕ Except Fault ByteArray
  | (out, s) =>
      match s.read Decoder.pieceSize with
      | (.error fault, _) => .inr (.error fault)
      | (.ok bytes, s) =>
          let out := out ++ bytes
          if s.awaitsDictionary then
            match s.supplyDictionary dictionary with
            | (.error fault, _) => .inr (.error fault)
            | (.ok (), s) => .inl (out, s)
          else if s.isFinished then
            .inr (.ok out)
          else if bytes.size = 0 then
            .inr (.error (.unexpectedEnd "zlib stream"))
          else
            .inl (out, s)

def decodeRest (dictionary : ByteArray) (rounds : Nat) (out : ByteArray) (s : Decoder) :
    Except Fault ByteArray :=
  Loop.run (unwrapRound dictionary) (fun s => .ok s.1) rounds (out, s)

-- Decode a whole zlib stream, with the dictionary if it asks for one.
def decompressWith (dictionary data : ByteArray) : Except Fault ByteArray :=
  let s := Decoder.zlib.feed data
  decodeRest dictionary (s.capacity + 3) ByteArray.empty s

-- The id of the dictionary that a zlib stream asks for in its header.
def requiredDictionary (data : ByteArray) : Option UInt32 :=
  let header := Bytes.be data 0 0 2
  if 6 ≤ data.size ∧ header % 31 = 0 ∧ header / 256 % 16 = 8 ∧ header.testBit 5 then
    some (UInt32.ofNat (Bytes.be data 2 0 4))
  else
    none

end Unpack.Zlib
