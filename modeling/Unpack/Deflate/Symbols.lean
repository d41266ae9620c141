import Unpack.Huffman.Table

namespace Unpack.Deflate

open Huffman (Table)

def endOfBlock : Nat := 256

-- Code lengths of the fixed code for literals and lengths.
def fixedLiteralLengths : List Nat :=
  List.replicate 144 8 ++ List.replicate 112 9 ++ List.replicate 24 7 ++ List.replicate 8 8

-- Code lengths of the fixed code for distances. Its symbols 30 and 31 fill
-- the code space but stand for nothing.
def fixedDistanceLengths : List Nat :=
  List.replicate 32 5

-- Least length and number of extra bits for the symbols from 257 on.
def lengthCodes : Array (Nat × Nat) :=
  #[(3, 0), (4, 0), (5, 0), (6, 0), (7, 0), (8, 0), (9, 0), (10, 0), (11, 1), (13, 1), (15, 1),
    (17, 1), (19, 2), (23, 2), (27, 2), (31, 2), (35, 3), (43, 3), (51, 3), (59, 3), (67, 4),
    (83, 4), (99, 4), (115, 4), (131, 5), (163, 5), (195, 5), (227, 5), (258, 0)]

-- Least distance and number of extra bits for the distance symbols.
def distanceCodes : Array (Nat × Nat) :=
  #[(1, 0), (2, 0), (3, 0), (4, 0), (5, 1), (7, 1), (9, 2), (13, 2), (17, 3), (25, 3), (33, 4),
    (49, 4), (65, 5), (97, 5), (129, 6), (193, 6), (257, 7), (385, 7), (513, 8), (769, 8),
    (1025, 9), (1537, 9), (2049, 10), (3073, 10), (4097, 11), (6145, 11), (8193, 12),
    (12289, 12), (16385, 13), (24577, 13)]

-- The order in which a dynamic block sends the lengths of its code length code.
def codeLengthOrder : List Nat :=
  [16, 17, 18, 0, 8, 7, 9, 6, 10, 5, 11, 4, 12, 3, 13, 2, 14, 1, 15]

-- The two codes of a block.
structure Codes where
  literal : Table
  distance : Table

def Codes.fixed : Codes where
  literal := .ofTree (.ofLengths fixedLiteralLengths) 9
  distance := .ofTree (.ofLengths fixedDistanceLengths) 5

end Unpack.Deflate
