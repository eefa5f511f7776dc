import Vend.Lib.GroupVarint

/-! # Tables of the SIMD codec

    `lengthTable` and `shuffleTable` of `encode/codec/SIMD/delta_simd_codec.h`: for
    every control byte the data bytes of its group, and the byte shuffle that moves
    them to the four lanes. `lengthTable_eq` and `shuffleTable_eq` say so.
-/

namespace Vend

namespace DeltaSIMDCodec

open GroupVarint

/-- `lengthTable[256]`. -/
def lengthTable : List Nat :=
  [4, 5, 6, 7, 5, 6, 7, 8, 6, 7, 8, 9, 7, 8, 9, 10, 5, 6, 7, 8, 6, 7, 8, 9,
   7, 8, 9, 10, 8, 9, 10, 11, 6, 7, 8, 9, 7, 8, 9, 10, 8, 9, 10, 11, 9, 10, 11, 12,
   7, 8, 9, 10, 8, 9, 10, 11, 9, 10, 11, 12, 10, 11, 12, 13, 5, 6, 7, 8, 6, 7, 8, 9,
   7, 8, 9, 10, 8, 9, 10, 11, 6, 7, 8, 9, 7, 8, 9, 10, 8, 9, 10, 11, 9, 10, 11, 12,
   7, 8, 9, 10, 8, 9, 10, 11, 9, 10, 11, 12, 10, 11, 12, 13, 8, 9, 10, 11, 9, 10, 11, 12,
   10, 11, 12, 13, 11, 12, 13, 14, 6, 7, 8, 9, 7, 8, 9, 10, 8, 9, 10, 11, 9, 10, 11, 12,
   7, 8, 9, 10, 8, 9, 10, 11, 9, 10, 11, 12, 10, 11, 12, 13, 8, 9, 10, 11, 9, 10, 11, 12,
   10, 11, 12, 13, 11, 12, 13, 14, 9, 10, 11, 12, 10, 11, 12, 13, 11, 12, 13, 14, 12, 13, 14, 15,
   7, 8, 9, 10, 8, 9, 10, 11, 9, 10, 11, 12, 10, 11, 12, 13, 8, 9, 10, 11, 9, 10, 11, 12,
   10, 11, 12, 13, 11, 12, 13, 14, 9, 10, 11, 12, 10, 11, 12, 13, 11, 12, 13, 14, 12, 13, 14, 15,
   10, 11, 12, 13, 11, 12, 13, 14, 12, 13, 14, 15, 13, 14, 15, 16]

-- The rows of `shuffleTable`, by the code of the fourth lane. The entry -1, which
-- leaves a byte zero, is the byte 255.

def shuffleRows0 : List (List Nat) :=
  [[0, 255, 255, 255, 1, 255, 255, 255, 2, 255, 255, 255, 3, 255, 255, 255],
   [0, 1, 255, 255, 2, 255, 255, 255, 3, 255, 255, 255, 4, 255, 255, 255],
   [0, 1, 2, 255, 3, 255, 255, 255, 4, 255, 255, 255, 5, 255, 255, 255],
   [0, 1, 2, 3, 4, 255, 255, 255, 5, 255, 255, 255, 6, 255, 255, 255],
   [0, 255, 255, 255, 1, 2, 255, 255, 3, 255, 255, 255, 4, 255, 255, 255],
   [0, 1, 255, 255, 2, 3, 255, 255, 4, 255, 255, 255, 5, 255, 255, 255],
   [0, 1, 2, 255, 3, 4, 255, 255, 5, 255, 255, 255, 6, 255, 255, 255],
   [0, 1, 2, 3, 4, 5, 255, 255, 6, 255, 255, 255, 7, 255, 255, 255],
   [0, 255, 255, 255, 1, 2, 3, 255, 4, 255, 255, 255, 5, 255, 255, 255],
   [0, 1, 255, 255, 2, 3, 4, 255, 5, 255, 255, 255, 6, 255, 255, 255],
   [0, 1, 2, 255, 3, 4, 5, 255, 6, 255, 255, 255, 7, 255, 255, 255],
   [0, 1, 2, 3, 4, 5, 6, 255, 7, 255, 255, 255, 8, 255, 255, 255],
   [0, 255, 255, 255, 1, 2, 3, 4, 5, 255, 255, 255, 6, 255, 255, 255],
   [0, 1, 255, 255, 2, 3, 4, 5, 6, 255, 255, 255, 7, 255, 255, 255],
   [0, 1, 2, 255, 3, 4, 5, 6, 7, 255, 255, 255, 8, 255, 255, 255],
   [0, 1, 2, 3, 4, 5, 6, 7, 8, 255, 255, 255, 9, 255, 255, 255],
   [0, 255, 255, 255, 1, 255, 255, 255, 2, 3, 255, 255, 4, 255, 255, 255],
   [0, 1, 255, 255, 2, 255, 255, 255, 3, 4, 255, 255, 5, 255, 255, 255],
   [0, 1, 2, 255, 3, 255, 255, 255, 4, 5, 255, 255, 6, 255, 255, 255],
   [0, 1, 2, 3, 4, 255, 255, 255, 5, 6, 255, 255, 7, 255, 255, 255],
   [0, 255, 255, 255, 1, 2, 255, 255, 3, 4, 255, 255, 5, 255, 255, 255],
   [0, 1, 255, 255, 2, 3, 255, 255, 4, 5, 255, 255, 6, 255, 255, 255],
   [0, 1, 2, 255, 3, 4, 255, 255, 5, 6, 255, 255, 7, 255, 255, 255],
   [0, 1, 2, 3, 4, 5, 255, 255, 6, 7, 255, 255, 8, 255, 255, 255],
   [0, 255, 255, 255, 1, 2, 3, 255, 4, 5, 255, 255, 6, 255, 255, 255],
   [0, 1, 255, 255, 2, 3, 4, 255, 5, 6, 255, 255, 7, 255, 255, 255],
   [0, 1, 2, 255, 3, 4, 5, 255, 6, 7, 255, 255, 8, 255, 255, 255],
   [0, 1, 2, 3, 4, 5, 6, 255, 7, 8, 255, 255, 9, 255, 255, 255],
   [0, 255, 255, 255, 1, 2, 3, 4, 5, 6, 255, 255, 7, 255, 255, 255],
   [0, 1, 255, 255, 2, 3, 4, 5, 6, 7, 255, 255, 8, 255, 255, 255],
   [0, 1, 2, 255, 3, 4, 5, 6, 7, 8, 255, 255, 9, 255, 255, 255],
   [0, 1, 2, 3, 4, 5, 6, 7, 8, 9, 255, 255, 10, 255, 255, 255],
   [0, 255, 255, 255, 1, 255, 255, 255, 2, 3, 4, 255, 5, 255, 255, 255],
   [0, 1, 255, 255, 2, 255, 255, 255, 3, 4, 5, 255, 6, 255, 255, 255],
   [0, 1, 2, 255, 3, 255, 255, 255, 4, 5, 6, 255, 7, 255, 255, 255],
   [0, 1, 2, 3, 4, 255, 255, 255, 5, 6, 7, 255, 8, 255, 255, 255],
   [0, 255, 255, 255, 1, 2, 255, 255, 3, 4, 5, 255, 6, 255, 255, 255],
   [0, 1, 255, 255, 2, 3, 255, 255, 4, 5, 6, 255, 7, 255, 255, 255],
   [0, 1, 2, 255, 3, 4, 255, 255, 5, 6, 7, 255, 8, 255, 255, 255],
   [0, 1, 2, 3, 4, 5, 255, 255, 6, 7, 8, 255, 9, 255, 255, 255],
   [0, 255, 255, 255, 1, 2, 3, 255, 4, 5, 6, 255, 7, 255, 255, 255],
   [0, 1, 255, 255, 2, 3, 4, 255, 5, 6, 7, 255, 8, 255, 255, 255],
   [0, 1, 2, 255, 3, 4, 5, 255, 6, 7, 8, 255, 9, 255, 255, 255],
   [0, 1, 2, 3, 4, 5, 6, 255, 7, 8, 9, 255, 10, 255, 255, 255],
   [0, 255, 255, 255, 1, 2, 3, 4, 5, 6, 7, 255, 8, 255, 255, 255],
   [0, 1, 255, 255, 2, 3, 4, 5, 6, 7, 8, 255, 9, 255, 255, 255],
   [0, 1, 2, 255, 3, 4, 5, 6, 7, 8, 9, 255, 10, 255, 255, 255],
   [0, 1, 2, 3, 4, 5, 6, 7, 8, 9, 10, 255, 11, 255, 255, 255],
   [0, 255, 255, 255, 1, 255, 255, 255, 2, 3, 4, 5, 6, 255, 255, 255],
   [0, 1, 255, 255, 2, 255, 255, 255, 3, 4, 5, 6, 7, 255, 255, 255],
   [0, 1, 2, 255, 3, 255, 255, 255, 4, 5, 6, 7, 8, 255, 255, 255],
   [0, 1, 2, 3, 4, 255, 255, 255, 5, 6, 7, 8, 9, 255, 255, 255],
   [0, 255, 255, 255, 1, 2, 255, 255, 3, 4, 5, 6, 7, 255, 255, 255],
   [0, 1, 255, 255, 2, 3, 255, 255, 4, 5, 6, 7, 8, 255, 255, 255],
   [0, 1, 2, 255, 3, 4, 255, 255, 5, 6, 7, 8, 9, 255, 255, 255],
   [0, 1, 2, 3, 4, 5, 255, 255, 6, 7, 8, 9, 10, 255, 255, 255],
   [0, 255, 255, 255, 1, 2, 3, 255, 4, 5, 6, 7, 8, 255, 255, 255],
   [0, 1, 255, 255, 2, 3, 4, 255, 5, 6, 7, 8, 9, 255, 255, 255],
   [0, 1, 2, 255, 3, 4, 5, 255, 6, 7, 8, 9, 10, 255, 255, 255],
   [0, 1, 2, 3, 4, 5, 6, 255, 7, 8, 9, 10, 11, 255, 255, 255],
   [0, 255, 255, 255, 1, 2, 3, 4, 5, 6, 7, 8, 9, 255, 255, 255],
   [0, 1, 255, 255, 2, 3, 4, 5, 6, 7, 8, 9, 10, 255, 255, 255],
   [0, 1, 2, 255, 3, 4, 5, 6, 7, 8, 9, 10, 11, 255, 255, 255],
   [0, 1, 2, 3, 4, 5, 6, 7, 8, 9, 10, 11, 12, 255, 255, 255]]

def shuffleRows1 : List (List Nat) :=
  [[0, 255, 255, 255, 1, 255, 255, 255, 2, 255, 255, 255, 3, 4, 255, 255],
   [0, 1, 255, 255, 2, 255, 255, 255, 3, 255, 255, 255, 4, 5, 255, 255],
   [0, 1, 2, 255, 3, 255, 255, 255, 4, 255, 255, 255, 5, 6, 255, 255],
   [0, 1, 2, 3, 4, 255, 255, 255, 5, 255, 255, 255, 6, 7, 255, 255],
   [0, 255, 255, 255, 1, 2, 255, 255, 3, 255, 255, 255, 4, 5, 255, 255],
   [0, 1, 255, 255, 2, 3, 255, 255, 4, 255, 255, 255, 5, 6, 255, 255],
   [0, 1, 2, 255, 3, 4, 255, 255, 5, 255, 255, 255, 6, 7, 255, 255],
   [0, 1, 2, 3, 4, 5, 255, 255, 6, 255, 255, 255, 7, 8, 255, 255],
   [0, 255, 255, 255, 1, 2, 3, 255, 4, 255, 255, 255, 5, 6, 255, 255],
   [0, 1, 255, 255, 2, 3, 4, 255, 5, 255, 255, 255, 6, 7, 255, 255],
   [0, 1, 2, 255, 3, 4, 5, 255, 6, 255, 255, 255, 7, 8, 255, 255],
   [0, 1, 2, 3, 4, 5, 6, 255, 7, 255, 255, 255, 8, 9, 255, 255],
   [0, 255, 255, 255, 1, 2, 3, 4, 5, 255, 255, 255, 6, 7, 255, 255],
   [0, 1, 255, 255, 2, 3, 4, 5, 6, 255, 255, 255, 7, 8, 255, 255],
   [0, 1, 2, 255, 3, 4, 5, 6, 7, 255, 255, 255, 8, 9, 255, 255],
   [0, 1, 2, 3, 4, 5, 6, 7, 8, 255, 255, 255, 9, 10, 255, 255],
   [0, 255, 255, 255, 1, 255, 255, 255, 2, 3, 255, 255, 4, 5, 255, 255],
   [0, 1, 255, 255, 2, 255, 255, 255, 3, 4, 255, 255, 5, 6, 255, 255],
   [0, 1, 2, 255, 3, 255, 255, 255, 4, 5, 255, 255, 6, 7, 255, 255],
   [0, 1, 2, 3, 4, 255, 255, 255, 5, 6, 255, 255, 7, 8, 255, 255],
   [0, 255, 255, 255, 1, 2, 255, 255, 3, 4, 255, 255, 5, 6, 255, 255],
   [0, 1, 255, 255, 2, 3, 255, 255, 4, 5, 255, 255, 6, 7, 255, 255],
   [0, 1, 2, 255, 3, 4, 255, 255, 5, 6, 255, 255, 7, 8, 255, 255],
   [0, 1, 2, 3, 4, 5, 255, 255, 6, 7, 255, 255, 8, 9, 255, 255],
   [0, 255, 255, 255, 1, 2, 3, 255, 4, 5, 255, 255, 6, 7, 255, 255],
   [0, 1, 255, 255, 2, 3, 4, 255, 5, 6, 255, 255, 7, 8, 255, 255],
   [0, 1, 2, 255, 3, 4, 5, 255, 6, 7, 255, 255, 8, 9, 255, 255],
   [0, 1, 2, 3, 4, 5, 6, 255, 7, 8, 255, 255, 9, 10, 255, 255],
   [0, 255, 255, 255, 1, 2, 3, 4, 5, 6, 255, 255, 7, 8, 255, 255],
   [0, 1, 255, 255, 2, 3, 4, 5, 6, 7, 255, 255, 8, 9, 255, 255],
   [0, 1, 2, 255, 3, 4, 5, 6, 7, 8, 255, 255, 9, 10, 255, 255],
   [0, 1, 2, 3, 4, 5, 6, 7, 8, 9, 255, 255, 10, 11, 255, 255],
   [0, 255, 255, 255, 1, 255, 255, 255, 2, 3, 4, 255, 5, 6, 255, 255],
   [0, 1, 255, 255, 2, 255, 255, 255, 3, 4, 5, 255, 6, 7, 255, 255],
   [0, 1, 2, 255, 3, 255, 255, 255, 4, 5, 6, 255, 7, 8, 255, 255],
   [0, 1, 2, 3, 4, 255, 255, 255, 5, 6, 7, 255, 8, 9, 255, 255],
   [0, 255, 255, 255, 1, 2, 255, 255, 3, 4, 5, 255, 6, 7, 255, 255],
   [0, 1, 255, 255, 2, 3, 255, 255, 4, 5, 6, 255, 7, 8, 255, 255],
   [0, 1, 2, 255, 3, 4, 255, 255, 5, 6, 7, 255, 8, 9, 255, 255],
   [0, 1, 2, 3, 4, 5, 255, 255, 6, 7, 8, 255, 9, 10, 255, 255],
   [0, 255, 255, 255, 1, 2, 3, 255, 4, 5, 6, 255, 7, 8, 255, 255],
   [0, 1, 255, 255, 2, 3, 4, 255, 5, 6, 7, 255, 8, 9, 255, 255],
   [0, 1, 2, 255, 3, 4, 5, 255, 6, 7, 8, 255, 9, 10, 255, 255],
   [0, 1, 2, 3, 4, 5, 6, 255, 7, 8, 9, 255, 10, 11, 255, 255],
   [0, 255, 255, 255, 1, 2, 3, 4, 5, 6, 7, 255, 8, 9, 255, 255],
   [0, 1, 255, 255, 2, 3, 4, 5, 6, 7, 8, 255, 9, 10, 255, 255],
   [0, 1, 2, 255, 3, 4, 5, 6, 7, 8, 9, 255, 10, 11, 255, 255],
   [0, 1, 2, 3, 4, 5, 6, 7, 8, 9, 10, 255, 11, 12, 255, 255],
   [0, 255, 255, 255, 1, 255, 255, 255, 2, 3, 4, 5, 6, 7, 255, 255],
   [0, 1, 255, 255, 2, 255, 255, 255, 3, 4, 5, 6, 7, 8, 255, 255],
   [0, 1, 2, 255, 3, 255, 255, 255, 4, 5, 6, 7, 8, 9, 255, 255],
   [0, 1, 2, 3, 4, 255, 255, 255, 5, 6, 7, 8, 9, 10, 255, 255],
   [0, 255, 255, 255, 1, 2, 255, 255, 3, 4, 5, 6, 7, 8, 255, 255],
   [0, 1, 255, 255, 2, 3, 255, 255, 4, 5, 6, 7, 8, 9, 255, 255],
   [0, 1, 2, 255, 3, 4, 255, 255, 5, 6, 7, 8, 9, 10, 255, 255],
   [0, 1, 2, 3, 4, 5, 255, 255, 6, 7, 8, 9, 10, 11, 255, 255],
   [0, 255, 255, 255, 1, 2, 3, 255, 4, 5, 6, 7, 8, 9, 255, 255],
   [0, 1, 255, 255, 2, 3, 4, 255, 5, 6, 7, 8, 9, 10, 255, 255],
   [0, 1, 2, 255, 3, 4, 5, 255, 6, 7, 8, 9, 10, 11, 255, 255],
   [0, 1, 2, 3, 4, 5, 6, 255, 7, 8, 9, 10, 11, 12, 255, 255],
   [0, 255, 255, 255, 1, 2, 3, 4, 5, 6, 7, 8, 9, 10, 255, 255],
   [0, 1, 255, 255, 2, 3, 4, 5, 6, 7, 8, 9, 10, 11, 255, 255],
   [0, 1, 2, 255, 3, 4, 5, 6, 7, 8, 9, 10, 11, 12, 255, 255],
   [0, 1, 2, 3, 4, 5, 6, 7, 8, 9, 10, 11, 12, 13, 255, 255]]

def shuffleRows2 : List (List Nat) :=
  [[0, 255, 255, 255, 1, 255, 255, 255, 2, 255, 255, 255, 3, 4, 5, 255],
   [0, 1, 255, 255, 2, 255, 255, 255, 3, 255, 255, 255, 4, 5, 6, 255],
   [0, 1, 2, 255, 3, 255, 255, 255, 4, 255, 255, 255, 5, 6, 7, 255],
   [0, 1, 2, 3, 4, 255, 255, 255, 5, 255, 255, 255, 6, 7, 8, 255],
   [0, 255, 255, 255, 1, 2, 255, 255, 3, 255, 255, 255, 4, 5, 6, 255],
   [0, 1, 255, 255, 2, 3, 255, 255, 4, 255, 255, 255, 5, 6, 7, 255],
   [0, 1, 2, 255, 3, 4, 255, 255, 5, 255, 255, 255, 6, 7, 8, 255],
   [0, 1, 2, 3, 4, 5, 255, 255, 6, 255, 255, 255, 7, 8, 9, 255],
   [0, 255, 255, 255, 1, 2, 3, 255, 4, 255, 255, 255, 5, 6, 7, 255],
   [0, 1, 255, 255, 2, 3, 4, 255, 5, 255, 255, 255, 6, 7, 8, 255],
   [0, 1, 2, 255, 3, 4, 5, 255, 6, 255, 255, 255, 7, 8, 9, 255],
   [0, 1, 2, 3, 4, 5, 6, 255, 7, 255, 255, 255, 8, 9, 10, 255],
   [0, 255, 255, 255, 1, 2, 3, 4, 5, 255, 255, 255, 6, 7, 8, 255],
   [0, 1, 255, 255, 2, 3, 4, 5, 6, 255, 255, 255, 7, 8, 9, 255],
   [0, 1, 2, 255, 3, 4, 5, 6, 7, 255, 255, 255, 8, 9, 10, 255],
   [0, 1, 2, 3, 4, 5, 6, 7, 8, 255, 255, 255, 9, 10, 11, 255],
   [0, 255, 255, 255, 1, 255, 255, 255, 2, 3, 255, 255, 4, 5, 6, 255],
   [0, 1, 255, 255, 2, 255, 255, 255, 3, 4, 255, 255, 5, 6, 7, 255],
   [0, 1, 2, 255, 3, 255, 255, 255, 4, 5, 255, 255, 6, 7, 8, 255],
   [0, 1, 2, 3, 4, 255, 255, 255, 5, 6, 255, 255, 7, 8, 9, 255],
   [0, 255, 255, 255, 1, 2, 255, 255, 3, 4, 255, 255, 5, 6, 7, 255],
   [0, 1, 255, 255, 2, 3, 255, 255, 4, 5, 255, 255, 6, 7, 8, 255],
   [0, 1, 2, 255, 3, 4, 255, 255, 5, 6, 255, 255, 7, 8, 9, 255],
   [0, 1, 2, 3, 4, 5, 255, 255, 6, 7, 255, 255, 8, 9, 10, 255],
   [0, 255, 255, 255, 1, 2, 3, 255, 4, 5, 255, 255, 6, 7, 8, 255],
   [0, 1, 255, 255, 2, 3, 4, 255, 5, 6, 255, 255, 7, 8, 9, 255],
   [0, 1, 2, 255, 3, 4, 5, 255, 6, 7, 255, 255, 8, 9, 10, 255],
   [0, 1, 2, 3, 4, 5, 6, 255, 7, 8, 255, 255, 9, 10, 11, 255],
   [0, 255, 255, 255, 1, 2, 3, 4, 5, 6, 255, 255, 7, 8, 9, 255],
   [0, 1, 255, 255, 2, 3, 4, 5, 6, 7, 255, 255, 8, 9, 10, 255],
   [0, 1, 2, 255, 3, 4, 5, 6, 7, 8, 255, 255, 9, 10, 11, 255],
   [0, 1, 2, 3, 4, 5, 6, 7, 8, 9, 255, 255, 10, 11, 12, 255],
   [0, 255, 255, 255, 1, 255, 255, 255, 2, 3, 4, 255, 5, 6, 7, 255],
   [0, 1, 255, 255, 2, 255, 255, 255, 3, 4, 5, 255, 6, 7, 8, 255],
   [0, 1, 2, 255, 3, 255, 255, 255, 4, 5, 6, 255, 7, 8, 9, 255],
   [0, 1, 2, 3, 4, 255, 255, 255, 5, 6, 7, 255, 8, 9, 10, 255],
   [0, 255, 255, 255, 1, 2, 255, 255, 3, 4, 5, 255, 6, 7, 8, 255],
   [0, 1, 255, 255, 2, 3, 255, 255, 4, 5, 6, 255, 7, 8, 9, 255],
   [0, 1, 2, 255, 3, 4, 255, 255, 5, 6, 7, 255, 8, 9, 10, 255],
   [0, 1, 2, 3, 4, 5, 255, 255, 6, 7, 8, 255, 9, 10, 11, 255],
   [0, 255, 255, 255, 1, 2, 3, 255, 4, 5, 6, 255, 7, 8, 9, 255],
   [0, 1, 255, 255, 2, 3, 4, 255, 5, 6, 7, 255, 8, 9, 10, 255],
   [0, 1, 2, 255, 3, 4, 5, 255, 6, 7, 8, 255, 9, 10, 11, 255],
   [0, 1, 2, 3, 4, 5, 6, 255, 7, 8, 9, 255, 10, 11, 12, 255],
   [0, 255, 255, 255, 1, 2, 3, 4, 5, 6, 7, 255, 8, 9, 10, 255],
   [0, 1, 255, 255, 2, 3, 4, 5, 6, 7, 8, 255, 9, 10, 11, 255],
   [0, 1, 2, 255, 3, 4, 5, 6, 7, 8, 9, 255, 10, 11, 12, 255],
   [0, 1, 2, 3, 4, 5, 6, 7, 8, 9, 10, 255, 11, 12, 13, 255],
   [0, 255, 255, 255, 1, 255, 255, 255, 2, 3, 4, 5, 6, 7, 8, 255],
   [0, 1, 255, 255, 2, 255, 255, 255, 3, 4, 5, 6, 7, 8, 9, 255],
   [0, 1, 2, 255, 3, 255, 255, 255, 4, 5, 6, 7, 8, 9, 10, 255],
   [0, 1, 2, 3, 4, 255, 255, 255, 5, 6, 7, 8, 9, 10, 11, 255],
   [0, 255, 255, 255, 1, 2, 255, 255, 3, 4, 5, 6, 7, 8, 9, 255],
   [0, 1, 255, 255, 2, 3, 255, 255, 4, 5, 6, 7, 8, 9, 10, 255],
   [0, 1, 2, 255, 3, 4, 255, 255, 5, 6, 7, 8, 9, 10, 11, 255],
   [0, 1, 2, 3, 4, 5, 255, 255, 6, 7, 8, 9, 10, 11, 12, 255],
   [0, 255, 255, 255, 1, 2, 3, 255, 4, 5, 6, 7, 8, 9, 10, 255],
   [0, 1, 255, 255, 2, 3, 4, 255, 5, 6, 7, 8, 9, 10, 11, 255],
   [0, 1, 2, 255, 3, 4, 5, 255, 6, 7, 8, 9, 10, 11, 12, 255],
   [0, 1, 2, 3, 4, 5, 6, 255, 7, 8, 9, 10, 11, 12, 13, 255],
   [0, 255, 255, 255, 1, 2, 3, 4, 5, 6, 7, 8, 9, 10, 11, 255],
   [0, 1, 255, 255, 2, 3, 4, 5, 6, 7, 8, 9, 10, 11, 12, 255],
   [0, 1, 2, 255, 3, 4, 5, 6, 7, 8, 9, 10, 11, 12, 13, 255],
   [0, 1, 2, 3, 4, 5, 6, 7, 8, 9, 10, 11, 12, 13, 14, 255]]

def shuffleRows3 : List (List Nat) :=
  [[0, 255, 255, 255, 1, 255, 255, 255, 2, 255, 255, 255, 3, 4, 5, 6],
   [0, 1, 255, 255, 2, 255, 255, 255, 3, 255, 255, 255, 4, 5, 6, 7],
   [0, 1, 2, 255, 3, 255, 255, 255, 4, 255, 255, 255, 5, 6, 7, 8],
   [0, 1, 2, 3, 4, 255, 255, 255, 5, 255, 255, 255, 6, 7, 8, 9],
   [0, 255, 255, 255, 1, 2, 255, 255, 3, 255, 255, 255, 4, 5, 6, 7],
   [0, 1, 255, 255, 2, 3, 255, 255, 4, 255, 255, 255, 5, 6, 7, 8],
   [0, 1, 2, 255, 3, 4, 255, 255, 5, 255, 255, 255, 6, 7, 8, 9],
   [0, 1, 2, 3, 4, 5, 255, 255, 6, 255, 255, 255, 7, 8, 9, 10],
   [0, 255, 255, 255, 1, 2, 3, 255, 4, 255, 255, 255, 5, 6, 7, 8],
   [0, 1, 255, 255, 2, 3, 4, 255, 5, 255, 255, 255, 6, 7, 8, 9],
   [0, 1, 2, 255, 3, 4, 5, 255, 6, 255, 255, 255, 7, 8, 9, 10],
   [0, 1, 2, 3, 4, 5, 6, 255, 7, 255, 255, 255, 8, 9, 10, 11],
   [0, 255, 255, 255, 1, 2, 3, 4, 5, 255, 255, 255, 6, 7, 8, 9],
   [0, 1, 255, 255, 2, 3, 4, 5, 6, 255, 255, 255, 7, 8, 9, 10],
   [0, 1, 2, 255, 3, 4, 5, 6, 7, 255, 255, 255, 8, 9, 10, 11],
   [0, 1, 2, 3, 4, 5, 6, 7, 8, 255, 255, 255, 9, 10, 11, 12],
   [0, 255, 255, 255, 1, 255, 255, 255, 2, 3, 255, 255, 4, 5, 6, 7],
   [0, 1, 255, 255, 2, 255, 255, 255, 3, 4, 255, 255, 5, 6, 7, 8],
   [0, 1, 2, 255, 3, 255, 255, 255, 4, 5, 255, 255, 6, 7, 8, 9],
   [0, 1, 2, 3, 4, 255, 255, 255, 5, 6, 255, 255, 7, 8, 9, 10],
   [0, 255, 255, 255, 1, 2, 255, 255, 3, 4, 255, 255, 5, 6, 7, 8],
   [0, 1, 255, 255, 2, 3, 255, 255, 4, 5, 255, 255, 6, 7, 8, 9],
   [0, 1, 2, 255, 3, 4, 255, 255, 5, 6, 255, 255, 7, 8, 9, 10],
   [0, 1, 2, 3, 4, 5, 255, 255, 6, 7, 255, 255, 8, 9, 10, 11],
   [0, 255, 255, 255, 1, 2, 3, 255, 4, 5, 255, 255, 6, 7, 8, 9],
   [0, 1, 255, 255, 2, 3, 4, 255, 5, 6, 255, 255, 7, 8, 9, 10],
   [0, 1, 2, 255, 3, 4, 5, 255, 6, 7, 255, 255, 8, 9, 10, 11],
   [0, 1, 2, 3, 4, 5, 6, 255, 7, 8, 255, 255, 9, 10, 11, 12],
   [0, 255, 255, 255, 1, 2, 3, 4, 5, 6, 255, 255, 7, 8, 9, 10],
   [0, 1, 255, 255, 2, 3, 4, 5, 6, 7, 255, 255, 8, 9, 10, 11],
   [0, 1, 2, 255, 3, 4, 5, 6, 7, 8, 255, 255, 9, 10, 11, 12],
   [0, 1, 2, 3, 4, 5, 6, 7, 8, 9, 255, 255, 10, 11, 12, 13],
   [0, 255, 255, 255, 1, 255, 255, 255, 2, 3, 4, 255, 5, 6, 7, 8],
   [0, 1, 255, 255, 2, 255, 255, 255, 3, 4, 5, 255, 6, 7, 8, 9],
   [0, 1, 2, 255, 3, 255, 255, 255, 4, 5, 6, 255, 7, 8, 9, 10],
   [0, 1, 2, 3, 4, 255, 255, 255, 5, 6, 7, 255, 8, 9, 10, 11],
   [0, 255, 255, 255, 1, 2, 255, 255, 3, 4, 5, 255, 6, 7, 8, 9],
   [0, 1, 255, 255, 2, 3, 255, 255, 4, 5, 6, 255, 7, 8, 9, 10],
   [0, 1, 2, 255, 3, 4, 255, 255, 5, 6, 7, 255, 8, 9, 10, 11],
   [0, 1, 2, 3, 4, 5, 255, 255, 6, 7, 8, 255, 9, 10, 11, 12],
   [0, 255, 255, 255, 1, 2, 3, 255, 4, 5, 6, 255, 7, 8, 9, 10],
   [0, 1, 255, 255, 2, 3, 4, 255, 5, 6, 7, 255, 8, 9, 10, 11],
   [0, 1, 2, 255, 3, 4, 5, 255, 6, 7, 8, 255, 9, 10, 11, 12],
   [0, 1, 2, 3, 4, 5, 6, 255, 7, 8, 9, 255, 10, 11, 12, 13],
   [0, 255, 255, 255, 1, 2, 3, 4, 5, 6, 7, 255, 8, 9, 10, 11],
   [0, 1, 255, 255, 2, 3, 4, 5, 6, 7, 8, 255, 9, 10, 11, 12],
   [0, 1, 2, 255, 3, 4, 5, 6, 7, 8, 9, 255, 10, 11, 12, 13],
   [0, 1, 2, 3, 4, 5, 6, 7, 8, 9, 10, 255, 11, 12, 13, 14],
   [0, 255, 255, 255, 1, 255, 255, 255, 2, 3, 4, 5, 6, 7, 8, 9],
   [0, 1, 255, 255, 2, 255, 255, 255, 3, 4, 5, 6, 7, 8, 9, 10],
   [0, 1, 2, 255, 3, 255, 255, 255, 4, 5, 6, 7, 8, 9, 10, 11],
   [0, 1, 2, 3, 4, 255, 255, 255, 5, 6, 7, 8, 9, 10, 11, 12],
   [0, 255, 255, 255, 1, 2, 255, 255, 3, 4, 5, 6, 7, 8, 9, 10],
   [0, 1, 255, 255, 2, 3, 255, 255, 4, 5, 6, 7, 8, 9, 10, 11],
   [0, 1, 2, 255, 3, 4, 255, 255, 5, 6, 7, 8, 9, 10, 11, 12],
   [0, 1, 2, 3, 4, 5, 255, 255, 6, 7, 8, 9, 10, 11, 12, 13],
   [0, 255, 255, 255, 1, 2, 3, 255, 4, 5, 6, 7, 8, 9, 10, 11],
   [0, 1, 255, 255, 2, 3, 4, 255, 5, 6, 7, 8, 9, 10, 11, 12],
   [0, 1, 2, 255, 3, 4, 5, 255, 6, 7, 8, 9, 10, 11, 12, 13],
   [0, 1, 2, 3, 4, 5, 6, 255, 7, 8, 9, 10, 11, 12, 13, 14],
   [0, 255, 255, 255, 1, 2, 3, 4, 5, 6, 7, 8, 9, 10, 11, 12],
   [0, 1, 255, 255, 2, 3, 4, 5, 6, 7, 8, 9, 10, 11, 12, 13],
   [0, 1, 2, 255, 3, 4, 5, 6, 7, 8, 9, 10, 11, 12, 13, 14],
   [0, 1, 2, 3, 4, 5, 6, 7, 8, 9, 10, 11, 12, 13, 14, 15]]

/-- `shuffleTable[256][16]`. -/
def shuffleTable : List (List Nat) :=
  shuffleRows0 ++ shuffleRows1 ++ shuffleRows2 ++ shuffleRows3

theorem lengthTable_eq {control : Nat} (h : control < 256) :
    lengthTable.getD control 0 = laneStart control 4 := by
  have key : lengthTable = (List.range 256).map fun control => laneStart control 4 := by
    decide +kernel
  rw [key, List.getD_eq_getElem _ _ (by simpa using h)]
  simp

theorem shuffleTable_eq {control j b : Nat} (h : control < 256) (hj : j < 4) (hb : b < 4) :
    (shuffleTable.getD control []).getD (4 * j + b) 0 =
      if b ≤ codeAt control j then laneStart control j + b else 255 := by
  have key : shuffleTable = (List.range 256).map fun control => (List.range 16).map fun k =>
      if k % 4 ≤ codeAt control (k / 4) then laneStart control (k / 4) + k % 4 else 255 := by
    decide +kernel
  have hrow : shuffleTable.getD control [] = (List.range 16).map fun k =>
      if k % 4 ≤ codeAt control (k / 4) then laneStart control (k / 4) + k % 4 else 255 := by
    rw [key, List.getD_eq_getElem _ _ (by simpa using h)]
    simp only [List.getElem_map, List.getElem_range]
  rw [hrow, List.getD_eq_getElem _ _ (by simp; omega)]
  simp only [List.getElem_map, List.getElem_range]
  rw [show (4 * j + b) % 4 = b by omega, show (4 * j + b) / 4 = j by omega]

/-- No entry but 255 has its top bit set, and the others stay inside 16 bytes. -/
theorem laneStart_lt {control j b : Nat} (hj : j < 4) (hb : b ≤ codeAt control j) :
    laneStart control j + b < 16 := by
  have hstart := laneStart_le control j
  have hcode := codeAt_lt control j
  omega

end DeltaSIMDCodec

end Vend
