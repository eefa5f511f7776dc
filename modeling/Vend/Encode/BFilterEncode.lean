import Vend.Encode.CBFilterEncode

/-! # Bloom filters over the whole graph

    `encode/bfilter/bfilter_encode.h` with its two plain filters: `BFilterBitEncode`,
    one bitset for all edges, and `BFilterIntEncode`, an array of `uint32_t` counters.
    `best_hash_nums_` comes from a floating-point quotient and is a parameter.
-/

namespace Vend

namespace BFilterEncode

/-- `Hash(key1, key2, hash_param1, hash_param2)`. -/
def hash (hashSize key1 key2 hashParam1 hashParam2 : Nat) : Nat :=
  (key1 * hashParam1 + key2 * hashParam2) % 2 ^ 64 % hashSize

/-- The values of `Hash` in the loop over `best_hash_nums_`, the smaller id first. -/
def hashVals (hashSize bestHashNums vertex1 vertex2 : Nat) : List Nat :=
  let pair := CBFilterEncode.ordered vertex1 vertex2
  (List.range bestHashNums).map fun i => hash hashSize pair.1 pair.2
    (CBFilterEncode.hashParam1.getD i 0) (CBFilterEncode.hashParam2.getD i 0)

end BFilterEncode

namespace BFilterBitEncode

open BFilterEncode

/-- `hash_size_`. -/
def hashSize (c : Config) : Nat := c.vertexSize * c.kSize * 32 % 2 ^ 64

/-- A fresh filter. -/
def fresh (c : Config) : BitSetSIMD := BitSetSIMD.ofBitSize (hashSize c)

/-- `EdgeSet(vertex1, vertex2)`. -/
def edgeSet (c : Config) (bestHashNums : Nat) (encode : BitSetSIMD) (vertex1 vertex2 : Nat) :
    BitSetSIMD :=
  (hashVals (hashSize c) bestHashNums vertex1 vertex2).foldl BitSetSIMD.setOne encode

/-- `InsertPair(vertex1, vertex2)`. -/
def insertPair (c : Config) (bestHashNums : Nat) (encode : BitSetSIMD) (vertex1 vertex2 : Nat) :
    BitSetSIMD :=
  edgeSet c bestHashNums encode vertex1 vertex2

/-- `NEpairTest(vertex1, vertex2)`. -/
def nePairTest (c : Config) (bestHashNums : Nat) (encode : BitSetSIMD) (vertex1 vertex2 : Nat) :
    PairType :=
  if (hashVals (hashSize c) bestHashNums vertex1 vertex2).any fun hashVal =>
    !encode.isOne hashVal then .nonNeighbor
  else .uncertain

end BFilterBitEncode

namespace BFilterIntEncode

open BFilterEncode

/-- `hash_size_`. -/
def hashSize (c : Config) : Nat := c.vertexSize * c.kSize % 2 ^ 64

/-- A fresh filter: all counters are zero. -/
def fresh (c : Config) : List Nat := List.replicate (hashSize c) 0

/-- `EdgeSet(vertex1, vertex2)`. -/
def edgeSet (c : Config) (bestHashNums : Nat) (encode : List Nat) (vertex1 vertex2 : Nat) :
    List Nat :=
  (hashVals (hashSize c) bestHashNums vertex1 vertex2).foldl (fun encode hashVal =>
    encode.set hashVal ((encode.getD hashVal 0 + 1) % 2 ^ 32)) encode

/-- `NEpairTest(vertex1, vertex2)`. -/
def nePairTest (c : Config) (bestHashNums : Nat) (encode : List Nat) (vertex1 vertex2 : Nat) :
    PairType :=
  if (hashVals (hashSize c) bestHashNums vertex1 vertex2).any fun hashVal =>
    encode.getD hashVal 0 = 0 then .nonNeighbor
  else .uncertain

/-- `DeletePair(vertex1, vertex2)`: the value of `Hash` is kept in a `uint32_t`. -/
def deletePair (c : Config) (bestHashNums : Nat) (encode : List Nat) (vertex1 vertex2 : Nat) :
    List Nat :=
  (hashVals (hashSize c) bestHashNums vertex1 vertex2).foldl (fun encode hash =>
    let hashVal := hash % 2 ^ 32
    if 0 < encode.getD hashVal 0 then encode.set hashVal (encode.getD hashVal 0 - 1)
    else encode) encode

end BFilterIntEncode

end Vend
