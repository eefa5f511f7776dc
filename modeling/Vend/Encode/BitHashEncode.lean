import Vend.Encode.Verdict

/-! # Bit-hash encoding

    `encode/single/bithash_encode.h`. The record of a vertex is a table of
    `PER_ENCODE_BIT_SIZE` bits in which every larger neighbour sets the bit of its id.
-/

namespace Vend

namespace BitHashEncode

/-- `Hash(vertex)`. -/
def hash (c : Config) (vertex : Nat) : Nat := vertex % c.perEncodeBitSize

/-- `EncodeVertex` on the record of its vertex. -/
def encodeBits (c : Config) (vertexId : Nat) (neighbors : List Nat) (encode : BitSetSIMD) :
    BitSetSIMD :=
  neighbors.foldl (fun encode v => if vertexId < v then encode.setOne (hash c v) else encode)
    encode.clear

/-- `EncodeVertex(vertex_id, neighbors)`. -/
def encodeVertex (c : Config) (vertexId : Nat) (neighbors : List Nat) (encodes : Records) :
    Records :=
  encodes.update vertexId (encodeBits c vertexId neighbors)

/-- `NonNeighborTest(vertex1, vertex2)`. -/
def nonNeighborTest (c : Config) (encodes : Records) (vertex1 vertex2 : Nat) : PairType :=
  if (encodes.record vertex1).isOne (hash c vertex2) then .uncertain else .nonNeighbor

/-- `NEpairTest(vertex1, vertex2)`. -/
def nePairTest (c : Config) (encodes : Records) (vertex1 vertex2 : Nat) : PairType :=
  if vertex1 < vertex2 then nonNeighborTest c encodes vertex1 vertex2
  else nonNeighborTest c encodes vertex2 vertex1

end BitHashEncode

end Vend
