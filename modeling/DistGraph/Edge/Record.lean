import DistGraph.Edge

/-! The flat form of an edge in which it is exchanged, with the place it came from. -/

namespace DistGraph

/-- An edge in fixed form, its presence bits telling which attributes it carries. -/
structure EdgeRecord where
  /-- The vertex the edge leaves. -/
  src : VertexId
  /-- The vertex the edge enters. -/
  dst : VertexId
  /-- The weight, and zero if there is none. -/
  weight : Weight
  /-- The id of the edge, and zero if there is none. -/
  edgeId : UInt64
  /-- The kind of the edge, and zero if there is none. -/
  edgeKind : Int32
  /-- One presence bit each for weight, id and kind. -/
  flags : UInt8
  /-- The rank on which the edge was handed in. -/
  originRank : UInt32
  /-- The position of the edge among those handed in there. -/
  originSeq : UInt64
  deriving DecidableEq, Inhabited

/-- What records are sorted by. -/
structure SortKey where
  /-- The endpoint that rows are grouped by. -/
  major : VertexId
  /-- The other endpoint. -/
  minor : VertexId
  /-- The rank on which the edge was handed in. -/
  originRank : UInt32
  /-- The position of the edge among those handed in there. -/
  originSeq : UInt64
  deriving DecidableEq, Inhabited

/-- How two sort keys compare. -/
def SortKey.compare (left right : SortKey) : Ordering :=
  -- The first field that differs decides.
  (Ord.compare left.major right.major).then <|
  (Ord.compare left.minor right.minor).then <|
  (Ord.compare left.originRank right.originRank).then <|
  Ord.compare left.originSeq right.originSeq

namespace EdgeRecord

/-- The presence bit of the weight. -/
def weightFlag : UInt8 := 1

/-- The presence bit of the id. -/
def idFlag : UInt8 := 2

/-- The presence bit of the kind. -/
def kindFlag : UInt8 := 4

/-- The record of no edge, with every field zero. -/
def blank : EdgeRecord := ⟨0, 0, .zero, 0, 0, 0, 0, 0⟩

/-- The record of an edge that was handed in at a given place. -/
def ofEdge (edge : Edge) (originRank : Nat) (originSeq : UInt64) : EdgeRecord where
  src := edge.src
  dst := edge.dst
  weight := edge.weight.getD .zero
  edgeId := edge.id.getD 0
  edgeKind := edge.kind.getD 0
  flags :=
    -- Absent attributes leave both their bit and their field clear.
    (if edge.weight.isSome then weightFlag else 0) |||
    (if edge.id.isSome then idFlag else 0) |||
    (if edge.kind.isSome then kindFlag else 0)
  originRank := UInt32.ofNat originRank
  originSeq := originSeq

/-- The records of edges that are handed in on a rank, in their order there. -/
def ofEdges (rank : Nat) (edges : List Edge) : List EdgeRecord :=
  -- Positions tell the edges of one rank apart.
  edges.zipIdx.map fun (edge, seq) => ofEdge edge rank (UInt64.ofNat seq)

/-- Whether a presence bit is set. -/
def has (record : EdgeRecord) (flag : UInt8) : Bool :=
  -- Other bits do not matter.
  record.flags &&& flag != 0

/-- The weight of a record, if it has one. -/
def weight? (record : EdgeRecord) : Option Weight :=
  -- The field counts only under its presence bit.
  if record.has weightFlag then some record.weight else none

/-- The id of a record, if it has one. -/
def id? (record : EdgeRecord) : Option UInt64 :=
  -- The field counts only under its presence bit.
  if record.has idFlag then some record.edgeId else none

/-- The kind of a record, if it has one. -/
def kind? (record : EdgeRecord) : Option Int32 :=
  -- The field counts only under its presence bit.
  if record.has kindFlag then some record.edgeKind else none

/-- The edge a record stands for. -/
def toEdge (record : EdgeRecord) : Edge :=
  -- The place of origin is not part of the edge.
  ⟨record.src, record.dst, record.weight?, record.id?, record.kind?⟩

/-- The record with another weight, or with none. -/
def withWeight (record : EdgeRecord) : Option Weight → EdgeRecord
  -- Taking the weight away clears its field together with its bit.
  | some weight => { record with weight := weight, flags := record.flags ||| weightFlag }
  | none => { record with weight := .zero, flags := record.flags &&& ~~~weightFlag }

/-- The record of the edge in the other direction. -/
def reversed (record : EdgeRecord) : EdgeRecord :=
  -- Attributes and origin stay as they are.
  { record with src := record.dst, dst := record.src }

/-- Whether a record leaves and enters the same vertex. -/
def isSelfLoop (record : EdgeRecord) : Bool :=
  -- Only the endpoints matter.
  record.src == record.dst

/-- The endpoint a record is placed and grouped by. -/
def major (record : EdgeRecord) (transposed : Bool) : VertexId :=
  -- Transposed storage groups by destination.
  if transposed then record.dst else record.src

/-- The endpoint a record is not grouped by. -/
def minor (record : EdgeRecord) (transposed : Bool) : VertexId :=
  -- The two endpoints trade places with the orientation.
  if transposed then record.src else record.dst

/-- What a record is sorted by in a given orientation. -/
def sortKey (record : EdgeRecord) (transposed : Bool) : SortKey :=
  -- Endpoints come first, then the order in which the edges were handed in.
  ⟨record.major transposed, record.minor transposed, record.originRank, record.originSeq⟩

/-- A change that can be made to a record by itself. -/
inductive Change where
  /-- Give it another weight, or none. -/
  | weight (weight : Option Weight)
  /-- Turn it around. -/
  | reverse
  /-- Turn its edge around and make a record of that edge, handed in at the same place. -/
  | reverseEdge
  /-- Replace it by the record of no edge. -/
  | clear

/-- The record after a change. -/
def change (record : EdgeRecord) : Change → EdgeRecord
  -- Going through the edge and back keeps only what the presence bits vouch for.
  | .weight weight => record.withWeight weight
  | .reverse => record.reversed
  | .reverseEdge => ofEdge record.toEdge.reversed record.originRank.toNat record.originSeq
  | .clear => blank

/-- A record followed by its states after each of a list of changes. -/
def history (record : EdgeRecord) : List Change → List EdgeRecord
  -- Every change starts from the state the one before it left.
  | [] => [record]
  | first :: later => record :: history (record.change first) later

end EdgeRecord

end DistGraph
