import DistGraph.Options
import DistGraph.Runs
import DistGraph.Routing

/-! What a construction checks before it starts, on each rank and between ranks. -/

namespace DistGraph

variable {size : Nat}

namespace Construction

/-- The outcome of a check on what a rank was given. -/
abbrev Verdict := Except InputFault Unit

/-- The endpoints of edges, each edge's source before its destination. -/
def endpoints (edges : List Edge) : List VertexId :=
  -- Self-loops name their vertex twice.
  edges.flatMap fun edge => [edge.src, edge.dst]

/-- Refuses weights that are not finite. -/
def checkWeights (edges : List Edge) : Verdict :=
  -- The first edge with such a weight is reported.
  match edges.findSome? fun edge => (edge.weight.filter (!·.isFinite)).map (edge, ·) with
  | some (edge, weight) => .error (.weightNotFinite edge.src edge.dst weight)
  | none => .ok ()

/-- Refuses vertices that are not below a vertex count. -/
def checkBounds (vertexCount : Option UInt64) (named : List VertexId) : Verdict :=
  -- Without a vertex count every id is accepted here.
  match vertexCount with
  | none => .ok ()
  | some limit =>
    match named.find? (limit ≤ ·) with
    | some vertex => .error (.vertexOutside vertex limit)
    | none => .ok ()

/-- The checks that a rank can make by itself. -/
def checkOwn (edges : List Edge) (vertices : List VertexId) (options : Options) : Verdict := do
  -- Weights are checked first.
  checkWeights edges
  checkBounds options.vertexCount (endpoints edges ++ vertices)

/-- Fails on every rank if the verdict of any rank is a rejection. -/
def settle (verdict : Verdict) : Program size Failure Unit := do
  -- A rank that rejects gives its own reason; the others name the first rank that does.
  let rejected : UInt8 := match verdict with
    | .ok () => 0
    | .error _ => 1
  let flags ← (Communicator.allGather Wire.byte rejected).mapError Failure.ofGraph
  match verdict with
  | .error fault => .fail (.rejected fault)
  | .ok () =>
    match flags.toList.findIdx? (· ≠ 0) with
    | some rank => .fail (.rejected (.rejectedBy rank))
    | none => return ()

/-- Whether all values of a list are equal. -/
def allEqual (values : List UInt64) : Bool :=
  -- All of them are compared with the first.
  values.all fun value => values.head? == some value

/-- Fails on every rank if ranks were given different options. -/
def compareOptions (options : Options) : Program size Failure Unit := do
  -- Fingerprints stand for the options.
  let fingerprints ←
    (Communicator.allGather Wire.word options.fingerprint).mapError Failure.ofGraph
  if allEqual fingerprints.toList then return () else .fail (.diverged .options)

/-- The first of two equal neighbours in a list. -/
def repeated? : List VertexId → Option VertexId
  -- In sorted lists equal ids are neighbours.
  | first :: second :: rest => if first = second then some first else repeated? (second :: rest)
  | [_] | [] => none

/-- Sorted ids with neighbours that are equal reduced to one. -/
def distinct (sorted : List VertexId) : List VertexId :=
  -- One id is kept of every run of equal ones.
  (runs (fun left right => left == right) sorted).map Prod.fst

/-- Whether a sorted list holds an id. -/
def listed (sorted : Array VertexId) (vertex : VertexId) : Bool :=
  -- Entries are compared to the id that is sought.
  (Search.find? sorted.size fun i =>
    match sorted[i]? with
    | some entry => compare entry vertex
    | none => .gt).isSome

/-- The verdict on the listed vertices and the endpoints that reached a rank. -/
def checkListed (sorted endpoints : List VertexId) : Verdict :=
  -- An id that is listed twice is reported before an endpoint that is not listed.
  match repeated? sorted with
  | some vertex => .error (.listedTwice vertex)
  | none =>
    let table := sorted.toArray
    match endpoints.find? fun vertex => !listed table vertex with
    | some vertex => .error (.endpointNotListed vertex)
    | none => .ok ()

/-- The verdict on the vertex lists of all ranks, of which this rank sees the ids it owns. -/
def checkList (self : Member size) (edges : List Edge) (vertices : List VertexId) :
    Program size Failure Verdict := do
  -- Lists are checked as soon as any rank has one.
  let has : UInt64 := if vertices.isEmpty then 0 else 1
  let any ← (Communicator.allReduce .max has).mapError .ofGraph
  if any = 0 then return .ok ()
  else
    let route := fun vertex => Failure.ofDefect (homeRank vertex size)
    let named ← Routing.send self Wire.vertex route vertices
    let own := distinct (self.sorter.vertices (endpoints edges))
    let used ← Routing.send self Wire.vertex route own
    return checkListed (self.sorter.vertices named.items) used.items

/-- All checks of a construction, those between ranks only if they are asked for. -/
def checkInput (self : Member size) (edges : List Edge) (vertices : List VertexId)
    (options : Options) : Program size Failure Unit := do
  -- With the checks between ranks no rank is left behind by another one's rejection.
  let own := checkOwn edges vertices options
  if options.check then
    compareOptions options
    settle own
    settle (← checkList self edges vertices)
  else own.mapError Failure.rejected

end Construction

end DistGraph
