import DistGraph.Defect
import DistGraph.Outcome
import DistGraph.Vertex
import DistGraph.Weight

/-! What can go wrong between ranks and in a construction, and how it is worded. -/

namespace DistGraph

/-- The shapes of communication that all ranks take part in together. -/
inductive Collective where
  /-- One count from every rank to every rank. -/
  | allToAll
  /-- A block of any length from every rank to every rank. -/
  | allToAllV
  /-- One value from every rank, the same to all. -/
  | allGather
  deriving DecidableEq, Inhabited

/-- The name of a collective. -/
def Collective.name : Collective → String
  -- Names are written in one word.
  | .allToAll => "AllToAll"
  | .allToAllV => "AllToAllV"
  | .allGather => "AllGather"

/-- A matter on which ranks turn out to disagree. -/
inductive Divergence where
  /-- The options of a construction. -/
  | options
  /-- The rank that owns a vertex, seen by a rank that received a foreign edge. -/
  | ownership (vertex : VertexId)
  /-- The rank that keeps the number of a vertex. -/
  | numbering (vertex : VertexId)
  /-- The number of vertices of the constructed graph. -/
  | vertexCount
  /-- A matter put into words by the caller. -/
  | stated (text : String)
  deriving DecidableEq

/-- The wording of a divergence. -/
def Divergence.message : Divergence → String
  -- A stated matter is repeated as it is.
  | .options => "construction options"
  | .ownership vertex => s!"ownership of vertex {vertex}"
  | .numbering vertex => s!"owner of vertex {vertex}"
  | .vertexCount => "the number of vertices"
  | .stated text => text

/-- A failure of communication between ranks, after which they cannot get back into step. -/
inductive ExchangeError where
  /-- A rank has left. -/
  | peerLeft (peer : Nat)
  /-- A rank takes part in another collective than this one. -/
  | otherCollective (peer : Nat) (expected : Collective) (expectedSeq : Nat)
      (found : Collective) (foundSeq : Nat)
  /-- A rank sends items of another type. -/
  | otherItems (peer : Nat)
  /-- A rank sends another number of items than it announced. -/
  | otherLength (peer expected actual : Nat)
  /-- A list that needs one entry per rank has another length. -/
  | listLength (expected actual : Nat)
  /-- The ranks disagree. -/
  | disagreement (matter : Divergence)
  deriving DecidableEq

/-- The wording of a failure of communication. -/
def ExchangeError.message : ExchangeError → String
  -- A wording that concerns one rank names that rank first.
  | .peerLeft peer => s!"rank {peer} left the communicator"
  | .otherCollective peer expected expectedSeq found foundSeq =>
    s!"rank {peer} issued {found.name} as collective #{foundSeq} while " ++
      s!"{expected.name} #{expectedSeq} was expected"
  | .otherItems peer => s!"rank {peer} sent a payload of an unexpected type"
  | .otherLength peer expected actual =>
    s!"rank {peer} sent {actual} items but {expected} were announced"
  | .listLength expected actual =>
    s!"buffer describes {actual} ranks but the communicator has {expected}"
  | .disagreement matter => s!"ranks disagree on {matter.message}"

/-- A reason to reject what a rank was given. -/
inductive InputFault where
  /-- A vertex is not below the vertex count. -/
  | vertexOutside (vertex : VertexId) (vertexCount : UInt64)
  /-- No vertex count lies above an id. -/
  | idTooLarge (vertex : VertexId)
  /-- The weight of an edge is not a finite number. -/
  | weightNotFinite (src dst : VertexId) (weight : Weight)
  /-- The vertex lists of all ranks name a vertex twice. -/
  | listedTwice (vertex : VertexId)
  /-- No vertex list names an endpoint of an edge. -/
  | endpointNotListed (vertex : VertexId)
  /-- Another rank rejected what it was given. -/
  | rejectedBy (rank : Nat)
  /-- Edges meant for compressed rows are out of order. -/
  | unsortedRows (vertices : Span) (row slot : Nat)
  /-- A reason put into words by the caller. -/
  | stated (text : String)
  deriving DecidableEq

/-- The text of a present weight that is not finite. -/
def Weight.describe (weight : Weight) : String :=
  -- Only the sign bit tells the infinities apart.
  if weight.isNaN then "Some(NaN)"
  else if weight.bits >>> 63 = 0 then "Some(inf)" else "Some(-inf)"

/-- The wording of a rejection. -/
def InputFault.message : InputFault → String
  -- Vertices are written in decimal, and spans with their stop excluded.
  | .vertexOutside vertex vertexCount => s!"vertex {vertex} outside of [0, {vertexCount})"
  | .idTooLarge vertex => s!"vertex id {vertex} is too large"
  | .weightNotFinite src dst weight => s!"edge ({src}, {dst}) has weight {weight.describe}"
  | .listedTwice vertex => s!"vertex {vertex} is listed more than once"
  | .endpointNotListed vertex => s!"edge endpoint {vertex} is not in the vertex list"
  | .rejectedBy rank => s!"rank {rank} rejected its input"
  | .unsortedRows vertices row slot =>
    s!"edges of vertices {vertices.render} are not sorted: " ++
      s!"EdgesNotSorted \x7b first_error: ({row}, {slot}) \x7d"
  | .stated text => text

/-- A failure of an operation on a distributed graph. -/
inductive OperationError where
  /-- What a rank was given is rejected. -/
  | rejectedInput (fault : InputFault)
  /-- The ranks did not take part alike. -/
  | protocolBroken (error : ExchangeError)
  /-- A buffer does not fit into the memory it may take. -/
  | outOfMemory (requested available : Nat)
  /-- An id is not known where it was looked up. -/
  | unknownId (vertex : VertexId)
  deriving DecidableEq

/-- The wording of a failure on a distributed graph. -/
def OperationError.message : OperationError → String
  -- Memory is counted in bytes.
  | .rejectedInput fault => s!"invalid input: {fault.message}"
  | .protocolBroken error => s!"protocol violation: {error.message}"
  | .outOfMemory requested available =>
    s!"cannot allocate {requested} bytes, {available} bytes available"
  | .unknownId vertex => s!"vertex id {vertex} was never observed"

/-- Whatever ends the work of a rank. -/
inductive Failure where
  /-- Communication failed. -/
  | comm (error : ExchangeError)
  /-- An operation on the graph failed. -/
  | graph (error : OperationError)
  /-- The rank broke a rule that callers have to keep. -/
  | defect (defect : Defect)
  deriving DecidableEq

namespace Failure

/-- The failure of rejected input. -/
def rejected (fault : InputFault) : Failure := .graph (.rejectedInput fault)

/-- The failure of ranks that disagree in the middle of an operation on the graph. -/
def diverged (matter : Divergence) : Failure := .graph (.protocolBroken (.disagreement matter))

/-- The wording of a failure. -/
def message : Failure → String
  -- Most defects are not put into words.
  | .comm error => error.message
  | .graph error => error.message
  | .defect broken => broken.message?.getD ""

/-- A computation whose defects end the work of its rank. -/
def ofDefect {α : Type} (computed : Except Defect α) : Except Failure α :=
  -- A defect is not turned into an error of communication or of the graph.
  computed.mapError .defect

/-- A result is no defect. -/
@[simp] theorem ofDefect_ok {α : Type} (value : α) : ofDefect (.ok value) = .ok value := rfl

/-- A defect ends the work as it is. -/
@[simp] theorem ofDefect_error {α : Type} (defect : Defect) :
    (ofDefect (.error defect) : Except Failure α) = .error (.defect defect) := rfl

/-- Telling defects makes no results either. -/
@[simp] theorem ofDefect_eq_ok_iff {α : Type} {computed : Except Defect α} {result : α} :
    ofDefect computed = .ok result ↔ computed = .ok result :=
  mapError_eq_ok_iff

/-- A failure as an operation on the graph reports it. -/
def ofGraph : Failure → Failure
  -- Failed communication breaks the protocol of the operation; the rest is reported as it is.
  | .comm error => .graph (.protocolBroken error)
  | .graph error => .graph error
  | .defect broken => .defect broken

end Failure

end DistGraph
