import DistGraph.Communicator
import DistGraph.Routing.Grouping
import DistGraph.Routing.Placement

/-! Items that change ranks, and answers that go back to where they were asked for. -/

namespace DistGraph

variable {size : Nat}

namespace Routing

section Generic

variable [Payloads]

/-- Sends every rank its group and returns the groups received, in rank order. -/
def sendGroups (self : Member size) (tag : Payloads.Tag) (sent : Grouped (Payloads.Value tag)) :
    Program size Failure (Grouped (Payloads.Value tag)) := do
  -- Counts travel first, so that the buffer can be made before the items come.
  let counts ← (Communicator.allToAll sent.counts).mapError .ofGraph
  let room ← Failure.ofDefect (Count.total counts)
  self.makeRoom (Payloads.bytes tag) room.toNat
  let items ←
    (Communicator.allToAllV tag sent.items sent.counts room.toNat counts).mapError .ofGraph
  return ⟨items, counts⟩

/-- Sends every item to the rank that a destination names for it. -/
def send (self : Member size) (tag : Payloads.Tag)
    (destination : Payloads.Value tag → Except Failure Nat) (items : List (Payloads.Value tag)) :
    Program size Failure (Grouped (Payloads.Value tag)) := do
  -- Nothing is sent unless every item has a destination.
  sendGroups self tag (← Grouping.group size destination items)

/-- Sends one answer per received request back to the rank it came from. -/
def sendBack (self : Member size) (tag : Payloads.Tag) (answers : Grouped (Payloads.Value tag))
    (expected : List Int32) : Program size Failure (List (Payloads.Value tag)) := do
  -- As many answers come back as requests were sent.
  let room ← Failure.ofDefect (Count.total expected)
  self.makeRoom (Payloads.bytes tag) room.toNat
  (Communicator.allToAllV tag answers.items answers.counts room.toNat expected).mapError .ofGraph

end Generic

/-- Sends every record to the rank that a placement names for it. -/
def sendRecords (self : Member size) (placement : Placement) (records : List EdgeRecord) :
    Program size Failure (List EdgeRecord) := do
  -- Records arrive by rank of departure, and in their order there.
  let received ← send self Wire.record (placement.destination size) records
  return received.items

end Routing

end DistGraph
