import DistGraph.Error

/-! What travels between ranks, whatever the types of the items are. -/

namespace DistGraph

/-- A family of types whose items ranks can exchange. -/
class Payloads where
  /-- What tells the types of the family apart. -/
  Tag : Type
  /-- Two types are the same or they are not. -/
  decEq : DecidableEq Tag
  /-- The items of a type. -/
  Value : Tag → Type
  /-- The item a buffer is filled with before anything is received. -/
  empty : (tag : Tag) → Value tag
  /-- The number of bytes an item takes in a buffer. -/
  bytes : Tag → Nat
  /-- As many items as can be counted are not more than a buffer can ever hold. -/
  bytes_le : ∀ tag, bytes tag ≤ UInt32.size

attribute [reducible] Payloads.Value

variable [Payloads]

instance : DecidableEq Payloads.Tag := Payloads.decEq

/-- Buffers are filled with items that say nothing. -/
instance (tag : Payloads.Tag) : Inhabited (Payloads.Value tag) := ⟨Payloads.empty tag⟩

/-- A collective together with the type of its items. -/
inductive Call where
  /-- A count for every rank. -/
  | counts
  /-- A block of items for every rank. -/
  | blocks (tag : Payloads.Tag)
  /-- One item, the same for every rank. -/
  | gather (tag : Payloads.Tag)
  deriving DecidableEq, Inhabited

/-- The collective of a call. -/
def Call.collective : Call → Collective
  -- Calls differ from their collectives by the type of the items alone.
  | .counts => .allToAll
  | .blocks _ => .allToAllV
  | .gather _ => .allGather

/-- What a call sends to one rank. -/
abbrev Call.Item : Call → Type
  -- A block is sent as a whole.
  | .counts => Int32
  | .blocks tag => List (Payloads.Value tag)
  | .gather tag => Payloads.Value tag

/-- A message from one rank to another. -/
structure Parcel where
  /-- How many collectives its sender had issued before. -/
  seq : Nat
  /-- The call it belongs to. -/
  call : Call
  /-- What it carries. -/
  item : call.Item

/-- Opens a parcel from a peer, which has to belong to the same collective and items. -/
def Parcel.accept (parcel : Parcel) (peer seq : Nat) (call : Call) :
    Except ExchangeError call.Item :=
  -- A different collective is told before a different type of items.
  if parcel.seq ≠ seq ∨ parcel.call.collective ≠ call.collective then
    .error (.otherCollective peer call.collective seq parcel.call.collective parcel.seq)
  else if same : parcel.call = call then .ok (same ▸ parcel.item)
  else .error (.otherItems peer)

end DistGraph
