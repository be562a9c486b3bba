import DistGraph.Edge.Record
import DistGraph.Program.Payload

/-! The types of the items that ranks exchange to make a graph. -/

namespace DistGraph

/-- The types of the items that ranks exchange. -/
inductive Wire where
  /-- A single byte. -/
  | byte
  /-- A word. -/
  | word
  /-- A number of items. -/
  | count
  /-- A vertex id. -/
  | vertex
  /-- A vertex with a part of its degree. -/
  | degree
  /-- The answer to a question for an id. -/
  | reply
  /-- The record of an edge. -/
  | record
  deriving DecidableEq, Inhabited

/-- The items of a type. -/
abbrev Wire.Value : Wire → Type
  -- Vertices are words of their own type.
  | .byte => UInt8
  | .word => UInt64
  | .count => Int32
  | .vertex => VertexId
  | .degree => DegreeShare
  | .reply => IdReply
  | .record => EdgeRecord

/-- The item a buffer is filled with before anything is received. -/
def Wire.empty : (wire : Wire) → wire.Value
  -- Every field of it is zero.
  | .byte => 0
  | .word => 0
  | .count => 0
  | .vertex => 0
  | .degree => ⟨0, 0⟩
  | .reply => .missing
  | .record => .blank

/-- The number of bytes an item takes in a buffer. -/
def Wire.bytes : Wire → Nat
  -- Fields are padded to their alignment.
  | .byte => 1
  | .word => 8
  | .count => 4
  | .vertex => 8
  | .degree => 16
  | .reply => 16
  | .record => 56

/-- These are the types of items that graphs are made with. -/
instance : Payloads where
  Tag := Wire
  decEq := inferInstance
  Value := Wire.Value
  empty := Wire.empty
  bytes := Wire.bytes
  bytes_le wire := by cases wire <;> decide

end DistGraph
