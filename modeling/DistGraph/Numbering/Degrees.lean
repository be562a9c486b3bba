import DistGraph.Communicator
import DistGraph.Options
import DistGraph.Runs

/-! The vertices that edges and lists name, with the degrees that order them. -/

namespace DistGraph

variable {size : Nat}

namespace Degrees

/-- One entry per vertex, with the sum of its degrees, by ascending id. -/
def merge (sorter : Sorter) (entries : List DegreeShare) :
    Except Defect (List DegreeShare) :=
  -- Sorting makes neighbours of the entries of one vertex.
  let sorted := sorter.byVertex entries
  (runs (fun left right => left.vertex == right.vertex) sorted).mapM fun run => do
    let degree ← Word.sum ((run.1 :: run.2).map DegreeShare.degree)
    return ⟨run.1.vertex, degree⟩

/-- The two entries of an edge, which counts for its major endpoint alone. -/
def ofRecord (transposed : Bool) (record : EdgeRecord) : List DegreeShare :=
  -- The minor endpoint is named all the same.
  [⟨record.major transposed, 1⟩, ⟨record.minor transposed, 0⟩]

/-- The vertices that the edges and the list of a rank name, with their degrees on that rank. -/
def named (self : Member size) (records : List EdgeRecord) (vertices : List VertexId)
    (transposed : Bool) : Except Failure (List DegreeShare) := do
  -- A listed vertex takes part even if no edge names it.
  self.makeRoom Wire.degree.bytes (2 * records.length + vertices.length)
  let listed := vertices.map fun vertex => (⟨vertex, 0⟩ : DegreeShare)
  Failure.ofDefect (merge self.sorter (records.flatMap (ofRecord transposed) ++ listed))

/-- Entries by ascending id, put into the order of the new ids. -/
def arrange (sorter : Sorter) (order : IdOrder) (entries : List DegreeShare) :
    List DegreeShare :=
  -- The order by id is there already.
  match order with
  | .degreeDescending => sorter.byDegree entries
  | .byId => entries

end Degrees

end DistGraph
