import Mathlib.Data.List.Basic
import DistGraph.Adjacency.Build
import DistGraph.Proofs.Communicator
import DistGraph.Proofs.Edge.Record
import DistGraph.Proofs.Runs

/-! Segments keep nothing of records but the edges that they stand for, seen from the major endpoint. -/

namespace DistGraph

variable {size : Nat}

namespace EdgeRecord

/-- A record of the same edge that tells nothing about its origin. -/
def plain (record : EdgeRecord) : EdgeRecord :=
  -- Fields without their presence bit are cleared as well.
  ofEdge record.toEdge 0 0

/-- A plain record keeps its major endpoint. -/
@[simp] theorem major_plain (transposed : Bool) (record : EdgeRecord) :
    record.plain.major transposed = record.major transposed := rfl

/-- A plain record stands for the same edge. -/
@[simp] theorem toEdge_plain (record : EdgeRecord) : record.plain.toEdge = record.toEdge :=
  toEdge_ofEdge _ _ _

/-- Records of the same edge belong to the same row. -/
theorem major_congr_toEdge {transposed : Bool} {left right : EdgeRecord} (same : left.toEdge = right.toEdge) :
    left.major transposed = right.major transposed := by
  rw [← major_plain, ← right.major_plain]
  exact congrArg (fun edge => (ofEdge edge 0 0).major transposed) same

/-- Records of the same edges are the same but for their origins. -/
theorem map_plain_congr {left right : List EdgeRecord}
    (same : left.map toEdge = right.map toEdge) : left.map plain = right.map plain := by
  have again := congrArg (List.map fun edge => ofEdge edge 0 0) same
  rwa [List.map_map, List.map_map] at again

/-- Whether changed records are stored in another orientation as they were in the one before. -/
structure StoredAlike (change : EdgeRecord → EdgeRecord) (transposed other : Bool) : Prop where
  /-- They belong to the same rows. -/
  major : ∀ record, (change record).major other = record.major transposed
  /-- The same is stored of them. -/
  half : ∀ record, HalfEdge.ofRecord other (change record) = HalfEdge.ofRecord transposed record

end EdgeRecord

open EdgeRecord (plain StoredAlike)

/-- A plain record is stored as the record itself is. -/
theorem HalfEdge.ofRecord_plain (transposed : Bool) (record : EdgeRecord) :
    ofRecord transposed record.plain = ofRecord transposed record := by
  -- What is stored of a record can be read off its edge.
  have same := record.toEdge_plain
  simp only [EdgeRecord.toEdge, Edge.mk.injEq] at same
  obtain ⟨-, -, weight, id, kind⟩ := same
  unfold ofRecord
  rw [weight, id, kind]
  rfl

/-- Records left as they are are stored alike. -/
theorem EdgeRecord.id_storedAlike (transposed : Bool) : StoredAlike id transposed transposed :=
  ⟨fun _ => rfl, fun _ => rfl⟩

/-- The origin of a record is not stored. -/
theorem EdgeRecord.plain_storedAlike (transposed : Bool) : StoredAlike plain transposed transposed :=
  ⟨EdgeRecord.major_plain transposed, HalfEdge.ofRecord_plain transposed⟩

/-- What is stored of an edge by its source is what is stored of its reverse by its destination. -/
theorem EdgeRecord.reversed_storedAlike (transposed : Bool) :
    StoredAlike EdgeRecord.reversed transposed (!transposed) := by
  cases transposed <;> exact ⟨fun _ => rfl, fun _ => rfl⟩

namespace Segment

variable {change : EdgeRecord → EdgeRecord} {transposed other : Bool}
  (alike : StoredAlike change transposed other) (records : List EdgeRecord)

include alike

/-- Changed records that are stored alike fill the same cells. -/
theorem cells_map (start : VertexId) :
    cells start other (records.map change) = cells start transposed records := by
  unfold cells
  -- Records fall into the same runs, as runs are told apart by major endpoints.
  have related : ∀ left right : EdgeRecord, ((change left).major other == (change right).major other) =
      (left.major transposed == right.major transposed) := by
    intro left right
    rw [alike.major, alike.major]
  rw [runs_map change related, List.flatMap_map]
  refine List.flatMap_congr fun run _ => ?_
  dsimp only
  rw [← List.map_cons, List.zipIdx_map, List.map_map]
  refine List.map_congr_left fun ⟨record, slot⟩ _ => ?_
  simp [alike.half, alike.major]

/-- Changed records that are stored alike make the same segment. -/
theorem build_map (member : Member size) (vertices : Span) :
    build member other vertices (records.map change) = build member transposed vertices records := by
  -- Whether a segment is weighted is seen in what it stores of the records.
  have weighs : (records.map change).any (fun record => record.weight?.isSome) =
      records.any fun record => record.weight?.isSome := by
    rw [List.any_map]
    congr 1
    funext record
    exact congrArg (fun stored : HalfEdge => stored.weight.isSome) (alike.half record)
  unfold build
  rw [cells_map alike, List.length_map, weighs]

/-- Changed records are cut off after the same vertices. -/
theorem cut_map (budget : Nat) (stop : VertexId) (vertices : List VertexId) (first : VertexId)
    (held : List EdgeRecord) :
    cut budget other stop first (held.map change) vertices (records.map change) =
      (cut budget transposed stop first held vertices records).map
        fun piece => (piece.1, piece.2.map change) := by
  induction vertices generalizing first held records with
  | nil => simp [cut]
  | cons vertex vertices ih =>
    have own : (records.map change).takeWhile (fun record => record.major other == vertex) =
        (records.takeWhile fun record => record.major transposed == vertex).map change := by
      rw [List.takeWhile_map]
      simp only [Function.comp_def, alike.major]
    simp only [cut, own, List.length_map]
    rw [← List.map_drop, ← List.map_append]
    -- Whether a piece is full depends on the number of records only.
    split
    · rw [ih, List.map_cons]
    · rw [ih]

/-- Changed records are cut into pieces of the same vertices. -/
theorem pieces_map (budget : Option UInt64) (vertices : Span) :
    pieces budget other vertices (records.map change) =
      (pieces budget transposed vertices records).map fun piece => (piece.1, piece.2.map change) := by
  cases budget with
  | none => rfl
  | some most => exact cut_map alike records _ _ _ _ []

/-- Changed records that are stored alike make the same segments. -/
theorem buildAll_map (member : Member size) (budget : Option UInt64) (vertices : Span) :
    buildAll member budget other vertices (records.map change) =
      buildAll member budget transposed vertices records := by
  -- Piece by piece the segments are the same.
  unfold buildAll
  rw [pieces_map alike, List.mapM_map]
  congr 1
  exact funext fun piece => build_map alike piece.2 member piece.1

omit alike

variable {records}

/-- Records of the same edges make the same segments. -/
theorem buildAll_congr {others : List EdgeRecord} (member : Member size) (budget : Option UInt64)
    (vertices : Span) (same : records.map EdgeRecord.toEdge = others.map EdgeRecord.toEdge) :
    buildAll member budget transposed vertices records =
      buildAll member budget transposed vertices others := by
  have unplaced := EdgeRecord.plain_storedAlike transposed
  rw [← buildAll_map unplaced, EdgeRecord.map_plain_congr same, buildAll_map unplaced]

/-- Only the memory of a rank decides whether it can make segments. -/
theorem buildAll_of_memory_eq {member twin : Member size} (memory : twin.memory = member.memory)
    (budget : Option UInt64) (vertices : Span) :
    buildAll twin budget transposed vertices records =
      buildAll member budget transposed vertices records := by
  simp only [buildAll, build, Member.makeRoom_congr memory]

end Segment

end DistGraph
