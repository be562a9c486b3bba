import DistGraph.Proofs.Adjacency.Transpose
import DistGraph.Proofs.Construction.GivenIds
import DistGraph.Proofs.Construction.NewIds
import DistGraph.Proofs.Ties

/-! No two of the records that ranks put in order have the same key. -/

namespace DistGraph

variable {size : Nat} {edges : Fin size → List Edge}

namespace EdgeRecord

/-- Records have different keys if the edges that they stand for differ in their endpoints or positions. -/
theorem StandFor.keyed {records : List EdgeRecord} {all : List PlacedEdge}
    (stand : StandFor edges records all) (distinct : Reference.Distinct all) (once : all.Nodup)
    (transposed : Bool) : Keyed transposed records := by
  have apart : (records.map (placed edges)).Nodup := stand.perm.nodup_iff.mpr once
  refine List.pairwise_map.mpr ((List.pairwise_map.mp apart).imp_of_mem ?_)
  intro left right leftHeld rightHeld differ same
  -- A key tells the endpoints, in some order, and the place of origin.
  obtain ⟨major, minor, rank, seq⟩ := SortKey.mk.inj same
  have ends : (left.placed edges).ends = (right.placed edges).ends := by
    cases transposed with
    | false => exact Prod.ext major minor
    | true => exact Prod.ext minor major
  have position : (left.placed edges).position = (right.placed edges).position := by
    unfold placed
    rw [rank, seq]
  exact differ (distinct _ (stand.perm.subset (List.mem_map_of_mem leftHeld)) _
    (stand.perm.subset (List.mem_map_of_mem rightHeld)) ends position)

end EdgeRecord

namespace Construction

open DistGraph.Numbering (Agreement Agreed newOf)

variable {members : Fin size → Member size} {vertices : Fin size → List VertexId} (options : Options)
  (ranks : size ≤ UInt32.size) (short : ∀ rank, (edges rank).length < UInt64.size)

include ranks short

/-- Records have different keys where they meet to be cleaned up. -/
theorem keyed_met (placement : Placement) (rank : Fin size) (transposed : Bool) :
    EdgeRecord.Keyed transposed
      (Grouping.bound (placement.destination size) (everything (handedIn options edges)) rank) :=
  EdgeRecord.keyed_of_ordered ((handedIn_ordered options ranks short).filter _) transposed

variable (lawful : ∀ rank, (members rank).sorter.Lawful)

include lawful

/-- Records have different keys once they are cleaned up. -/
theorem keyed_cleaned (otherwise : Placement) (rank : Fin size) (transposed : Bool) :
    EdgeRecord.Keyed transposed (cleaned options members otherwise (handedIn options edges) rank) :=
  (cleaned_standFor options lawful otherwise ranks short rank).keyed
    ((Reference.processed_distinct options (everything edges)).filter _)
    ((Reference.processed_nodup options (everything edges)).filter _) transposed

/-- Records on given ids have different keys where they are owned. -/
theorem keyed_owned (partition : Partition size) (rank : Fin size) (transposed : Bool) :
    EdgeRecord.Keyed transposed (owned options members (handedIn options edges) partition rank) :=
  (owned_standFor options partition ranks short lawful rank).keyed
    ((Reference.processed_distinct options (everything edges)).filter _)
    ((Reference.processed_nodup options (everything edges)).filter _) transposed

/-- Records on new ids have different keys where they are owned. -/
theorem keyed_arrived {agreement : Agreement size} (agreed : Agreed members
    (tidied options members (handedIn options edges)) vertices options.order options.transposed agreement)
    (rank : Fin size) (transposed : Bool) :
    EdgeRecord.Keyed transposed (arrived options members (handedIn options edges) agreement rank) := by
  -- New ids tell old ones apart, so that edges that were different still are.
  have back := restores ranks short lawful rank agreed
  have stand := relabelled_standFor options ranks short lawful rank agreement
  exact (stand.bound _ rank).keyed
    ((back.distinct (Reference.processed_distinct options (everything edges))).filter _)
    ((back.nodup (Reference.processed_nodup options (everything edges))).filter _) transposed

end Construction

/-- Turned records have different keys where they are owned. -/
theorem View.keyed_turnedFor {views : Fin size → View size} (ranks : size ≤ UInt32.size)
    (short : ∀ rank, (turned views rank).length < UInt64.size) (partition : Partition size)
    (transposed : Bool) (rank : Fin size) :
    EdgeRecord.Keyed transposed (turnedFor views partition transposed rank) := by
  have length : ∀ rank, ((views rank).edges.map Edge.reversed).length = (turned views rank).length := by
    intro rank
    have told := EdgeRecord.map_toEdge_ofEdges rank ((views rank).edges.map Edge.reversed)
    exact (congrArg List.length told).symm.trans (List.length_map _)
  -- Turned edges are read back like edges that are handed in.
  exact Construction.keyed_met {} ranks (fun rank => length rank ▸ short rank)
    (.byOwner partition transposed) rank transposed

end DistGraph
