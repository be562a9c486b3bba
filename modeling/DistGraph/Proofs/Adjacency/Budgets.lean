import DistGraph.Proofs.Adjacency.Rows
import DistGraph.Proofs.Construction.Frame
import DistGraph.Proofs.Ties

/-! How the rows of a rank are cut into segments does not show in what its view answers. -/

namespace DistGraph.View

variable {size : Nat}

/-- The place of a vertex among the vertices of a rank leads to its row. -/
theorem storedAt_eq {view : View size} {place : UInt64} (inside : place.toNat < view.range.length)
    (located : ∀ vertex, view.range.contains vertex = true → (view.locateVertex? vertex).isSome) :
    view.storedAt place = .ok (some (view.halfEdges (view.range.start + place))) := by
  unfold Span.length at inside
  have := view.range.stop.toNat_lt
  -- The place lies in the span, so that the start can be added to it.
  have fits : view.range.start.toNat + place.toNat < 2 ^ 64 := by omega
  have sum : (view.range.start + place).toNat = view.range.start.toNat + place.toNat := by
    rw [UInt64.toNat_add, Nat.mod_eq_of_lt fits]
  have owned : view.range.contains (view.range.start + place) = true :=
    Span.contains_iff.mpr ⟨by omega, by omega⟩
  have added : Word.add view.range.start place = .ok (view.range.start + place) :=
    Word.add_eq_ok_iff.mpr sum.symm
  obtain ⟨⟨segment, row⟩, found⟩ := Option.isSome_iff_exists.mp (located _ owned)
  have placed : view.locatePlace place = .ok (some (segment, row)) := by
    unfold locatePlace
    rw [added]
    exact congrArg Except.ok found
  unfold storedAt halfEdges
  rw [if_pos owned, found, placed]
  rfl

/-- Whether two views answer everything that can be asked about edges in the same way. -/
structure AnswersLike (left right : View size) : Prop where
  /-- Every vertex has the same neighbours, whoever owns it. -/
  neighbors : ∀ vertex, left.neighbors vertex = right.neighbors vertex
  /-- Every vertex has as many edges. -/
  degree : ∀ vertex, left.degree vertex = right.degree vertex
  /-- Every vertex has the same edges. -/
  edgesAt : ∀ vertex, left.edgesAt vertex = right.edgesAt vertex
  /-- All edges of the rank come in the same order. -/
  edges : left.edges = right.edges
  /-- There are as many edges on the rank. -/
  edgeCount : left.edgeCount = right.edgeCount
  /-- There are as many vertices on the rank. -/
  places : left.range.length = right.range.length
  /-- There are as many vertices over all ranks. -/
  vertexCount : left.vertexCount = right.vertexCount
  /-- There are as many edges over all ranks. -/
  globalEdgeCount : left.globalEdgeCount = right.globalEdgeCount
  /-- Every place among the vertices of the rank has a row, which holds the same. -/
  stored : ∀ place : UInt64, place.toNat < left.range.length →
    ∃ row, left.storedAt place = .ok (some row) ∧ right.storedAt place = .ok (some row)

variable {members others : Fin size → Member size} {records : Fin size → List EdgeRecord}
  {partition : Partition size} {transposed : Bool} {budget otherBudget : Option UInt64}
  {views otherViews : Fin size → View size}

/-- Views know of as many edges over all ranks if the same records are stored. -/
theorem Built.globalEdgeCount_congr (built : Built members records partition transposed budget views)
    (otherBuilt : Built others records partition transposed otherBudget otherViews)
    (sorted : ∀ rank, (members rank).sorter.records transposed (records rank) =
      (others rank).sorter.records transposed (records rank)) (rank : Fin size) :
    (views rank).globalEdgeCount = (otherViews rank).globalEdgeCount := by
  obtain ⟨-, totals, -, counted, -, rfl⟩ := built
  obtain ⟨-, otherTotals, -, otherCounted, -, rfl⟩ := otherBuilt
  simp only [← sorted] at otherCounted
  -- The counts of all ranks are added up in the same order.
  cases listed : List.ofFn fun rank => UInt64.ofNat
      ((members rank).sorter.records transposed (records rank)).length with
  | nil => exact absurd (List.ofFn_eq_nil_iff.mp listed) (Nat.ne_of_gt rank.pos)
  | cons first rest =>
    exact Except.ok.inj ((counted rank first rest listed).symm.trans
      (otherCounted rank first rest listed))

/-- Every place among the vertices of a rank has the row of its vertex. -/
theorem Built.storedAt_eq (built : Built members records partition transposed budget views)
    (lawful : ∀ rank, (members rank).sorter.Lawful) {rank : Fin size} {place : UInt64}
    (inside : place.toNat < (views rank).range.length) : (views rank).storedAt place =
      .ok (some ((views rank).halfEdges ((views rank).range.start + place))) := by
  refine View.storedAt_eq inside fun vertex owned => ?_
  rw [built.range_eq] at owned
  exact built.isSome_locateVertex? lawful owned

/-- Views of the same records with different keys answer alike. -/
theorem Built.answersLike (built : Built members records partition transposed budget views)
    (otherBuilt : Built others records partition transposed otherBudget otherViews)
    (lawful : ∀ rank, (members rank).sorter.Lawful) (otherLawful : ∀ rank, (others rank).sorter.Lawful)
    (keyed : ∀ rank, EdgeRecord.Keyed transposed (records rank)) (rank : Fin size) :
    (views rank).AnswersLike (otherViews rank) := by
  -- Keys are distinct, so that both sorters make the same list.
  have sorted : ∀ rank, (members rank).sorter.records transposed (records rank) =
      (others rank).sorter.records transposed (records rank) :=
    fun rank => (lawful rank).records_eq (otherLawful rank) (keyed rank) (.refl _)
  have rows : ∀ vertex, (views rank).halfEdges vertex = (otherViews rank).halfEdges vertex := by
    intro vertex
    rw [built.halfEdges_eq lawful, otherBuilt.halfEdges_eq otherLawful, sorted]
  have range : (views rank).range = (otherViews rank).range := by
    rw [built.range_eq, otherBuilt.range_eq]
  refine {
    neighbors := fun vertex => ?_, degree := fun vertex => ?_, edgesAt := fun vertex => ?_
    edges := ?_, edgeCount := ?_, places := ?_, vertexCount := ?_
    globalEdgeCount := built.globalEdgeCount_congr otherBuilt sorted rank
    stored := fun place inside => ⟨(views rank).halfEdges ((views rank).range.start + place), ?_, ?_⟩ }
  · unfold neighbors
    rw [rows]
  · unfold degree
    rw [rows]
  · unfold edgesAt
    rw [rows, built.transposed_eq, otherBuilt.transposed_eq]
  · rw [built.edges_eq lawful, otherBuilt.edges_eq otherLawful, sorted]
  · rw [built.edgeCount_eq lawful, otherBuilt.edgeCount_eq otherLawful]
  · rw [range]
  · unfold vertexCount
    rw [built.partition_eq, otherBuilt.partition_eq]
  · exact built.storedAt_eq lawful inside
  · rw [rows, range]
    exact otherBuilt.storedAt_eq otherLawful (range ▸ inside)

/-- However the ranks take turns, and whatever segments each of them is told to cut its rows into, their views
of the same records answer alike if no two records of a rank are sorted by the same key. Ranks that have
buffers for their records do get views of them. -/
theorem build_answers_alike (crew other : Crew size) (records : Fin size → List EdgeRecord)
    (partition : Partition size) (transposed : Bool) (budget otherBudget : Option UInt64)
    (own : ∀ rank, ∀ record ∈ records rank,
      (partition.spanOf rank).contains (record.major transposed) = true)
    (keyed : ∀ rank, EdgeRecord.Keyed transposed (records rank))
    (run : Cluster.Run (Vector.ofFn fun rank =>
      build (crew.members rank) (records rank) partition transposed budget))
    (otherRun : Cluster.Run (Vector.ofFn fun rank =>
      build (other.members rank) (records rank) partition transposed otherBudget)) :
    (∀ views otherViews : Fin size → View size, (∀ rank, run.outcome rank = some (.ok (views rank))) →
      (∀ rank, otherRun.outcome rank = some (.ok (otherViews rank))) →
      ∀ rank, (views rank).AnswersLike (otherViews rank)) ∧
    ((everything records).length < UInt64.size →
      (∀ rank, ∀ length ≤ (records rank).length,
        (crew.members rank).makeRoom HalfEdge.cellBytes length = .ok () ∧
        (other.members rank).makeRoom HalfEdge.cellBytes length = .ok ()) →
      ∃ views otherViews : Fin size → View size, (∀ rank, run.outcome rank = some (.ok (views rank))) ∧
        (∀ rank, otherRun.outcome rank = some (.ok (otherViews rank))) ∧
        ∀ rank, (views rank).AnswersLike (otherViews rank)) := by
  -- Both sides come down to what each rank has built, and built views answer from the sorted records,
  -- where no segment shows.
  have computes : Computes (fun rank => build (crew.members rank) (records rank) partition transposed
      budget) _ := build_computes crew.ranked
  have otherComputes : Computes (fun rank => build (other.members rank) (records rank) partition
      transposed otherBudget) _ := build_computes other.ranked
  refine ⟨fun views otherViews ends otherEnds => ?_, fun fits room => ?_⟩
  · have built := computes.together_iff.mp (run.together_iff.mp ends)
    have otherBuilt := otherComputes.together_iff.mp (otherRun.together_iff.mp otherEnds)
    exact built.answersLike otherBuilt crew.lawful other.lawful keyed
  · obtain ⟨views, built⟩ := exists_built_of_room crew.lawful own
      (fun rank length few => (room rank length few).1) fits
    obtain ⟨otherViews, otherBuilt⟩ := exists_built_of_room other.lawful own
      (fun rank length few => (room rank length few).2) fits
    exact ⟨views, otherViews, run.together_iff.mpr (computes.together_iff.mpr built),
      otherRun.together_iff.mpr (otherComputes.together_iff.mpr otherBuilt),
      built.answersLike otherBuilt crew.lawful other.lawful keyed⟩

/-- A rank with parallel edges and a vertex without any, and a rank without vertices, answer alike whether
their rows are left whole or cut as small as they can be. -/
theorem build_answers_alike_sample :
    let crew : Crew 2 := Crew.stable fun _ => none
    let records : Fin 2 → List EdgeRecord := ![EdgeRecord.ofEdges 0 [⟨2, 0, none, none, none⟩,
      ⟨0, 1, some .zero, none, none⟩, ⟨0, 1, none, some 7, none⟩], []]
    ∃ (partition : Partition 2)
      (whole : Cluster.Run (Vector.ofFn fun rank : Fin 2 =>
        build (crew.members rank) (records rank) partition false none))
      (cut : Cluster.Run (Vector.ofFn fun rank : Fin 2 =>
        build (crew.members rank) (records rank) partition false (some 0)))
      (views otherViews : Fin 2 → View 2), (∀ rank, whole.outcome rank = some (.ok (views rank))) ∧
        (∀ rank, cut.outcome rank = some (.ok (otherViews rank))) ∧
        ∀ rank, (views rank).AnswersLike (otherViews rank) := by
  intro crew records
  let partition : Partition 2 := {
    boundaries := [0, 3, 3], length_boundaries := rfl, starts_at_zero := rfl, ordered := by decide }
  obtain ⟨whole⟩ := Cluster.Run.exists_of_programs (Vector.ofFn fun rank : Fin 2 =>
    build (crew.members rank) (records rank) partition false none)
  obtain ⟨cut⟩ := Cluster.Run.exists_of_programs (Vector.ofFn fun rank : Fin 2 =>
    build (crew.members rank) (records rank) partition false (some 0))
  -- The stable crew is unlimited, so that buffers for three records are there on both ranks.
  have room : ∀ rank : Fin 2, ∀ length ≤ (records rank).length,
      (crew.members rank).makeRoom HalfEdge.cellBytes length = .ok () := by
    have most : ∀ rank, (records rank).length ≤ 3 := by decide
    intro rank length few
    exact (Crew.stable_holds (by decide : 3 ≤ Count.most) rank).makeRoom (Nat.le_refl _)
      (Nat.le_trans few (most rank))
  exact ⟨partition, whole, cut, (build_answers_alike crew crew records partition false none (some 0)
    (by decide) (by decide) whole cut).2 (by decide) fun rank length few =>
      ⟨room rank length few, room rank length few⟩⟩

end DistGraph.View
