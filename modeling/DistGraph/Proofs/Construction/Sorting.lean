import DistGraph.Proofs.Construction.GivenIds
import DistGraph.Proofs.Construction.NewIds
import DistGraph.Proofs.Construction.Transpose
import DistGraph.Proofs.Numbering.Ties

/-! Constructions whose ranks may refuse to put records in order, for instance because two have the same
key. -/

namespace DistGraph

variable {size : Nat}

/-- How a rank puts records in order by their keys in an orientation, unless it refuses to. -/
abbrev Sorting := (transposed : Bool) → List EdgeRecord → Except Failure (List EdgeRecord)

namespace Sorter

/-- The way in which a sorter puts records in order. -/
def sorting (sorter : Sorter) : Sorting := fun transposed records =>
  -- Nothing is refused.
  .ok (sorter.records transposed records)

/-- The way in which a sorter puts records in order that raises an alarm if two of them have the same key. -/
def watched (sorter : Sorter) (alarm : Failure) : Sorting := fun transposed records =>
  -- The keys are compared before the records are put in order.
  if EdgeRecord.Keyed transposed records then .ok (sorter.records transposed records) else .error alarm

end Sorter

/-- Puts the records of a rank in order in some way and cleans them up as asked. -/
def Cleanup.tidyBy (sorting : Sorting) (policy : MergePolicy) (dropSelfLoops closeUnderReversal : Bool)
    (records : List EdgeRecord) : Except Failure (List EdgeRecord) := do
  -- The records are put in order again once reverses are added.
  let kept := if dropSelfLoops then withoutSelfLoops records else records
  let sorted ← sorting false kept
  let merged := mergeParallel policy sorted
  if closeUnderReversal then sorting false (withReverses merged) else return merged

namespace View

/-- The view of a rank from the records that it received as their owner and puts in order in some way. -/
def buildBy (sorting : Sorting) (self : Member size) (records : List EdgeRecord)
    (partition : Partition size) (transposed : Bool) (segmentBudget : Option UInt64) :
    Program size Failure (View size) := do
  -- The records are put in order before they are counted.
  let range := partition.spanOf self.rank
  if let some vertex := stray? range transposed records then
    .fail (.diverged (.ownership vertex))
  else
    let sorted ← sorting transposed records
    let globalEdgeCount ←
      (Communicator.allReduce .sum (UInt64.ofNat sorted.length)).mapError .ofGraph
    let segments ← Segment.buildAll self segmentBudget transposed range sorted
    return {
      rank := self.rank, partition, transposed, segments := segments.toArray
      segmentBudget, globalEdgeCount }

/-- The view of the graph with every edge turned around, if records are put in order in some way. -/
def transposeBy (sorting : Sorting) (self : Member size) (view : View size) :
    Program size Failure (View size) := do
  -- Turned edges move to the owners of their new major endpoints.
  let turned := EdgeRecord.ofEdges self.rank (view.edges.map Edge.reversed)
  let received ← Routing.sendRecords self (.byOwner view.partition view.transposed) turned
  buildBy sorting self received view.partition view.transposed view.segmentBudget

end View

namespace Construction

/-- Moves records to where all parallel ones meet, and puts them in order there in some way. -/
def gatherParallelBy (sorting : Sorting) (self : Member size) (options : Options) (otherwise : Placement)
    (records : List EdgeRecord) : Program size Failure (List EdgeRecord) := do
  -- They are merged and completed before they move on.
  let received ← Routing.sendRecords self (meeting options otherwise) records
  Cleanup.tidyBy sorting options.mergePolicy false options.addReverses received

/-- How a rank goes on once vertices have new ids, if records are put in order in some way. -/
def moveAnewBy (sorting : Sorting) (options : Options) (self : Member size)
    (assigned : Numbering size × List EdgeRecord) : Program size Failure (Constructed size) := do
  -- The records are put in order with their new ids.
  let partition := assigned.1.partition
  let placed ← Routing.sendRecords self (.byOwner partition options.transposed) assigned.2
  let view ← View.buildBy sorting self placed partition options.transposed options.segmentBudget
  return ⟨view, assigned.1, partition⟩

/-- Relabelled records are sent to their owners and stored there, in the given way of sorting. -/
theorem moveAnewBy_eq (sorting : Sorting) (options : Options) (agreement : Numbering.Agreement size)
    (self : Member size) (rank : Fin size) (records : List EdgeRecord) :
    moveAnewBy sorting options self (agreement.parts rank, records) =
      (Routing.sendRecords self (.byOwner agreement.partition options.transposed) records >>= fun placed =>
        View.buildBy sorting self placed agreement.partition options.transposed options.segmentBudget >>=
        fun view => pure ⟨view, agreement.parts rank, agreement.partition⟩) := rfl

/-- The graph on new ids, if records are put in order in some way. -/
def onNewIdsBy (sorting : Sorting) (self : Member size) (records : List EdgeRecord)
    (vertices : List VertexId) (options : Options) : Program size Failure (Constructed size) := do
  -- The records are put in order with their old ids first.
  let clean ← gatherParallelBy sorting self options (.byHash options.transposed) records
  let assigned ← Numbering.assign self clean vertices options.order options.transposed
  moveAnewBy sorting options self assigned

/-- The graph on the given ids, if records are put in order in some way. -/
def onGivenIdsBy (sorting : Sorting) (self : Member size) (records : List EdgeRecord)
    (vertices : List VertexId) (options : Options) : Program size Failure (Constructed size) := do
  -- Records that have been cleaned up may still have to move to their owners.
  let vertexCount ← countVertices records vertices options
  let partition ← Failure.ofDefect (Partition.even vertexCount size)
  let clean ← gatherParallelBy sorting self options (.byOwner partition options.transposed) records
  let placed ← moveOn options partition self clean
  let view ← View.buildBy sorting self placed partition options.transposed options.segmentBudget
  return ⟨view, .identity partition self.rank, partition⟩

/-- On given ids the given way of sorting is used to clean up and to store. -/
theorem onGivenIdsBy_eq (sorting : Sorting) (self : Member size) (records : List EdgeRecord)
    (vertices : List VertexId) (options : Options) :
    onGivenIdsBy sorting self records vertices options =
      (countVertices records vertices options >>= fun count =>
        Program.ofExcept (Failure.ofDefect (Partition.even count size)) >>= fun partition =>
        gatherParallelBy sorting self options (.byOwner partition options.transposed) records >>= fun clean =>
        moveOn options partition self clean >>= fun placed =>
        View.buildBy sorting self placed partition options.transposed options.segmentBudget >>= fun view =>
        pure ⟨view, .identity partition self.rank, partition⟩) := rfl

/-- The step of a construction that depends on whether vertices get new ids, if records are put in order in
some way. -/
def buildBy (sorting : Sorting) (self : Member size) (records : List EdgeRecord)
    (vertices : List VertexId) (options : Options) : Program size Failure (Constructed size) :=
  if options.renumber then onNewIdsBy sorting self records vertices options
  else onGivenIdsBy sorting self records vertices options

/-- The graph of the edges and the listed vertices of all ranks, if records are put in order in some way. -/
def constructBy (sorting : Sorting) (self : Member size) (edges : List Edge) (vertices : List VertexId)
    (options : Options) : Program size Failure (Constructed size) := do
  -- Checks put no records in order.
  checkInput self edges vertices options
  let records ← recordsOf self edges options
  let constructed ← buildBy sorting self records vertices options
  confirm options constructed
  return constructed

/-- A construction uses the given way of sorting only where it builds. -/
theorem constructBy_eq (sorting : Sorting) (self : Member size) (edges : List Edge)
    (vertices : List VertexId) (options : Options) : constructBy sorting self edges vertices options =
      (checkInput self edges vertices options >>= fun _ =>
        Program.ofExcept (recordsOf self edges options) >>= fun records =>
        buildBy sorting self records vertices options >>= fun constructed =>
        confirm options constructed >>= fun _ => pure constructed) := rfl

/-- Constructs a graph and turns all of its edges around a number of times, where records are put in order
in some way. -/
def constructTurnedBy (sorting : Sorting) (self : Member size) (edges : List Edge)
    (vertices : List VertexId) (options : Options) : (times : Nat) → Program size Failure (View size)
  -- Every time takes the view that the time before has left.
  | 0 => do
    let constructed ← constructBy sorting self edges vertices options
    return constructed.view
  | times + 1 => do
    let view ← constructTurnedBy sorting self edges vertices options times
    View.transposeBy sorting self view

end Construction

/-- Whether some way to put records in order is that of a sorter wherever keys differ. -/
def Sorting.Follows (sorting : Sorting) (sorter : Sorter) : Prop :=
  ∀ transposed records, EdgeRecord.Keyed transposed records →
    sorting transposed records = .ok (sorter.records transposed records)

section Follows

variable {sorting : Sorting} {sorter other : Sorter}

/-- Whoever sorts follows whoever else sorts. -/
theorem Sorter.Lawful.follows (lawful : sorter.Lawful) (otherLawful : other.Lawful) :
    other.sorting.Follows sorter :=
  fun _ records keyed => congrArg Except.ok (otherLawful.records_eq lawful keyed (.refl records))

/-- As long as there is no reason for an alarm, whoever watches follows whoever else sorts. -/
theorem Sorter.Lawful.watched_follows (lawful : sorter.Lawful) (otherLawful : other.Lawful)
    (alarm : Failure) : (other.watched alarm).Follows sorter :=
  fun transposed records keyed => (if_pos keyed).trans (lawful.follows otherLawful transposed records keyed)

/-- Records whose keys differ before and after reverses are added are cleaned up as usual. -/
theorem Cleanup.tidyBy_eq (follows : sorting.Follows sorter) (lawful : sorter.Lawful) {policy : MergePolicy}
    {closeUnderReversal : Bool} {held : List EdgeRecord} (met : EdgeRecord.Keyed false held)
    (keyed : EdgeRecord.Keyed false (tidy sorter policy false closeUnderReversal held)) :
    tidyBy sorting policy false closeUnderReversal held =
      .ok (tidy sorter policy false closeUnderReversal held) := by
  unfold tidy at keyed ⊢
  unfold tidyBy
  simp only [Bool.false_eq_true, if_false, follows false held met, ok_bind] at keyed ⊢
  -- Sorting is asked for twice, before merging and after reverses were added.
  cases closeUnderReversal with
  | false => rfl
  | true => exact follows false _ (keyed.perm (lawful.records_perm false _))

end Follows

/-- Ranks in the same place with the same memory can only differ in how they sort. -/
theorem Member.eq_resorted {member twin : Member size} (rank : twin.rank = member.rank)
    (memory : twin.memory = member.memory) : twin = { member with sorter := twin.sorter } := by
  -- A member has no other fields.
  cases twin
  cases rank
  cases memory
  rfl

section Resorted

variable {member : Member size} {sorter : Sorter} (lawful : member.sorter.Lawful)
  (otherLawful : sorter.Lawful)

include lawful otherLawful

/-- New ids do not depend on how a rank sorts. -/
theorem Numbering.assign_resorted (records : List EdgeRecord) (vertices : List VertexId) (order : IdOrder)
    (transposed : Bool) : assign { member with sorter := sorter } records vertices order transposed =
      assign member records vertices order transposed := by
  -- Both sorted lists are determined by what they have, as no two entries of a list are different and
  -- equal in order.
  have names : Degrees.named { member with sorter := sorter } records vertices transposed =
      Degrees.named member records vertices transposed :=
    Degrees.named_congr rfl lawful otherLawful (.refl _)
  have gathers : ∀ named, gatherOwned { member with sorter := sorter } order named =
      gatherOwned member order named := by
    intro named
    unfold gatherOwned
    simp only [Degrees.merge_congr otherLawful lawful (.refl _),
      Degrees.arrange_congr otherLawful lawful]
    rfl
  unfold assign
  simp only [names, gathers]
  rfl

/-- The checks do not depend on how a rank sorts. -/
theorem Construction.checkInput_resorted (edges : List Edge) (vertices : List VertexId) (options : Options) :
    checkInput { member with sorter := sorter } edges vertices options =
      checkInput member edges vertices options := by
  -- Sorted ids are the same list, whoever sorts them.
  have sorts : sorter.vertices = member.sorter.vertices :=
    funext fun ids => otherLawful.vertices_eq lawful (.refl ids)
  have lists : checkList { member with sorter := sorter } edges vertices = checkList member edges vertices := by
    unfold checkList
    simp only [sorts]
    rfl
  unfold checkInput
  rw [lists]

end Resorted

namespace View

/-- Records whose keys differ are stored as usual. -/
theorem buildBy_eq {sorting : Sorting} {self : Member size} (follows : sorting.Follows self.sorter)
    {records : List EdgeRecord} (partition : Partition size) {transposed : Bool}
    (keyed : EdgeRecord.Keyed transposed records) (budget : Option UInt64) :
    buildBy sorting self records partition transposed budget =
      build self records partition transposed budget := by
  unfold buildBy build
  rw [follows transposed records keyed]
  rfl

end View

namespace Construction

section Sorting

variable (self : Member size) (options : Options)

/-- Cleaning up with the sorter's own way of sorting is the usual clean-up. -/
theorem gatherParallelBy_sorting (otherwise : Placement) (records : List EdgeRecord) :
    gatherParallelBy self.sorter.sorting self options otherwise records =
      gatherParallel self options otherwise records := by
  refine bind_congr fun received => ?_
  unfold Cleanup.tidyBy Cleanup.tidy
  cases options.addReverses <;> rfl

/-- Building on given ids with the sorter's own way of sorting is the usual way. -/
theorem onGivenIdsBy_sorting (records : List EdgeRecord) (vertices : List VertexId) :
    onGivenIdsBy self.sorter.sorting self records vertices options =
      onGivenIds self records vertices options := by
  -- Sorting occurs in cleaning up and in storing, and both are the usual ones.
  unfold onGivenIdsBy
  simp only [gatherParallelBy_sorting]
  rw [onGivenIds_eq]
  rfl

/-- Building on new ids with the sorter's own way of sorting is the usual way. -/
theorem onNewIdsBy_sorting (records : List EdgeRecord) (vertices : List VertexId) :
    onNewIdsBy self.sorter.sorting self records vertices options =
      onNewIds self records vertices options := by
  unfold onNewIdsBy
  rw [gatherParallelBy_sorting]
  rfl

/-- Constructing with the sorter's own way of sorting is the usual construction. -/
theorem constructBy_sorting (edges : List Edge) (vertices : List VertexId) :
    constructBy self.sorter.sorting self edges vertices options = construct self edges vertices options := by
  -- The checks do not mention the way of sorting, and building is the usual one.
  unfold constructBy buildBy
  simp only [onGivenIdsBy_sorting, onNewIdsBy_sorting]
  rw [construct_eq]
  rfl

/-- Turning around with the sorter's own way of sorting is the usual way. -/
theorem constructTurnedBy_sorting (edges : List Edge) (vertices : List VertexId) (times : Nat) :
    constructTurnedBy self.sorter.sorting self edges vertices options times =
      constructTurned self edges vertices options times := by
  -- By induction on the number of turns.
  induction times with
  | zero =>
    unfold constructTurnedBy constructTurned
    rw [constructBy_sorting]
  | succ times ih =>
    unfold constructTurnedBy constructTurned
    rw [ih]
    rfl

end Sorting

section Resorted

variable (sorting : Sorting) {member : Member size} {sorter : Sorter} (lawful : member.sorter.Lawful)
  (otherLawful : sorter.Lawful)

include lawful otherLawful

/-- With a given way of sorting, a construction does not depend on the rank's sorter. -/
theorem constructBy_resorted (edges : List Edge) (vertices : List VertexId) (options : Options) :
    constructBy sorting { member with sorter := sorter } edges vertices options =
      constructBy sorting member edges vertices options := by
  -- The sorter is left in the checks and in numbering, where ties do not show.
  unfold constructBy buildBy onNewIdsBy
  simp only [checkInput_resorted lawful otherLawful, Numbering.assign_resorted lawful otherLawful]
  rfl

/-- With a given way of sorting, turning around does not depend on the rank's sorter. -/
theorem constructTurnedBy_resorted (edges : List Edge) (vertices : List VertexId) (options : Options)
    (times : Nat) :
    constructTurnedBy sorting { member with sorter := sorter } edges vertices options times =
      constructTurnedBy sorting member edges vertices options times := by
  -- By induction on the number of turns.
  induction times with
  | zero =>
    unfold constructTurnedBy
    rw [constructBy_resorted sorting lawful otherLawful]
  | succ times ih =>
    unfold constructTurnedBy
    rw [ih]
    rfl

end Resorted

end Construction

end DistGraph
