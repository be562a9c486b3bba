import Mathlib.Data.List.Dedup
import DistGraph.Edge
import DistGraph.Options

/-! The edges that a construction has to come to, told from one list of all edges. -/

namespace DistGraph

/-- An edge with its position among all edges that are handed in. -/
structure PlacedEdge where
  /-- The edge. -/
  edge : Edge
  /-- The position of the edge it comes from. -/
  position : Nat
  deriving DecidableEq

namespace PlacedEdge

/-- The endpoints of an edge. -/
def ends (placed : PlacedEdge) : VertexId × VertexId :=
  -- Direction matters.
  (placed.edge.src, placed.edge.dst)

/-- The edge in the other direction, in the same position. -/
def reversed (placed : PlacedEdge) : PlacedEdge :=
  -- Attributes stay as they are.
  { placed with edge := placed.edge.reversed }

/-- Whether an edge leaves and enters the same vertex. -/
def isSelfLoop (placed : PlacedEdge) : Bool :=
  -- Only the endpoints matter.
  placed.edge.src == placed.edge.dst

/-- A self-loop ends where it starts. -/
@[simp] theorem isSelfLoop_iff {placed : PlacedEdge} :
    placed.isSelfLoop = true ↔ placed.edge.src = placed.edge.dst := beq_iff_eq

/-- All other edges have two endpoints. -/
@[simp] theorem isSelfLoop_eq_false_iff {placed : PlacedEdge} :
    placed.isSelfLoop = false ↔ placed.edge.src ≠ placed.edge.dst := beq_eq_false_iff_ne

/-- The endpoint that edges are grouped by. -/
def major (transposed : Bool) (placed : PlacedEdge) : VertexId :=
  -- Transposed storage groups by destination.
  if transposed then placed.edge.dst else placed.edge.src

/-- The endpoint that edges are not grouped by. -/
def minor (transposed : Bool) (placed : PlacedEdge) : VertexId :=
  -- The two endpoints trade places with the orientation.
  if transposed then placed.edge.src else placed.edge.dst

/-- Whether an edge comes before another by major endpoint, minor endpoint and position. -/
def precedes (transposed : Bool) (left right : PlacedEdge) : Bool :=
  -- The first difference decides.
  left.major transposed < right.major transposed ||
    (left.major transposed == right.major transposed &&
      (left.minor transposed < right.minor transposed ||
        (left.minor transposed == right.minor transposed && left.position ≤ right.position)))

/-- The weight that an edge is left with when it takes in the weight of a later one. -/
def takeIn (policy : MergePolicy) (weight later : Weight) : Weight :=
  -- Only three policies look at the later weight.
  match policy with
  | .sum => weight.add later
  | .min => weight.min later
  | .max => weight.max later
  | .keepAll | .keepFirst => weight

/-- The weight of parallel edges, if any of them has one. -/
def groupWeight (policy : MergePolicy) (edges : List PlacedEdge) : Option Weight :=
  -- The first weight that is present takes in all that are present after it, one by one.
  match edges.filterMap fun placed => placed.edge.weight with
  | [] => none
  | weight :: weights => some (weights.foldl (takeIn policy) weight)

/-- The one edge that stands for parallel edges. -/
def merge (policy : MergePolicy) (first : PlacedEdge) (later : List PlacedEdge) : PlacedEdge :=
  -- Everything but the weight is the first edge's.
  if policy = .keepFirst then first
  else { first with edge := { first.edge with weight := groupWeight policy (first :: later) } }

end PlacedEdge

namespace Reference

/-- The edges that are handed in, in their positions. -/
def handedIn (edges : List Edge) : List PlacedEdge :=
  -- Positions are counted from zero.
  edges.zipIdx.map fun (edge, position) => ⟨edge, position⟩

/-- Replaces all edges with the same endpoints by one. -/
def mergeParallel (policy : MergePolicy) (edges : List PlacedEdge) : List PlacedEdge :=
  -- Among edges with the same endpoints, the one that was handed in first takes in the others.
  (edges.map PlacedEdge.ends).dedup.filterMap fun ends =>
    match edges.filter fun placed => placed.ends = ends with
    | [] => none
    | first :: later => some (first.merge policy later)

/-- Adds the reverse of every edge other than a self-loop whose reverse is missing. -/
def addReverses (edges : List PlacedEdge) : List PlacedEdge :=
  -- A reverse counts as missing if there was none before any was added.
  edges ++ (edges.filter fun placed => !placed.isSelfLoop &&
    !edges.any fun other => other.ends = placed.reversed.ends).map PlacedEdge.reversed

/-- The edges that stay as they are handed in. -/
def kept (options : Options) (edges : List Edge) : List PlacedEdge :=
  -- Positions are those from before self-loops are dropped.
  if options.dropSelfLoops then (handedIn edges).filter fun placed => !placed.isSelfLoop
  else handedIn edges

/-- The vertices of the graph, some of them more than once. -/
def vertices (options : Options) (edges : List Edge) (listed : List VertexId) : List VertexId :=
  -- An edge that is dropped names no vertex.
  ((kept options edges).flatMap fun placed => [placed.edge.src, placed.edge.dst]) ++ listed

/-- Edges rid of duplicates and closed under reversal, as far as that is asked for. -/
def clean (policy : MergePolicy) (closeUnderReversal : Bool) (edges : List PlacedEdge) :
    List PlacedEdge :=
  -- Duplicates are merged before reverses are added.
  let merged := if policy = .keepAll then edges else mergeParallel policy edges
  if closeUnderReversal then addReverses merged else merged

/-- The edges of the graph, in no order of their own. -/
def processed (options : Options) (edges : List Edge) : List PlacedEdge :=
  -- Self-loops go first.
  clean options.mergePolicy options.addReverses (kept options edges)

/-- The edges of the graph, by major endpoint, minor endpoint and position. -/
def edgeList (options : Options) (edges : List Edge) : List Edge :=
  -- Positions only decide the order.
  ((processed options edges).mergeSort (PlacedEdge.precedes options.transposed)).map PlacedEdge.edge

/-- Edges are handed in as they are. -/
theorem map_edge_handedIn (edges : List Edge) : (handedIn edges).map PlacedEdge.edge = edges := by
  rw [handedIn, List.map_map]
  exact List.zipIdx_map_fst 0 edges

/-- Merging keeps the endpoints of the first edge. -/
@[simp] theorem ends_merge (policy : MergePolicy) (first : PlacedEdge) (later : List PlacedEdge) :
    (first.merge policy later).ends = first.ends := by
  unfold PlacedEdge.merge
  split <;> rfl

/-- Merging keeps the position of the first edge. -/
@[simp] theorem position_merge (policy : MergePolicy) (first : PlacedEdge) (later : List PlacedEdge) :
    (first.merge policy later).position = first.position := by
  unfold PlacedEdge.merge
  split <;> rfl

/-- What is left of parallel edges stands for all edges between its endpoints. -/
theorem mem_mergeParallel {policy : MergePolicy} {edges : List PlacedEdge} {placed : PlacedEdge} :
    placed ∈ mergeParallel policy edges ↔
      ∃ first later, edges.filter (fun other => other.ends = placed.ends) = first :: later ∧
        placed = first.merge policy later := by
  unfold mergeParallel
  rw [List.mem_filterMap]
  -- Endpoints that occur have a first edge between them, and others are not merged.
  constructor
  · intro ⟨ends, _, made⟩
    split at made
    · simp at made
    · rename_i first later split
      rw [Option.some.injEq] at made
      have own : first ∈ edges.filter fun placed => placed.ends = ends := split ▸ List.mem_cons_self
      have same : placed.ends = ends := by
        rw [← made, ends_merge]
        simpa using (List.mem_filter.mp own).2
      exact ⟨first, later, same ▸ split, made.symm⟩
  · rintro ⟨first, later, split, rfl⟩
    have own := split ▸ List.mem_cons_self (a := first) (l := later)
    refine ⟨_, List.mem_dedup.mpr (List.mem_map_of_mem (List.mem_filter.mp own).1), ?_⟩
    rw [ends_merge] at split
    rw [split]

/-- No two edges are left between the same endpoints. -/
theorem mergeParallel_distinct (policy : MergePolicy) (edges : List PlacedEdge) :
    ((mergeParallel policy edges).map PlacedEdge.ends).Nodup := by
  -- What is left has the endpoints of all edges, each of them once.
  have taken : (mergeParallel policy edges).map PlacedEdge.ends =
      (edges.map PlacedEdge.ends).dedup := by
    unfold mergeParallel
    rw [List.map_filterMap]
    conv_rhs => rw [← List.filterMap_some (l := (edges.map PlacedEdge.ends).dedup)]
    apply List.filterMap_congr
    intro ends member
    obtain ⟨own, held, rfl⟩ := List.mem_map.mp (List.mem_dedup.mp member)
    split
    · rename_i none_there
      rw [List.filter_eq_nil_iff] at none_there
      simpa using none_there own held
    · rename_i first later split
      have found : first ∈ edges.filter fun placed => placed.ends = own.ends :=
        split ▸ List.mem_cons_self
      rw [Option.map_some, ends_merge]
      simpa using (List.mem_filter.mp found).2
  rw [taken]
  exact List.nodup_dedup _

/-- Merging keeps to edges that share their fate with all parallel ones. -/
theorem mergeParallel_filter_perm {keeps : PlacedEdge → Bool}
    (alike : ∀ left right : PlacedEdge, left.ends = right.ends → keeps left = keeps right)
    (policy : MergePolicy) (edges : List PlacedEdge) :
    (mergeParallel policy (edges.filter keeps)).Perm ((mergeParallel policy edges).filter keeps) := by
  have distinct := (mergeParallel_distinct policy (edges.filter keeps)).of_map
  have distinctAll := (mergeParallel_distinct policy edges).of_map
  -- Merged edges are different on both sides, which leaves their members to compare.
  rw [List.perm_ext_iff_of_nodup distinct (distinctAll.filter _)]
  intro placed
  rw [List.mem_filter, mem_mergeParallel, mem_mergeParallel, List.filter_filter]
  -- The filter keeps all edges between two endpoints or none of them.
  cases keep : keeps placed with
  | true =>
    have same : edges.filter (fun other => decide (other.ends = placed.ends) && keeps other) =
        edges.filter fun other => other.ends = placed.ends := by
      apply List.filter_congr
      intro other _
      by_cases equal : other.ends = placed.ends
      · simp [equal, alike _ _ equal, keep]
      · simp [equal]
    simp [same]
  | false =>
    have none_left : edges.filter (fun other => decide (other.ends = placed.ends) && keeps other) =
        [] := by
      rw [List.filter_eq_nil_iff]
      intro other _
      by_cases equal : other.ends = placed.ends
      · simp [equal, alike _ _ equal, keep]
      · simp [equal]
    simp [none_left]

/-- An edge is there, or it is the missing reverse of one that is no self-loop. -/
theorem mem_addReverses {edges : List PlacedEdge} {placed : PlacedEdge} :
    placed ∈ addReverses edges ↔ placed ∈ edges ∨ ∃ origin ∈ edges, origin.edge.src ≠ origin.edge.dst ∧
      (∀ other ∈ edges, other.ends ≠ origin.reversed.ends) ∧ placed = origin.reversed := by
  -- Whether a reverse is added is told by the endpoints alone.
  have missing : ∀ origin : PlacedEdge, (!origin.isSelfLoop &&
      !edges.any fun other => other.ends = origin.reversed.ends) = true ↔
      origin.edge.src ≠ origin.edge.dst ∧ ∀ other ∈ edges, other.ends ≠ origin.reversed.ends := by
    intro origin
    simp
  unfold addReverses
  rw [List.mem_append, List.mem_map]
  constructor
  · rintro (member | ⟨origin, member, rfl⟩)
    · exact .inl member
    · obtain ⟨held, lacks⟩ := List.mem_filter.mp member
      obtain ⟨proper, lacks⟩ := (missing origin).mp lacks
      exact .inr ⟨origin, held, proper, lacks, rfl⟩
  · rintro (member | ⟨origin, held, proper, lacks, rfl⟩)
    · exact .inl member
    · exact .inr ⟨origin, List.mem_filter.mpr ⟨held, (missing origin).mpr ⟨proper, lacks⟩⟩, rfl⟩

/-- Adding reverses keeps to edges that share their fate with all parallel ones and all reverses. -/
theorem addReverses_filter {keeps : PlacedEdge → Bool}
    (alike : ∀ left right : PlacedEdge, left.ends = right.ends → keeps left = keeps right)
    (symmetric : ∀ placed : PlacedEdge, keeps placed.reversed = keeps placed)
    (edges : List PlacedEdge) :
    addReverses (edges.filter keeps) = (addReverses edges).filter keeps := by
  unfold addReverses
  rw [List.filter_append, List.filter_map, List.filter_filter, List.filter_filter]
  congr 2
  apply List.filter_congr
  intro placed _
  simp only [Function.comp_apply, symmetric]
  cases keep : keeps placed with
  | false => simp
  | true =>
    -- A reverse that is there is kept as well.
    have same : ((edges.filter keeps).any fun other => other.ends = placed.reversed.ends) =
        edges.any fun other => other.ends = placed.reversed.ends := by
      rw [List.any_filter]
      congr 1
      funext other
      by_cases equal : other.ends = placed.reversed.ends
      · simp [equal, alike _ _ equal, symmetric, keep]
      · simp [equal]
    simp [same]

/-- Adding reverses does not depend on the order of the edges. -/
theorem addReverses_perm {edges others : List PlacedEdge} (same : edges.Perm others) :
    (addReverses edges).Perm (addReverses others) := by
  unfold addReverses
  refine same.append (List.Perm.map _ ?_)
  -- The same endpoints occur in both orders.
  have lists : (fun placed : PlacedEdge => !placed.isSelfLoop &&
      !edges.any fun other => other.ends = placed.reversed.ends) =
      fun placed => !placed.isSelfLoop && !others.any fun other => other.ends = placed.reversed.ends := by
    funext placed
    rw [same.any_eq]
  rw [lists]
  exact same.filter _

/-- Cleaning up keeps to edges that share their fate with all that they may meet. -/
theorem clean_filter_perm {keeps : PlacedEdge → Bool} {closeUnderReversal : Bool}
    (alike : ∀ left right : PlacedEdge, left.ends = right.ends → keeps left = keeps right)
    (symmetric : closeUnderReversal = true →
      ∀ placed : PlacedEdge, keeps placed.reversed = keeps placed)
    (policy : MergePolicy) (edges : List PlacedEdge) :
    (clean policy closeUnderReversal (edges.filter keeps)).Perm
      ((clean policy closeUnderReversal edges).filter keeps) := by
  -- Parallel edges are all kept or all dropped, so that each group is merged as a whole or not at all.
  have merged : (if policy = .keepAll then edges.filter keeps
      else mergeParallel policy (edges.filter keeps)).Perm
      ((if policy = .keepAll then edges else mergeParallel policy edges).filter keeps) := by
    split
    · exact List.Perm.refl _
    · exact mergeParallel_filter_perm alike policy edges
  unfold clean
  cases closeUnderReversal with
  | false => exact merged
  | true =>
    -- An edge is kept with its reverse, so that no reverse is missing just because it was dropped.
    simp only [if_true]
    rw [← addReverses_filter alike (symmetric rfl)]
    exact addReverses_perm merged

/-- Merged edges stand in positions of their own. -/
theorem position_inj_merged {policy : MergePolicy} {edges : List PlacedEdge}
    (distinct : (edges.map PlacedEdge.position).Nodup) {left right : PlacedEdge}
    (leftMember : left ∈ if policy = .keepAll then edges else mergeParallel policy edges)
    (rightMember : right ∈ if policy = .keepAll then edges else mergeParallel policy edges)
    (same : left.position = right.position) : left = right := by
  split at leftMember
  · rename_i keeps
    rw [if_pos keeps] at rightMember
    exact List.inj_on_of_nodup_map distinct leftMember rightMember same
  · rename_i merges
    rw [if_neg merges] at rightMember
    obtain ⟨leftFirst, leftLater, leftSplit, rfl⟩ := mem_mergeParallel.mp leftMember
    obtain ⟨rightFirst, rightLater, rightSplit, rfl⟩ := mem_mergeParallel.mp rightMember
    -- Edges that were merged into one have the position of the first of them.
    rw [position_merge, position_merge] at same
    have leftFound := leftSplit ▸ List.mem_cons_self (a := leftFirst) (l := leftLater)
    have rightFound := rightSplit ▸ List.mem_cons_self (a := rightFirst) (l := rightLater)
    have first : leftFirst = rightFirst := List.inj_on_of_nodup_map distinct
      (List.mem_of_mem_filter leftFound) (List.mem_of_mem_filter rightFound) same
    subst first
    rw [ends_merge] at leftSplit rightSplit
    obtain ⟨-, later⟩ := List.cons.inj (leftSplit.symm.trans rightSplit)
    rw [later]

/-- Cleaned up edges differ in their endpoints or in their position. -/
theorem clean_inj {policy : MergePolicy} {closeUnderReversal : Bool} {edges : List PlacedEdge}
    (distinct : (edges.map PlacedEdge.position).Nodup) {left right : PlacedEdge}
    (leftMember : left ∈ clean policy closeUnderReversal edges)
    (rightMember : right ∈ clean policy closeUnderReversal edges)
    (ends : left.ends = right.ends) (position : left.position = right.position) : left = right := by
  unfold clean at leftMember rightMember
  cases closeUnderReversal with
  | false => exact position_inj_merged distinct leftMember rightMember position
  | true =>
    rcases mem_addReverses.mp leftMember with leftOwn | ⟨leftOrigin, leftHeld, leftProper, -, rfl⟩
    · rcases mem_addReverses.mp rightMember with rightOwn | ⟨origin, held, proper, -, rfl⟩
      · exact position_inj_merged distinct leftOwn rightOwn position
      · -- An edge is not the reverse that was added for it.
        have same := position_inj_merged distinct leftOwn held position
        subst same
        exact absurd (Prod.mk.inj ends).1 proper
    · rcases mem_addReverses.mp rightMember with rightOwn | ⟨origin, held, proper, -, rfl⟩
      · have same := position_inj_merged distinct leftHeld rightOwn position
        subst same
        exact absurd (Prod.mk.inj ends).2 leftProper
      · have same := position_inj_merged distinct leftHeld held position
        rw [same]

/-- Cleaning up leaves no endpoints that were not there, at most turned around. -/
theorem exists_of_mem_clean {policy : MergePolicy} {closeUnderReversal : Bool}
    {edges : List PlacedEdge} {placed : PlacedEdge} (member : placed ∈ clean policy closeUnderReversal edges) :
    ∃ origin ∈ edges, placed.ends = origin.ends ∨
      closeUnderReversal = true ∧ placed.ends = origin.reversed.ends := by
  have merged : ∀ edge ∈ (if policy = .keepAll then edges else mergeParallel policy edges),
      ∃ origin ∈ edges, edge.ends = origin.ends := by
    intro edge held
    split at held
    · exact ⟨edge, held, rfl⟩
    · obtain ⟨first, later, found, rfl⟩ := mem_mergeParallel.mp held
      have own := found ▸ List.mem_cons_self (a := first) (l := later)
      exact ⟨first, List.mem_of_mem_filter own, ends_merge policy first later⟩
  unfold clean at member
  cases closeUnderReversal with
  | false =>
    obtain ⟨origin, held, ends⟩ := merged placed member
    exact ⟨origin, held, .inl ends⟩
  | true =>
    rcases mem_addReverses.mp member with own | ⟨edge, own, -, -, rfl⟩
    · obtain ⟨origin, held, ends⟩ := merged placed own
      exact ⟨origin, held, .inl ends⟩
    · -- The reverse of a merged edge is a reverse of the edges that it stands for.
      obtain ⟨origin, held, ends⟩ := merged edge own
      refine ⟨origin, held, .inr ⟨rfl, ?_⟩⟩
      obtain ⟨src, dst⟩ := Prod.mk.inj ends
      exact Prod.ext dst src

/-- Cleaning up loses no endpoints. -/
theorem exists_mem_clean (policy : MergePolicy) (closeUnderReversal : Bool)
    {edges : List PlacedEdge} {origin : PlacedEdge} (member : origin ∈ edges) :
    ∃ placed ∈ clean policy closeUnderReversal edges, placed.ends = origin.ends := by
  -- The first edge between the endpoints stands for all of them when they are merged.
  have merged : ∃ placed ∈ (if policy = .keepAll then edges else mergeParallel policy edges),
      placed.ends = origin.ends := by
    split
    · exact ⟨origin, member, rfl⟩
    · cases found : edges.filter fun other => other.ends = origin.ends with
      | nil => exact absurd (decide_eq_true rfl) (List.filter_eq_nil_iff.mp found origin member)
      | cons first later =>
        have own := found ▸ List.mem_cons_self (a := first) (l := later)
        have same : first.ends = origin.ends := of_decide_eq_true (List.mem_filter.mp own).2
        have ends : (first.merge policy later).ends = origin.ends := by
          rw [ends_merge, same]
        exact ⟨_, mem_mergeParallel.mpr ⟨first, later, ends ▸ found, rfl⟩, ends⟩
  obtain ⟨placed, held, ends⟩ := merged
  unfold clean
  cases closeUnderReversal with
  | false => exact ⟨placed, held, ends⟩
  | true => exact ⟨placed, mem_addReverses.mpr (.inl held), ends⟩

/-- There are at most as many reverses as edges. -/
theorem length_clean_le (policy : MergePolicy) (closeUnderReversal : Bool) (edges : List PlacedEdge) :
    (clean policy closeUnderReversal edges).length ≤ 2 * edges.length := by
  -- Merging takes away edges, and every edge that is left has one reverse at most.
  have merged : (if policy = .keepAll then edges else mergeParallel policy edges).length ≤
      edges.length := by
    split
    · exact Nat.le_refl _
    · refine Nat.le_trans (List.length_filterMap_le _ _) ?_
      exact Nat.le_trans (List.dedup_sublist _).length_le (Nat.le_of_eq (List.length_map _))
  unfold clean
  cases closeUnderReversal with
  | false =>
    simp only [Bool.false_eq_true, if_false]
    omega
  | true =>
    simp only [if_true, addReverses, List.length_append, List.length_map]
    have fewer := List.length_filter_le (fun placed : PlacedEdge => !placed.isSelfLoop &&
      !(if policy = .keepAll then edges else mergeParallel policy edges).any
        fun other => other.ends = placed.reversed.ends)
      (if policy = .keepAll then edges else mergeParallel policy edges)
    omega

/-- No edges are made before they are cleaned up. -/
theorem length_kept_le (options : Options) (edges : List Edge) :
    (kept options edges).length ≤ edges.length := by
  have all : (handedIn edges).length = edges.length := by simp [handedIn]
  -- At most self-loops are dropped.
  unfold kept
  split
  · exact Nat.le_trans (List.length_filter_le _ _) (Nat.le_of_eq all)
  · exact Nat.le_of_eq all

/-- Each edge that is handed in makes for two edges of the graph at most. -/
theorem length_processed_le (options : Options) (edges : List Edge) :
    (processed options edges).length ≤ 2 * edges.length := by
  -- Only reverses are added, and no more than one for each edge.
  have cleaned := length_clean_le options.mergePolicy options.addReverses (kept options edges)
  have stays := length_kept_le options edges
  unfold processed
  omega

/-- The edges of the graph lie between its vertices. -/
theorem ends_mem_vertices {options : Options} {edges : List Edge} (listed : List VertexId)
    {placed : PlacedEdge} (member : placed ∈ processed options edges) :
    placed.edge.src ∈ vertices options edges listed ∧
      placed.edge.dst ∈ vertices options edges listed := by
  have named : ∀ origin ∈ kept options edges, origin.edge.src ∈ vertices options edges listed ∧
      origin.edge.dst ∈ vertices options edges listed := by
    intro origin held
    unfold vertices
    constructor <;> exact List.mem_append_left _ (List.mem_flatMap.mpr ⟨origin, held, by simp⟩)
  -- An edge lies between the endpoints of one that was kept, in this direction or in the other.
  obtain ⟨origin, held, ends | ⟨-, ends⟩⟩ := exists_of_mem_clean member
  · obtain ⟨src, dst⟩ := Prod.mk.inj ends
    rw [src, dst]
    exact named origin held
  · obtain ⟨src, dst⟩ := Prod.mk.inj ends
    rw [src, dst]
    exact (named origin held).symm

/-- No vertices are lost while edges are cleaned up. -/
theorem mem_vertices_iff {options : Options} {edges : List Edge} {listed : List VertexId}
    {id : VertexId} : id ∈ vertices options edges listed ↔
      (∃ placed ∈ processed options edges, id = placed.edge.src ∨ id = placed.edge.dst) ∨
        id ∈ listed := by
  -- Every pair of endpoints that is kept leaves an edge between it.
  constructor
  · intro named
    rcases List.mem_append.mp named with ends | own
    · obtain ⟨origin, held, ends⟩ := List.mem_flatMap.mp ends
      obtain ⟨placed, member, same⟩ :=
        exists_mem_clean options.mergePolicy options.addReverses held
      obtain ⟨src, dst⟩ := Prod.mk.inj same
      refine .inl ⟨placed, member, ?_⟩
      rw [src, dst]
      simpa using ends
    · exact .inr own
  · intro named
    rcases named with ⟨placed, member, rfl | rfl⟩ | own
    · exact (ends_mem_vertices listed member).1
    · exact (ends_mem_vertices listed member).2
    · exact List.mem_append_right _ own

/-- The vertices are the endpoints of the edges that stay, and the listed ones. -/
theorem mem_vertices_iff_ends {options : Options} {edges : List Edge} {listed : List VertexId}
    {id : VertexId} : id ∈ vertices options edges listed ↔
      (∃ edge ∈ edges, (options.dropSelfLoops = true → edge.src ≠ edge.dst) ∧
        (id = edge.src ∨ id = edge.dst)) ∨ id ∈ listed := by
  -- An edge stays unless it is a self-loop that is to be dropped.
  have stay : ∀ edge, (∃ placed ∈ kept options edges, placed.edge = edge) ↔
      edge ∈ edges ∧ (options.dropSelfLoops = true → edge.src ≠ edge.dst) := by
    intro edge
    have all : edge ∈ edges ↔ ∃ placed ∈ handedIn edges, placed.edge = edge := by
      rw [← List.mem_map, map_edge_handedIn]
    rw [all, kept]
    cases options.dropSelfLoops with
    | false => simp
    | true =>
      simp only [if_true, List.mem_filter, PlacedEdge.isSelfLoop, forall_const, Bool.not_eq_true',
        beq_eq_false_iff_ne]
      constructor
      · rintro ⟨placed, ⟨held, apart⟩, rfl⟩
        exact ⟨⟨placed, held, rfl⟩, apart⟩
      · rintro ⟨⟨placed, held, rfl⟩, apart⟩
        exact ⟨placed, ⟨held, apart⟩, rfl⟩
  rw [vertices, List.mem_append, List.mem_flatMap]
  refine or_congr_left ⟨fun ⟨placed, held, ends⟩ => ?_, fun ⟨edge, held, apart, ends⟩ => ?_⟩
  · obtain ⟨member, apart⟩ := (stay placed.edge).mp ⟨placed, held, rfl⟩
    exact ⟨placed.edge, member, apart, by simpa using ends⟩
  · obtain ⟨placed, member, rfl⟩ := (stay edge).mpr ⟨held, apart⟩
    exact ⟨placed, member, by simpa using ends⟩

/-- Edges that are handed in stand in positions of their own, in ascending order. -/
theorem position_kept (options : Options) (edges : List Edge) :
    (kept options edges).Pairwise fun left right => left.position < right.position := by
  -- The positions count the edges, and dropping some keeps the order of the others.
  have all : (handedIn edges).Pairwise fun left right => left.position < right.position := by
    refine List.pairwise_map.mpr ?_
    rw [List.pairwise_iff_getElem]
    intro i j _ _ before
    simpa using before
  unfold kept
  split
  · exact all.filter _
  · exact all

/-- Edges are compared by their major endpoint, then by the other one, and then by their position. -/
theorem precedes_iff {transposed : Bool} {left right : PlacedEdge} :
    left.precedes transposed right = true ↔
      left.major transposed < right.major transposed ∨ left.major transposed = right.major transposed ∧
        (left.minor transposed < right.minor transposed ∨
          left.minor transposed = right.minor transposed ∧ left.position ≤ right.position) := by
  simp [PlacedEdge.precedes]

/-- Edges that precede each other have the same endpoints and position. -/
theorem precedes_antisymm {transposed : Bool} {left right : PlacedEdge}
    (before : left.precedes transposed right = true) (after : right.precedes transposed left = true) :
    left.ends = right.ends ∧ left.position = right.position := by
  rw [precedes_iff] at before after
  simp only [UInt64.lt_iff_toNat_lt, ← UInt64.toNat_inj] at before after
  -- Two words of which neither is less than the other are equal.
  have major : left.major transposed = right.major transposed := UInt64.toNat_inj.mp (by omega)
  have minor : left.minor transposed = right.minor transposed := UInt64.toNat_inj.mp (by omega)
  refine ⟨?_, by omega⟩
  cases transposed with
  | false => exact Prod.ext major minor
  | true => exact Prod.ext minor major

/-- Whether edges differ in their endpoints or in their position. -/
def Distinct (edges : List PlacedEdge) : Prop :=
  ∀ left ∈ edges, ∀ right ∈ edges,
    left.ends = right.ends → left.position = right.position → left = right

/-- Edges of the graph differ in their endpoints or position. -/
theorem processed_distinct (options : Options) (edges : List Edge) :
    Distinct (processed options edges) := by
  -- Merged edges keep the position of an edge that was handed in, and reverses have other endpoints.
  have positions : ((kept options edges).map PlacedEdge.position).Nodup :=
    List.pairwise_map.mpr ((position_kept options edges).imp Nat.ne_of_lt)
  intro left leftMember right rightMember ends position
  exact clean_inj positions leftMember rightMember ends position

/-- Reverses that are added were not there before, so no edge is there twice. -/
theorem addReverses_nodup {edges : List PlacedEdge} (once : edges.Nodup) : (addReverses edges).Nodup := by
  have turned : Function.Injective PlacedEdge.reversed :=
    Function.LeftInverse.injective (g := PlacedEdge.reversed) fun _ => rfl
  -- Edges that were there are no reverses that were missing.
  refine List.nodup_append'.mpr ⟨once, (once.filter _).map turned, fun placed own added => ?_⟩
  obtain ⟨origin, missing, rfl⟩ := List.mem_map.mp added
  have lacks := (List.mem_filter.mp missing).2
  simp only [Bool.and_eq_true, Bool.not_eq_true', List.any_eq_false, decide_eq_true_eq] at lacks
  exact lacks.2 _ own rfl

/-- No edge of the graph is there twice. -/
theorem processed_nodup (options : Options) (edges : List Edge) : (processed options edges).Nodup := by
  -- What is kept differs by position, and what is merged by endpoints.
  have kept : (kept options edges).Nodup := (position_kept options edges).imp fun before same =>
    Nat.ne_of_lt before (congrArg PlacedEdge.position same)
  have merged : (if options.mergePolicy = .keepAll then Reference.kept options edges
      else mergeParallel options.mergePolicy (Reference.kept options edges)).Nodup := by
    split
    · exact kept
    · exact (mergeParallel_distinct _ _).of_map
  unfold processed clean
  cases options.addReverses with
  | false => exact merged
  | true => exact addReverses_nodup merged

/-- Some of the edges differ all the more. -/
theorem Distinct.filter {edges : List PlacedEdge} (distinct : Distinct edges) (keeps : PlacedEdge → Bool) :
    Distinct (edges.filter keeps) :=
  fun left leftMember right rightMember =>
    distinct left (List.mem_of_mem_filter leftMember) right (List.mem_of_mem_filter rightMember)

/-- Merging sorted halves puts edges in order. -/
theorem mergeSort_sorted (transposed : Bool) (edges : List PlacedEdge) :
    (edges.mergeSort (PlacedEdge.precedes transposed)).Pairwise
      fun left right => left.precedes transposed right = true := by
  -- The order is transitive and total.
  refine List.pairwise_mergeSort ?_ ?_ edges
  · intro left middle right first second
    rw [precedes_iff] at *
    simp only [UInt64.lt_iff_toNat_lt, ← UInt64.toNat_inj] at *
    omega
  · intro left right
    rw [Bool.or_eq_true, precedes_iff, precedes_iff]
    simp only [UInt64.lt_iff_toNat_lt, ← UInt64.toNat_inj]
    omega

/-- There is one way only to put edges in order that differ in their endpoints or position. -/
theorem eq_mergeSort_of_sorted {transposed : Bool} {edges arranged : List PlacedEdge}
    (distinct : Distinct edges) (same : arranged.Perm edges)
    (sorted : arranged.Pairwise fun left right => left.precedes transposed right = true) :
    arranged = edges.mergeSort (PlacedEdge.precedes transposed) := by
  -- Two lists of the same edges in order agree if no two edges can change places.
  refine List.Perm.eq_of_pairwise ?_ sorted (mergeSort_sorted transposed edges)
    (same.trans (List.mergeSort_perm _ _).symm)
  intro left right leftMember rightMember before after
  obtain ⟨ends, position⟩ := precedes_antisymm before after
  exact distinct left (same.subset leftMember) right
    ((List.mergeSort_perm _ _).subset rightMember) ends position

end Reference

end DistGraph
