import DistGraph.Construction.Checks
import DistGraph.Numbering.Assign
import DistGraph.Proofs.Routing.Exchange
import DistGraph.Proofs.Routing.Placement
import DistGraph.Proofs.Runs
import DistGraph.Proofs.Search
import DistGraph.Proofs.Sorter

/-! What inputs pass the checks of a construction. -/

namespace DistGraph

variable {size : Nat}

namespace Construction

/-- A value that all ranks have is no difference between them. -/
@[simp] theorem allEqual_ofFn (value : UInt64) :
    allEqual (Vector.ofFn fun _ : Fin size => value).toList = true := by
  unfold allEqual
  rw [Vector.toList_ofFn, List.all_eq_true]
  intro held member
  -- Every entry is the value, the first one included.
  obtain ⟨rank, rfl⟩ := List.mem_ofFn.mp member
  cases size with
  | zero => exact rank.elim0
  | succ size => simp [List.ofFn_succ]

/-- Ranks that were given the same options find no difference. -/
theorem compareOptions_computes (options : Options) :
    Computes (fun _ : Fin size => (compareOptions options : Program size Failure Unit))
      (· = fun _ => ()) := by
  refine (Communicator.allGather_computes Wire.word fun _ => options.fingerprint).mapError.after ?_
  simp only [allEqual_ofFn, if_true]
  exact (Computes.pure fun _ => ()).congr fun _ => iff_of_true rfl trivial

/-- The mark of a verdict, which tells the other ranks of a rejection. -/
def mark (verdict : Verdict) : UInt8 :=
  match verdict with
  | .ok () => 0
  | .error _ => 1

/-- What a rank makes of its verdict and the marks of all ranks. -/
def settled (verdict : Verdict) (marks : List UInt8) : Except Failure Unit :=
  match verdict with
  | .error fault => .error (.rejected fault)
  | .ok () =>
    match marks.findIdx? (· ≠ 0) with
    | some rank => .error (.rejected (.rejectedBy rank))
    | none => .ok ()

/-- Ranks gather the marks of all verdicts before any of them stops. -/
theorem settle_eq (verdict : Verdict) :
    (settle verdict : Program size Failure Unit) =
      ((Communicator.allGather Wire.byte (mark verdict)).mapError Failure.ofGraph >>= fun marks =>
        Program.ofExcept (settled verdict marks.toList)) := by
  unfold settle settled
  -- A rank that rejects its input still takes part in the exchange.
  cases verdict with
  | error fault => rfl
  | ok =>
    refine bind_congr fun marks => ?_
    dsimp only
    cases marks.toList.findIdx? (· ≠ 0) <;> rfl

/-- The marks of the verdicts of all ranks. -/
def marks (verdicts : Fin size → Verdict) : List UInt8 :=
  List.ofFn fun rank => mark (verdicts rank)

/-- A rank goes on if no rank rejects anything. -/
theorem settled_eq_ok {verdicts : Fin size → Verdict} (accepted : ∀ rank, verdicts rank = .ok ())
    (rank : Fin size) : settled (verdicts rank) (marks verdicts) = .ok () := by
  -- A verdict in favour has the mark zero.
  have none_marked : (marks verdicts).findIdx? (· ≠ 0) = none := by
    rw [List.findIdx?_eq_none_iff]
    intro value member
    obtain ⟨peer, rfl⟩ := List.mem_ofFn.mp member
    simp [accepted, mark]
  unfold settled
  rw [accepted rank]
  dsimp only
  rw [none_marked]

/-- Every rank is told of a rejection by any rank. -/
theorem exists_settled_eq_error {verdicts : Fin size → Verdict} {culprit : Fin size}
    (rejected : verdicts culprit ≠ .ok ()) (rank : Fin size) :
    ∃ fault, settled (verdicts rank) (marks verdicts) = .error (.rejected fault) := by
  unfold settled
  -- A rank tells its own fault if it has one, and otherwise the first mark that it finds.
  cases own : verdicts rank with
  | error fault => exact ⟨fault, rfl⟩
  | ok =>
    have marked : mark (verdicts culprit) ≠ 0 := by
      cases found : verdicts culprit with
      | ok => exact absurd found rejected
      | error fault => simp [mark]
    dsimp only
    cases first : (marks verdicts).findIdx? (· ≠ 0) with
    | some peer => exact ⟨_, rfl⟩
    | none =>
      have unmarked := List.findIdx?_eq_none_iff.mp first _ (List.mem_ofFn.mpr ⟨culprit, rfl⟩)
      exact absurd (by simpa using unmarked) marked

/-- Ranks go on from their verdicts exactly if none of these is a rejection. -/
theorem settle_computes (verdicts : Fin size → Verdict) :
    Computes (fun rank => (settle (verdicts rank) : Program size Failure Unit)) fun results =>
      (∀ rank, verdicts rank = .ok ()) ∧ results = fun _ => () := by
  -- Gathering the marks fails on no rank, so that the outcome is what each rank makes of them.
  rw [funext fun rank => settle_eq (verdicts rank)]
  refine (Communicator.allGather_computes Wire.byte fun rank => mark (verdicts rank)).mapError.after ?_
  refine (Computes.require _).congr fun results => and_congr_left fun _ => ?_
  rw [Vector.toList_ofFn]
  constructor
  · intro passed rank
    have own := passed rank
    unfold settled at own
    cases verdict : verdicts rank with
    | ok => rfl
    | error fault => simp [verdict] at own
  · exact settled_eq_ok

/-- A rank accepts ids under a vertex count exactly if they are below it. -/
@[simp] theorem checkBounds_eq_ok_iff {limit : UInt64} {ids : List VertexId} :
    checkBounds (some limit) ids = .ok () ↔ ∀ id ∈ ids, id < limit := by
  -- The check searches for an id that is too great.
  have found : (ids.find? fun id => limit ≤ id) = none ↔ ∀ id ∈ ids, id < limit := by
    simp [List.find?_eq_none]
  rw [← found]
  unfold checkBounds
  dsimp only
  cases ids.find? fun id => limit ≤ id <;> simp

/-- A rank accepts edges exactly if all weights are finite. -/
@[simp] theorem checkWeights_eq_ok_iff {edges : List Edge} : checkWeights edges = .ok () ↔
    ∀ edge ∈ edges, ∀ weight, edge.weight = some weight → weight.isFinite = true := by
  -- The check searches for a weight that is not finite.
  have found : (edges.findSome? fun edge => (edge.weight.filter (!·.isFinite)).map (edge, ·)) = none ↔
      ∀ edge ∈ edges, ∀ weight, edge.weight = some weight → weight.isFinite = true := by
    simp [List.findSome?_eq_none_iff, Option.filter_eq_none_iff]
  rw [← found]
  unfold checkWeights
  cases edges.findSome? fun edge => (edge.weight.filter (!·.isFinite)).map (edge, ·) <;> simp

/-- A rank accepts what it is given itself exactly if all weights are finite and all ids are below a
vertex count that is given. -/
theorem checkOwn_eq_ok_iff {edges : List Edge} {vertices : List VertexId} {options : Options} :
    checkOwn edges vertices options = .ok () ↔
      (∀ edge ∈ edges, ∀ weight, edge.weight = some weight → weight.isFinite = true) ∧
      ∀ limit, options.vertexCount = some limit → ∀ id ∈ endpoints edges ++ vertices, id < limit := by
  -- Without a vertex count there is no bound to keep.
  have bounds : checkBounds options.vertexCount (endpoints edges ++ vertices) = .ok () ↔
      ∀ limit, options.vertexCount = some limit → ∀ id ∈ endpoints edges ++ vertices, id < limit := by
    cases options.vertexCount with
    | none => simp [checkBounds]
    | some limit => simp only [checkBounds_eq_ok_iff, Option.some.injEq, forall_eq']
  rw [← checkWeights_eq_ok_iff, ← bounds]
  unfold checkOwn
  cases checkWeights edges with
  | error fault => exact iff_of_false (fun passed => nomatch passed) fun both => nomatch both.1
  | ok passed => exact (and_iff_right rfl).symm

/-- What a rank accepts names no vertex outside a vertex count that is given. -/
theorem lt_of_checkOwn {edges : List Edge} {vertices : List VertexId} {options : Options}
    {limit : UInt64} (given : options.vertexCount = some limit)
    (passed : checkOwn edges vertices options = .ok ()) :
    ∀ id ∈ endpoints edges ++ vertices, id < limit :=
  (checkOwn_eq_ok_iff.mp passed).2 limit given

/-- Sorted ids have no equal neighbours exactly if no id is there twice. -/
@[simp] theorem repeated?_eq_none_iff {sorted : List VertexId} (ascending : sorted.Pairwise (· ≤ ·)) :
    repeated? sorted = none ↔ sorted.Nodup := by
  fun_induction repeated? sorted with
  | case1 first rest =>
    simp
  | case2 first second rest different ih =>
    obtain ⟨below, ascendingRest⟩ := List.pairwise_cons.mp ascending
    rw [ih ascendingRest, List.nodup_cons (a := first)]
    -- In ascending order an id could be repeated only right behind itself.
    have fresh : first ∉ second :: rest := by
      intro member
      rcases List.mem_cons.mp member with same | later
      · exact different same
      · have upper := (List.pairwise_cons.mp ascendingRest).1 first later
        exact different (UInt64.le_antisymm (below second List.mem_cons_self) upper)
    exact (and_iff_right fresh).symm
  | case3 only => simp
  | case4 => simp

/-- An id is found in a sorted list exactly if it is there. -/
theorem listed_iff {sorted : List VertexId} {vertex : VertexId}
    (ascending : sorted.Pairwise (· ≤ ·)) :
    listed sorted.toArray vertex = true ↔ vertex ∈ sorted := by
  -- Binary search finds what is there in a sorted list, compared as words.
  unfold listed
  rw [List.size_toArray, Search.find?_key_iff vertex.toNat (ascending.imp UInt64.le_iff_toNat_le.mp)]
  · simp only [UInt64.toNat_inj, exists_eq_right]
  · intro i inside
    rw [List.getElem?_toArray, List.getElem?_eq_getElem inside]
    exact compare_uint64 _ vertex

/-- Reducing equal neighbours to one leaves the same ids. -/
@[simp] theorem mem_distinct {sorted : List VertexId} {vertex : VertexId}
    (ascending : sorted.Pairwise (· ≤ ·)) : vertex ∈ distinct sorted ↔ vertex ∈ sorted := by
  -- The runs of a sorted list are all equal ids, of which the first is kept.
  have equal : ∀ left right : VertexId, (left == right) = true ↔ left.toNat = right.toNat := by
    simp [UInt64.toNat_inj]
  obtain ⟨whole, -⟩ := runs_sorted equal (ascending.imp UInt64.le_iff_toNat_le.mp)
  unfold distinct
  rw [List.mem_map]
  constructor
  · rintro ⟨run, member, rfl⟩
    exact fst_mem_of_mem_runs member
  · intro member
    obtain ⟨run, runMember, inside⟩ := exists_run_of_mem (fun left right => left == right) member
    refine ⟨run, runMember, ?_⟩
    rw [whole run runMember] at inside
    exact (UInt64.toNat_inj.mp (of_decide_eq_true (List.mem_filter.mp inside).2)).symm

/-- A rank accepts the vertices and endpoints that reach it if no vertex does so twice and every
endpoint does so as a vertex. -/
theorem checkListed_eq_ok_iff {sorted used : List VertexId} (ascending : sorted.Pairwise (· ≤ ·)) :
    checkListed sorted used = .ok () ↔ sorted.Nodup ∧ ∀ vertex ∈ used, vertex ∈ sorted := by
  unfold checkListed
  -- Repeated vertices are looked for first, then endpoints that are missing.
  rw [← repeated?_eq_none_iff ascending]
  cases repeated? sorted with
  | some vertex => simp
  | none =>
    have found : (used.find? fun vertex => !listed sorted.toArray vertex) = none ↔
        ∀ vertex ∈ used, vertex ∈ sorted := by
      simp [List.find?_eq_none, listed_iff ascending]
    rw [← found]
    dsimp only
    cases used.find? fun vertex => !listed sorted.toArray vertex <;> simp

/-- Vertices that all ranks list are told apart on the ranks that number them. -/
theorem nodup_bound_iff {vertices : Fin size → List VertexId} :
    (∀ rank : Fin size, (Grouping.bound (Numbering.assigner size) (everything vertices) rank).Nodup) ↔
      (everything vertices).Nodup := by
  refine ⟨fun apart => ?_, fun apart rank => apart.filter _⟩
  rw [List.nodup_iff_count_le_one]
  intro vertex
  by_cases member : vertex ∈ everything vertices
  · -- All occurrences of a vertex reach the same rank.
    obtain ⟨rank, goes⟩ := exists_home_of_mem member vertex
    have once := List.nodup_iff_count_le_one.mp (apart rank) vertex
    rwa [Grouping.bound, List.count_filter
      (p := fun vertex => decide (Numbering.assigner size vertex = .ok rank.val))
      (decide_eq_true goes)] at once
  · rw [List.count_eq_zero_of_not_mem member]
    exact Nat.zero_le 1

/-- The endpoints of edges are their sources and destinations. -/
@[simp] theorem mem_endpoints {edges : List Edge} {vertex : VertexId} :
    vertex ∈ endpoints edges ↔ ∃ edge ∈ edges, vertex = edge.src ∨ vertex = edge.dst := by
  simp [endpoints]

/-- The endpoints that a rank asks about are those of its edges. -/
@[simp] theorem mem_distinct_endpoints {sorter : Sorter} (lawful : sorter.Lawful) {edges : List Edge}
    {vertex : VertexId} :
    vertex ∈ distinct (sorter.vertices (endpoints edges)) ↔ vertex ∈ endpoints edges := by
  rw [mem_distinct (lawful.vertices_sorted _)]
  exact (lawful.vertices_perm _).mem_iff

/-- Endpoints that reach a rank were listed if and only if they were listed there. -/
theorem listed_bound_iff {vertices used : Fin size → List VertexId} :
    (∀ rank : Fin size, ∀ vertex ∈ Grouping.bound (Numbering.assigner size) (everything used) rank,
        vertex ∈ Grouping.bound (Numbering.assigner size) (everything vertices) rank) ↔
      ∀ vertex ∈ everything used, vertex ∈ everything vertices := by
  simp only [Grouping.bound, List.mem_filter, decide_eq_true_eq]
  -- Equal ids reach the same rank, so that it can be told there.
  constructor
  · intro each vertex member
    obtain ⟨rank, goes⟩ := exists_home_of_mem member vertex
    exact (each rank vertex ⟨member, goes⟩).1
  · rintro each rank vertex ⟨member, goes⟩
    exact ⟨each vertex member, goes⟩

section Lists

variable (members : Fin size → Member size) (edges : Fin size → List Edge)
  (vertices : Fin size → List VertexId)

/-- The endpoints that the ranks ask about. -/
def asked (rank : Fin size) : List VertexId :=
  distinct ((members rank).sorter.vertices (endpoints (edges rank)))

/-- Whether the ranks can carry the vertices and endpoints that are compared between them. -/
structure Comparable : Prop where
  /-- All vertices reach the ranks that number them. -/
  vertices : Routing.Deliverable members Wire.vertex (Numbering.assigner size) vertices
  /-- All endpoints do as well. -/
  endpoints : Routing.Deliverable members Wire.vertex (Numbering.assigner size) (asked members edges)

/-- The ranks agree on whether any of them lists a vertex. -/
@[simp] theorem greatest_eq_zero_iff :
    Communicator.greatest (List.ofFn fun rank => if (vertices rank).isEmpty then 0 else 1) = 0 ↔
      everything vertices = [] := by
  constructor
  · intro none_marked
    refine List.eq_nil_iff_forall_not_mem.mpr fun vertex member => ?_
    obtain ⟨rank, held⟩ := mem_everything.mp member
    -- A rank that lists something marks itself with one.
    have above := Communicator.le_greatest
      (List.ofFn fun rank => if (vertices rank).isEmpty then 0 else 1) 1
      (List.mem_ofFn.mpr ⟨rank, if_neg (by simpa using List.ne_nil_of_mem held)⟩)
    rw [none_marked] at above
    exact absurd above (by decide)
  · intro none_there
    have each : (fun rank : Fin size => if (vertices rank).isEmpty then (0 : UInt64) else 1) =
        fun _ => 0 := by
      funext rank
      have own : vertices rank = [] := List.eq_nil_iff_forall_not_mem.mpr fun vertex member =>
        List.eq_nil_iff_forall_not_mem.mp none_there vertex (mem_everything.mpr ⟨rank, member⟩)
      simp [own]
    rw [each, List.ofFn_const]
    -- Of any number of zeros the greatest is zero.
    have stays : ∀ number, Communicator.greatest (List.replicate number 0) = 0 := by
      intro number
      induction number with
      | zero => rfl
      | succ number ih => exact ih
    exact stays size

/-- What the ranks make of their lists of vertices. -/
theorem checkList_computes :
    Computes (fun rank => checkList (members rank) (edges rank) (vertices rank)) fun verdicts =>
      (everything vertices ≠ [] → Comparable members edges vertices) ∧
      verdicts = fun rank => if everything vertices = [] then .ok () else
        checkListed ((members rank).sorter.vertices
            (Grouping.bound (Numbering.assigner size) (everything vertices) rank))
          (Grouping.bound (Numbering.assigner size) (everything (asked members edges)) rank) := by
  refine (Communicator.allReduce_max_computes _).mapError.after ?_
  simp only [greatest_eq_zero_iff]
  -- Nothing is sent if no rank lists a vertex.
  by_cases none_there : everything vertices = []
  · simp only [none_there, if_true]
    refine (Computes.pure _).congr fun verdicts => ?_
    simp
  · simp only [none_there, if_false]
    refine Computes.congr
      (Computes.afterIf _ (Routing.send_computes members Wire.vertex (Numbering.assigner size) vertices)
        fun _ => Computes.afterIf _ (Routing.send_computes members Wire.vertex (Numbering.assigner size)
          (asked members edges)) fun _ => Computes.pure _) fun verdicts => ?_
    simp only [Grouped.items_ofGroups, Routing.everything_bound]
    constructor
    · rintro ⟨named, used, known⟩
      exact ⟨fun _ => ⟨named, used⟩, known⟩
    · rintro ⟨comparable, known⟩
      exact ⟨(comparable none_there).vertices, (comparable none_there).endpoints, known⟩

variable (options : Options)

/-- Whether what the ranks are given passes all checks. -/
structure Accepted : Prop where
  /-- Every rank accepts what it is given itself. -/
  own : ∀ rank, checkOwn (edges rank) (vertices rank) options = .ok ()
  /-- No vertex is listed twice. -/
  once : options.check = true → (everything vertices).Nodup
  /-- If any vertex is listed, all endpoints are. -/
  listed : options.check = true → everything vertices ≠ [] →
    ∀ vertex ∈ endpoints (everything edges), vertex ∈ everything vertices

variable {members edges vertices}

/-- The endpoints that all ranks ask about are those of all edges. -/
theorem mem_everything_asked (lawful : ∀ rank, (members rank).sorter.Lawful) {vertex : VertexId} :
    vertex ∈ everything (asked members edges) ↔ vertex ∈ endpoints (everything edges) := by
  simp only [mem_everything, asked, mem_distinct_endpoints (lawful _), mem_endpoints]
  -- Every rank asks about the endpoints of its own edges.
  constructor
  · rintro ⟨rank, edge, held, named⟩
    exact ⟨edge, ⟨rank, held⟩, named⟩
  · rintro ⟨edge, ⟨rank, held⟩, named⟩
    exact ⟨rank, edge, held, named⟩

/-- An edge has two endpoints at most that its rank asks about. -/
theorem length_everything_asked_le (lawful : ∀ rank, (members rank).sorter.Lawful) :
    (everything (asked members edges)).length ≤ 2 * (everything edges).length := by
  apply length_everything_le
  intro rank
  have all : (endpoints (edges rank)).length = 2 * (edges rank).length := by
    simp [endpoints, List.length_flatMap, Nat.mul_comm]
  have sorted := ((lawful rank).vertices_perm (endpoints (edges rank))).length_eq
  -- Each rank asks about an id once, however often it is an endpoint.
  have fewer := length_runs_le (fun left right : VertexId => left == right)
    ((members rank).sorter.vertices (endpoints (edges rank)))
  unfold asked distinct
  rw [List.length_map]
  omega

/-- No rank finds fault with the lists exactly if no vertex is listed twice and no endpoint is
missing. -/
theorem verdicts_eq_ok_iff (lawful : ∀ rank, (members rank).sorter.Lawful) :
    (∀ rank, (if everything vertices = [] then .ok () else
        checkListed ((members rank).sorter.vertices
            (Grouping.bound (Numbering.assigner size) (everything vertices) rank))
          (Grouping.bound (Numbering.assigner size) (everything (asked members edges)) rank)) =
        (.ok () : Verdict)) ↔
      (everything vertices).Nodup ∧ (everything vertices ≠ [] →
        ∀ vertex ∈ endpoints (everything edges), vertex ∈ everything vertices) := by
  -- Without any list there is no verdict to come to.
  by_cases none_there : everything vertices = []
  · simp [none_there]
  · have sorted : ∀ rank vertex, vertex ∈ (members rank).sorter.vertices
        (Grouping.bound (Numbering.assigner size) (everything vertices) rank) ↔
        vertex ∈ Grouping.bound (Numbering.assigner size) (everything vertices) rank :=
      fun rank vertex => ((lawful rank).vertices_perm _).mem_iff
    have apart : ∀ rank, ((members rank).sorter.vertices
        (Grouping.bound (Numbering.assigner size) (everything vertices) rank)).Nodup ↔
        (Grouping.bound (Numbering.assigner size) (everything vertices) rank).Nodup :=
      fun rank => ((lawful rank).vertices_perm _).nodup_iff
    simp only [none_there, if_false, not_false_eq_true, ne_eq, true_implies,
      checkListed_eq_ok_iff ((lawful _).vertices_sorted _), sorted, apart, forall_and]
    rw [nodup_bound_iff, listed_bound_iff]
    simp only [mem_everything_asked lawful]

/-- Ranks get past the checks exactly if what they are given is accepted and they can carry what has
to be compared. -/
theorem checkInput_computes (lawful : ∀ rank, (members rank).sorter.Lawful) :
    Computes (fun rank => checkInput (members rank) (edges rank) (vertices rank) options) fun results =>
      (Accepted edges vertices options ∧
        (options.check = true → everything vertices ≠ [] → Comparable members edges vertices)) ∧
      results = fun _ => () := by
  unfold checkInput
  cases together : options.check with
  | false =>
    -- A rank that checks alone only has its own verdict to pass.
    refine (Computes.require fun rank => (checkOwn (edges rank) (vertices rank) options).mapError
      Failure.rejected).congr fun results => and_congr_left fun _ => ?_
    simp only [mapError_eq_ok_iff]
    constructor
    · intro own
      exact ⟨⟨own, by simp [together], by simp [together]⟩, by simp⟩
    · rintro ⟨accepted, _⟩
      exact accepted.own
  | true =>
    -- All verdicts are settled before the lists are compared, and these before anyone goes on.
    refine Computes.congr (Computes.after (compareOptions_computes options)
      (Computes.afterIf _ (settle_computes _) fun _ =>
        Computes.afterIf _ (checkList_computes members edges vertices) fun _ =>
          settle_computes _)) fun results => ?_
    rw [verdicts_eq_ok_iff lawful]
    constructor
    · rintro ⟨own, comparable, ⟨once, listed⟩, known⟩
      exact ⟨⟨⟨own, fun _ => once, fun _ => listed⟩, fun _ => comparable⟩, known⟩
    · rintro ⟨⟨accepted, comparable⟩, known⟩
      exact ⟨accepted.own, comparable rfl, ⟨accepted.once together, accepted.listed together⟩, known⟩

end Lists

end Construction

end DistGraph
