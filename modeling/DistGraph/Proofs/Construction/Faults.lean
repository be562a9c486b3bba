import DistGraph.Proofs.Construction.Refusal
import DistGraph.Proofs.Construction.VertexCount

/-! What there is to find fault with in the input of a construction, and who tells of it. -/

namespace DistGraph.Construction

variable {size : Nat}

/-- The faults of what a rank is given itself. -/
inductive OwnFault (edges : List Edge) (vertices : List VertexId) (options : Options) :
    InputFault → Prop where
  /-- An edge has a weight that is not finite. -/
  | weight {edge : Edge} {weight : Weight} (held : edge ∈ edges) (given : edge.weight = some weight)
      (infinite : weight.isFinite = false) :
      OwnFault edges vertices options (.weightNotFinite edge.src edge.dst weight)
  /-- A vertex is not below a number of vertices that is given. -/
  | outside {vertex : VertexId} {limit : UInt64} (given : options.vertexCount = some limit)
      (held : vertex ∈ endpoints edges ++ vertices) (beyond : limit ≤ vertex) :
      OwnFault edges vertices options (.vertexOutside vertex limit)
  /-- The greatest word is to be kept as a vertex, and no number of vertices lies above it. -/
  | tooLarge (keeps : options.renumber = false) (absent : options.vertexCount = none)
      (held : 0xffffffffffffffff ∈ Reference.vertices options edges vertices) :
      OwnFault edges vertices options (.idTooLarge 0xffffffffffffffff)

/-- The faults of the vertex lists of all ranks among the ids that are at home on a rank. -/
inductive ListFault (edges : Fin size → List Edge) (vertices : Fin size → List VertexId)
    (rank : Fin size) : InputFault → Prop where
  /-- A vertex is listed more than once, on one rank or on several. -/
  | twice {vertex : VertexId} (home : homeRank vertex size = .ok rank.val)
      (many : 2 ≤ (everything vertices).count vertex) : ListFault edges vertices rank (.listedTwice vertex)
  /-- Vertices are listed, but an endpoint of an edge is listed by no rank. -/
  | missing {vertex : VertexId} (home : homeRank vertex size = .ok rank.val)
      (someListed : everything vertices ≠ []) (used : vertex ∈ endpoints (everything edges))
      (absent : vertex ∉ everything vertices) :
      ListFault edges vertices rank (.endpointNotListed vertex)

/-- What there is to object to in what all ranks are given, if they check it together. -/
inductive Objection (edges : Fin size → List Edge) (vertices : Fin size → List VertexId)
    (options : Options) : Prop where
  /-- An edge of a rank has a weight that is not finite. -/
  | weight (rank : Fin size) {edge : Edge} {weight : Weight} (held : edge ∈ edges rank)
      (given : edge.weight = some weight) (infinite : weight.isFinite = false) :
      Objection edges vertices options
  /-- An endpoint or a listed vertex of a rank is not below a number of vertices that is given. -/
  | outside (rank : Fin size) {vertex : VertexId} {limit : UInt64}
      (given : options.vertexCount = some limit)
      (held : vertex ∈ endpoints (edges rank) ++ vertices rank) (beyond : limit ≤ vertex) :
      Objection edges vertices options
  /-- A vertex is listed more than once, on one rank or on several. -/
  | twice {vertex : VertexId} (many : 2 ≤ (everything vertices).count vertex) :
      Objection edges vertices options
  /-- Some rank lists a vertex, but an endpoint of an edge is listed by no rank. -/
  | missing {vertex : VertexId} (someListed : everything vertices ≠ [])
      (used : vertex ∈ endpoints (everything edges)) (absent : vertex ∉ everything vertices) :
      Objection edges vertices options

/-- Whether all ranks reject what they are given for faults that some of them find: a rank that finds
one tells it, and the others name the first rank that does. -/
structure Reported {α : Type} (finds : Fin size → InputFault → Prop)
    (outcome : Fin size → Option (Except Failure α)) : Prop where
  /-- A rank that finds a fault tells one that it finds. -/
  own : ∀ rank, (∃ fault, finds rank fault) →
    ∃ fault, finds rank fault ∧ outcome rank = some (.error (.rejected fault))
  /-- A rank that finds none names the lowest rank that does. -/
  others : ∀ rank, (∀ fault, ¬ finds rank fault) → ∃ culprit, (∃ fault, finds culprit fault) ∧
    (∀ earlier, earlier < culprit → ∀ fault, ¬ finds earlier fault) ∧
      outcome rank = some (.error (.rejected (.rejectedBy culprit)))

section Own

variable {edges : List Edge} {vertices : List VertexId} {options : Options} {fault : InputFault}

/-- A rank tells a fault of its own input. -/
theorem ownFault_of_checkOwn (refused : checkOwn edges vertices options = .error fault) :
    OwnFault edges vertices options fault := by
  -- Weights are checked before bounds, and the fault is the one that was found first.
  rcases bind_eq_error refused with infinite | ⟨⟨⟩, -, beyond⟩
  · unfold checkWeights at infinite
    split at infinite
    · rename_i edge weight found
      cases infinite
      obtain ⟨held, member, kept⟩ := List.exists_of_findSome?_eq_some found
      obtain ⟨bad, filtered, same⟩ := Option.map_eq_some_iff.mp kept
      cases same
      obtain ⟨given, infinite⟩ := Option.filter_eq_some_iff.mp filtered
      exact .weight member given (by simpa using infinite)
    · cases infinite
  · unfold checkBounds at beyond
    split at beyond
    · cases beyond
    · rename_i limit given
      split at beyond
      · rename_i vertex found
        cases beyond
        exact .outside given (List.mem_of_find?_eq_some found) (by simpa using List.find?_some found)
      · cases beyond

/-- A rank that accepts what it is given itself finds no fault with it, the greatest word apart. -/
theorem not_ownFault_of_checkOwn (passed : checkOwn edges vertices options = .ok ())
    (bounded : options.renumber = false → options.vertexCount = none →
      0xffffffffffffffff ∉ Reference.vertices options edges vertices) :
    ¬ OwnFault edges vertices options fault := by
  obtain ⟨finite, below⟩ := checkOwn_eq_ok_iff.mp passed
  intro found
  -- Each of the faults is one that the checks look for, but for the greatest word.
  cases found with
  | weight held given infinite => exact absurd (finite _ held _ given) (by simp [infinite])
  | outside given held beyond => exact absurd (below _ given _ held) (UInt64.not_lt.mpr beyond)
  | tooLarge keeps absent held => exact bounded keeps absent held

end Own

/-- The records of a rank name the endpoints of the edges that stay, and the listed vertices. -/
theorem mem_named_handedIn_iff {options : Options} {edges : Fin size → List Edge} {rank : Fin size}
    {listed : List VertexId} {id : VertexId} :
    id ∈ named (handedIn options edges rank) listed ↔
      id ∈ Reference.vertices options (edges rank) listed := by
  have same : (handedIn options edges rank).flatMap (fun record => [record.src, record.dst]) =
      (Reference.kept options (edges rank)).flatMap fun placed => [placed.edge.src, placed.edge.dst] := by
    unfold handedIn Reference.kept Reference.handedIn EdgeRecord.ofEdges
    -- Self-loops are dropped of the records and of the edges alike.
    cases options.dropSelfLoops with
    | false => simp [List.flatMap_map, EdgeRecord.ofEdge]
    | true =>
      simp only [if_true, Cleanup.withoutSelfLoops, List.filter_map, List.flatMap_map]
      rfl
  rw [named, Reference.vertices, same]

section Lists

variable {members : Fin size → Member size} {edges : Fin size → List Edge}
  {vertices : Fin size → List VertexId} {rank : Fin size} {fault : InputFault}

/-- Of equal neighbours there are two. -/
theorem two_le_count_of_repeated? {sorted : List VertexId} {vertex : VertexId}
    (found : repeated? sorted = some vertex) : 2 ≤ sorted.count vertex := by
  -- By induction on the search, which compares neighbours.
  fun_induction repeated? sorted with
  | case1 first rest =>
    cases found
    simp
  | case2 first second rest different ih =>
    exact Nat.le_trans (ih found) (List.count_le_count_cons ..)
  | case3 => cases found
  | case4 => cases found

/-- A rank tells a fault among the ids that are at home on it. -/
theorem listFault_of_listVerdicts (lawful : ∀ rank, (members rank).sorter.Lawful)
    (refused : listVerdicts members edges vertices rank = .error fault) :
    ListFault edges vertices rank fault := by
  unfold listVerdicts at refused
  split at refused
  · cases refused
  · rename_i someListed
    have perm := (lawful rank).vertices_perm
      (Grouping.bound (Numbering.assigner size) (everything vertices) rank)
    -- The verdict names a vertex that was repeated or one that was missing.
    unfold checkListed at refused
    split at refused
    · rename_i vertex found
      cases refused
      -- All occurrences of a vertex are at home on the same rank.
      have many := two_le_count_of_repeated? found
      rw [perm.count_eq] at many
      obtain ⟨-, goes⟩ := List.mem_filter.mp (List.count_pos_iff.mp (Nat.lt_of_lt_of_le Nat.two_pos many))
      exact .twice (Failure.ofDefect_eq_ok_iff.mp (of_decide_eq_true goes))
        (Nat.le_trans many (List.filter_sublist.count_le _))
    · dsimp only at refused
      split at refused
      · rename_i vertex found
        cases refused
        have unlisted := List.find?_some found
        obtain ⟨used, goes⟩ := List.mem_filter.mp (List.mem_of_find?_eq_some found)
        have home := of_decide_eq_true goes
        refine .missing (Failure.ofDefect_eq_ok_iff.mp home) someListed ((mem_everything_asked lawful).mp used)
          fun named => ?_
        -- Had the vertex been listed, it would have reached the rank and been found there.
        have here : vertex ∈ (members rank).sorter.vertices
            (Grouping.bound (Numbering.assigner size) (everything vertices) rank) :=
          perm.mem_iff.mpr (List.mem_filter.mpr ⟨named, goes⟩)
        rw [(listed_iff ((lawful rank).vertices_sorted _)).mpr here] at unlisted
        cases unlisted
      · cases refused

/-- A rank that accepts the ids that are at home on it finds no fault with them. -/
theorem not_listFault_of_listVerdicts (lawful : ∀ rank, (members rank).sorter.Lawful)
    (passed : listVerdicts members edges vertices rank = .ok ()) : ¬ ListFault edges vertices rank fault := by
  intro found
  -- A fault of the lists takes something that was listed.
  have someListed : everything vertices ≠ [] := by
    cases found with
    | twice _ many =>
      exact List.ne_nil_of_mem (List.count_pos_iff.mp (Nat.lt_of_lt_of_le Nat.two_pos many))
    | missing _ someListed _ _ => exact someListed
  -- The home rank of an id compares what it was sent, in order.
  have perm := (lawful rank).vertices_perm
    (Grouping.bound (Numbering.assigner size) (everything vertices) rank)
  rw [listVerdicts, if_neg someListed, checkListed_eq_ok_iff ((lawful rank).vertices_sorted _),
    perm.nodup_iff] at passed
  obtain ⟨once, listed⟩ := passed
  cases found with
  | @twice vertex home many =>
    have count := List.nodup_iff_count_le_one.mp once vertex
    rw [Grouping.bound, List.count_filter (p := fun id => decide (Numbering.assigner size id = .ok rank.val))
      (decide_eq_true (Failure.ofDefect_eq_ok_iff.mpr home))] at count
    omega
  | @missing vertex home _ used absent =>
    have here : vertex ∈ Grouping.bound (Numbering.assigner size) (everything (asked members edges)) rank :=
      List.mem_filter.mpr
        ⟨(mem_everything_asked lawful).mpr used, decide_eq_true (Failure.ofDefect_eq_ok_iff.mpr home)⟩
    exact absent (List.mem_filter.mp (perm.mem_iff.mp (listed vertex here))).1

end Lists

/-- A rank that does not go on from the verdicts of all ranks has found a fault itself, or names the
lowest rank that has. -/
theorem settled_eq_error {verdicts : Fin size → Verdict} {rank : Fin size} {fault : InputFault}
    (refused : settled (verdicts rank) (marks verdicts) = .error (.rejected fault)) :
    verdicts rank = .error fault ∨ verdicts rank = .ok () ∧ ∃ culprit : Fin size,
      verdicts culprit ≠ .ok () ∧ (∀ earlier, earlier < culprit → verdicts earlier = .ok ()) ∧
        fault = .rejectedBy culprit := by
  -- A mark other than zero stands for a verdict that refuses.
  have marked : ∀ peer, mark (verdicts peer) ≠ 0 ↔ verdicts peer ≠ .ok () := by
    intro peer
    cases verdicts peer <;> simp [mark]
  unfold settled at refused
  cases own : verdicts rank with
  | error reason =>
    simp only [own, Except.error.injEq] at refused
    cases refused
    exact .inl rfl
  | ok =>
    simp only [own] at refused
    split at refused
    · rename_i first found
      cases refused
      -- The first mark that was found belongs to the lowest rank that refuses.
      obtain ⟨inside, here, before⟩ := List.findIdx?_eq_some_iff_getElem.mp found
      have within : first < size := by simpa [marks] using inside
      refine .inr ⟨rfl, ⟨first, within⟩, (marked _).mp (by simpa [marks] using here),
        fun earlier less => ?_, rfl⟩
      have unmarked := before earlier less
      by_contra refuses
      simp [marks, (marked earlier).mpr refuses] at unmarked
    · cases refused

/-- Ranks that do not go on from verdicts report the faults that these tell of. -/
theorem reported_of_settled {α : Type} {verdicts : Fin size → Verdict}
    {finds : Fin size → InputFault → Prop} {outcome : Fin size → Option (Except Failure α)}
    (sound : ∀ rank fault, verdicts rank = .error fault → finds rank fault)
    (complete : ∀ rank, verdicts rank = .ok () → ∀ fault, ¬ finds rank fault)
    (ends : ∀ rank, ∃ fault, outcome rank = some (.error (.rejected fault)) ∧
      settled (verdicts rank) (marks verdicts) = .error (.rejected fault)) : Reported finds outcome := by
  constructor
  · intro rank found
    obtain ⟨fault, ended, refused⟩ := ends rank
    rcases settled_eq_error refused with own | ⟨accepted, -⟩
    · exact ⟨fault, sound rank fault own, ended⟩
    · obtain ⟨other, finds⟩ := found
      exact absurd finds (complete rank accepted other)
  · intro rank nothing
    obtain ⟨fault, ended, refused⟩ := ends rank
    -- A rank without a fault reports the first rank that has one.
    rcases settled_eq_error refused with own | ⟨-, culprit, refuses, earlier, rfl⟩
    · exact absurd (sound rank fault own) (nothing fault)
    · refine ⟨culprit, ?_, fun before less => complete before (earlier before less), ended⟩
      cases verdict : verdicts culprit with
      | ok => exact absurd verdict refuses
      | error reason => exact ⟨reason, sound culprit reason verdict⟩

end DistGraph.Construction
