import DistGraph.Proofs.Cluster.Retrace
import DistGraph.Proofs.Construction.Failing
import DistGraph.Proofs.Construction.Keyed
import DistGraph.Proofs.Construction.Sorting
import DistGraph.Proofs.Routing.Apart

/-! Nothing that ranks come to depends on how they sort records with the same key, since there are none. -/

namespace DistGraph

variable {size : Nat}

/-- Nothing is granted to ranks, which may reject whatever they are given. -/
def Premises.nothing (members : Fin size → Member size) : Premises members :=
  -- Communication alone is still no reason for a failure.
  short members False fun _ _ => True

section Sorted

variable {members : Fin size → Member size} {sortings : Fin size → Sorting} (facts : Fin size → Prop)
  (ranked : ∀ rank, (members rank).rank = rank) (lawful : ∀ rank, (members rank).sorter.Lawful)
  (follows : ∀ rank, (sortings rank).Follows (members rank).sorter)

namespace View

variable {records : Fin size → List EdgeRecord} {partition : Partition size} {transposed : Bool}
  {budget : Option UInt64}

include ranked lawful follows

variable (records partition transposed budget) in
/-- Ranks do the same when they store records with different keys. -/
theorem buildBy_mirrors
    (own : ∀ rank, ∀ record ∈ records rank,
      (partition.spanOf rank).contains (record.major transposed) = true)
    (keyed : ∀ rank, facts rank → EdgeRecord.Keyed transposed (records rank)) :
    ∃ (views : Fin size → View size) (kept : Fin size → Prop),
      ((∀ rank, kept rank) → Built members records partition transposed budget views) ∧
      Mirrors (Premises.nothing members).blame facts
        (fun rank => build (members rank) (records rank) partition transposed budget)
        (fun rank => buildBy (sortings rank) (members rank) (records rank) partition transposed budget)
        ((Premises.nothing members).blame.Pending (fun rank => (∀ rank, facts rank) ∧ kept rank) views) := by
  -- Ranks are in step when they build, and do the same where no two keys agree.
  obtain ⟨views, kept, built, leads⟩ : ∃ (views : Fin size → View size) (kept : Fin size → Prop),
      ((∀ rank, kept rank) → Built members records partition transposed budget views) ∧
      Leads (Premises.nothing members).blame facts
        (fun rank => build (members rank) (records rank) partition transposed budget) _ :=
    build_leads lawful own (fun roomy => roomy.elim) ranked fun countable => countable.elim
  exact ⟨views, kept, built, leads.mirrors.congr fun rank fact =>
    buildBy_eq (follows rank) partition (keyed rank fact) budget⟩

/-- Ranks do the same when they turn the edges of a whole graph around. -/
theorem transposeBy_mirrors (ranks : size ≤ UInt32.size) {views : Fin size → View size}
    (whole : Whole members records partition transposed budget views) :
    ∃ (turned : Fin size → View size) (kept : Fin size → Prop),
      ((∀ rank, kept rank) →
        Whole members (turnedFor views partition transposed) partition transposed budget turned) ∧
      Mirrors (Premises.nothing members).blame facts
        (fun rank => transpose (members rank) (views rank))
        (fun rank => transposeBy (sortings rank) (members rank) (views rank))
        ((Premises.nothing members).blame.Pending kept turned) := by
  -- Turning around sends records and builds of what arrives, in either way of sorting.
  have mirrored : ∀ rank, transposeBy (sortings rank) (members rank) (views rank) =
      (Routing.sendRecords (members rank) (.byOwner partition transposed) (turned views rank) >>=
        fun received => buildBy (sortings rank) (members rank) received partition transposed budget) := by
    intro rank
    unfold transposeBy turned
    rw [ranked rank, whole.partition_eq, whole.transposed_eq, whole.segmentBudget_eq]
  have owners : ∀ rank, ∀ record ∈ turned views rank, ∃ owner : Fin size,
      (Placement.byOwner partition transposed).destination size record = .ok owner.val :=
    fun rank record held => whole.exists_owner lawful record (mem_everything.mpr ⟨rank, held⟩)
  have sent : Leads (Premises.nothing members).blame facts (fun rank =>
      Routing.sendRecords (members rank) (.byOwner partition transposed) (turned views rank)) _ :=
    Routing.sendRecords_counted_leads (fun rank _ => owners rank) fun countable => countable.elim
  obtain ⟨results, kept, built, storing⟩ := buildBy_mirrors
    (fun _ => ∀ rank, facts rank ∧ ∀ owner : Fin size, (Grouping.bound
      ((Placement.byOwner partition transposed).destination size) (turned views rank) owner).length ≤
        Count.most) ranked lawful follows (turnedFor views partition transposed) partition transposed budget
    (Placement.contains_of_bound partition transposed _)
    fun rank all => keyed_turnedFor ranks
      (fun rank => Routing.length_lt_of_counted ranks (owners rank) (all rank).2) partition transposed rank
  refine ⟨results, kept, fun all => ⟨built all, whole.turned_inside lawful⟩, ?_⟩
  simp only [whole.transpose_eq ranked, mirrored]
  exact sent.mirrors.after (storing.mono (fun _ all => all) fun _ held => held.mono fun _ fact => fact.2)

end View

namespace Construction

open DistGraph.Numbering (Agreed Agreement)

variable {edges : Fin size → List Edge} {vertices : Fin size → List VertexId} {options : Options}
  (ranks : size ≤ UInt32.size) (someone : Fin size)
  (short : ∀ rank, facts rank → (edges rank).length < UInt64.size)

section Steps

include lawful follows ranks short

omit ranked in
/-- Ranks do the same when they clean up their records where parallel ones meet. -/
theorem gatherParallelBy_mirrors {otherwise : Placement}
    (named : ∀ rank, facts rank → ∀ record ∈ handedIn options edges rank, ∃ owner : Fin size,
      (meeting options otherwise).destination size record = .ok owner.val) :
    Mirrors (Premises.nothing members).blame facts
      (fun rank => gatherParallel (members rank) options otherwise (handedIn options edges rank))
      (fun rank => gatherParallelBy (sortings rank) (members rank) options otherwise
        (handedIn options edges rank))
      ((Premises.nothing members).blame.Pending (fun _ => ∀ rank, facts rank)
        (cleaned options members otherwise (handedIn options edges))) := by
  have sent : Leads (Premises.nothing members).blame facts (fun rank =>
      Routing.sendRecords (members rank) (meeting options otherwise) (handedIn options edges rank)) _ :=
    Routing.sendRecords_leads named fun countable => countable.elim
  have tidied : Leads (Premises.nothing members).blame (fun _ => ∀ rank, facts rank)
      (fun rank => pure (cleaned options members otherwise (handedIn options edges) rank)) _ :=
    Leads.pure _
  refine sent.mirrors.after (tidied.mirrors.congr fun rank all => ?_)
  -- What meets has different keys only as long as all ranks can count their records.
  have each := fun rank => short rank (all rank)
  rw [Cleanup.tidyBy_eq (follows rank) (lawful rank)
    (keyed_met options ranks each (meeting options otherwise) rank false)
    (keyed_cleaned options ranks each lawful otherwise rank false)]
  rfl

include ranked someone

/-- Ranks do the same when they build a graph on the given ids. -/
theorem onGivenIdsBy_mirrors
    (below : ∀ rank, facts rank → ∀ limit, options.vertexCount = some limit →
      ∀ id ∈ named (handedIn options edges rank) (vertices rank), id < limit) :
    ∃ (partition : Partition size) (views : Fin size → View size) (kept : Fin size → Prop),
      ((∀ rank, kept rank) → View.Whole members (owned options members (handedIn options edges) partition)
        partition options.transposed options.segmentBudget views) ∧
      Mirrors (Premises.nothing members).blame facts
        (fun rank => onGivenIds (members rank) (handedIn options edges rank) (vertices rank) options)
        (fun rank => onGivenIdsBy (sortings rank) (members rank) (handedIn options edges rank)
          (vertices rank) options)
        ((Premises.nothing members).blame.Pending kept
          fun rank => ⟨views rank, .identity partition rank, partition⟩) := by
  obtain ⟨partition, shared, count⟩ := Partition.exists_even
    (vertexTotal options (handedIn options edges) vertices) (Nat.ne_of_gt someone.pos)
  obtain ⟨views, kept, built, storing⟩ := View.buildBy_mirrors (fun _ => ∀ rank, facts rank) ranked lawful
    follows (owned options members (handedIn options edges) partition) partition options.transposed
    options.segmentBudget (owned_own members options (handedIn options edges) lawful partition)
    fun rank all => keyed_owned options ranks (fun rank => short rank (all rank)) lawful partition rank _
  -- Every rank that has not failed knows that all ids that it names lie in the graph.
  have inside : Bounded options (handedIn options edges) vertices → ∀ rank, facts rank →
      ∀ record ∈ handedIn options edges rank,
        record.src < partition.vertexCount ∧ record.dst < partition.vertexCount :=
    fun bounded rank fact => bounded.ends_lt count (below rank fact)
  refine ⟨partition, views, fun rank => Bounded options (handedIn options edges) vertices ∧
    (∀ rank, facts rank) ∧ kept rank, fun all => ⟨built fun rank => (all rank).2.2, ?_⟩, ?_⟩
  · obtain ⟨bounded, fact, -⟩ := all someone
    exact fun rank record member => minor_lt_of_ends _ (forall_owned lawful (· < partition.vertexCount)
      (forall_everything fun rank => inside bounded rank (fact rank)) rank record member)
  · -- The number of vertices is agreed on without sorting anything.
    have counting : Leads (Premises.nothing members).blame facts
        (fun rank => countVertices (handedIn options edges rank) (vertices rank) options) _ :=
      countVertices_leads fun _ _ _ => trivial
    simp only [onGivenIds_eq, onGivenIdsBy_eq, ranked]
    refine counting.mirrors.after ?_
    simp only [shared]
    refine (Leads.pure _).mirrors.after (Mirrors.given (fun _ fact => fact.2) fun bounded => ?_)
    -- From here on all ids are known to lie in the graph, and each clean-up is mirrored.
    have met := gatherParallelBy_mirrors
      (fun rank => facts rank ∧ Bounded options (handedIn options edges) vertices) lawful follows ranks
      (fun rank fact => short rank fact.1) fun rank fact record held =>
        exists_meeting_of_ends someone (inside bounded rank fact.1 record held)
    have moved : Leads (Premises.nothing members).blame (fun _ => ∀ rank, facts rank)
        (fun rank => moveOn options partition (members rank)
          (cleaned options members (.byOwner partition options.transposed) (handedIn options edges) rank)) _ :=
      moveOn_leads (fun all => forall_everything fun rank => inside bounded rank (all rank)) lawful
        fun countable => countable.elim
    refine (met.mono (fun _ fact => fact) fun _ held => held.mono fun _ all rank => (all rank).1).after
      (moved.mirrors.after (storing.after ?_))
    exact (Leads.pure _).mirrors.mono (fun _ fact => fact) fun _ held => held.mono fun _ fact =>
      ⟨bounded, fact.1 someone, fact.2⟩

variable (vertices) in
/-- Ranks do the same when they place and store relabelled records. -/
theorem moveAnewBy_mirrors (agreement : Agreement size) :
    ∃ (views : Fin size → View size) (kept : Fin size → Prop),
      ((∀ rank, kept rank) → View.Whole members (arrived options members (handedIn options edges) agreement)
        agreement.partition options.transposed options.segmentBudget views) ∧
      Mirrors (Premises.nothing members).blame
        (fun _ => Agreed members (tidied options members (handedIn options edges)) vertices options.order
          options.transposed agreement ∧ ∀ rank, facts rank)
        (fun rank => moveAnew options (members rank)
          (agreement.parts rank, relabelled options members (handedIn options edges) agreement rank))
        (fun rank => moveAnewBy (sortings rank) options (members rank)
          (agreement.parts rank, relabelled options members (handedIn options edges) agreement rank))
        ((Premises.nothing members).blame.Pending kept (keptAnew agreement views)) := by
  obtain ⟨views, kept, built, storing⟩ := View.buildBy_mirrors
    (fun _ => Agreed members (tidied options members (handedIn options edges)) vertices options.order
      options.transposed agreement ∧ ∀ rank, facts rank) ranked lawful follows
    (arrived options members (handedIn options edges) agreement) agreement.partition options.transposed
    options.segmentBudget (Placement.contains_of_bound agreement.partition options.transposed _)
    fun rank fact => keyed_arrived options ranks (fun rank => short rank (fact.2 rank)) lawful fact.1 rank _
  refine ⟨views, fun rank => Agreed members (tidied options members (handedIn options edges)) vertices
    options.order options.transposed agreement ∧ kept rank,
    fun all => ⟨built fun rank => (all rank).2, fun rank record member => ?_⟩, ?_⟩
  · obtain ⟨sender, held⟩ := mem_everything.mp (List.mem_of_mem_filter member)
    exact minor_lt_of_ends _ (relabelled_ends lawful (all someone).1 sender record held)
  · simp only [moveAnew_eq, moveAnewBy_eq]
    -- From here on every rank knows that all new ids are shared out.
    refine Mirrors.given (fun _ fact => fact.1) fun agreed => ?_
    have moved : Leads (Premises.nothing members).blame (fun _ => Agreed members
          (tidied options members (handedIn options edges)) vertices options.order options.transposed
          agreement ∧ ∀ rank, facts rank)
        (fun rank => Routing.sendRecords (members rank) (.byOwner agreement.partition options.transposed)
          (relabelled options members (handedIn options edges) agreement rank)) _ :=
      Routing.sendRecords_leads (fun rank _ => relabelled_inside lawful agreed rank)
        fun countable => countable.elim
    refine (moved.mirrors.mono (fun _ fact => fact) fun _ held => held.mono fun _ all => all someone).after
      (storing.after ?_)
    exact (Leads.pure _).mirrors.mono (fun _ fact => fact) fun _ held => held.mono fun _ fact =>
      ⟨agreed, fact.2⟩

/-- Ranks do the same when they build a graph on new ids. -/
theorem onNewIdsBy_mirrors :
    ∃ (agreement : Agreement size) (views : Fin size → View size) (kept : Fin size → Prop),
      ((∀ rank, kept rank) → View.Whole members (arrived options members (handedIn options edges) agreement)
        agreement.partition options.transposed options.segmentBudget views) ∧
      Mirrors (Premises.nothing members).blame facts
        (fun rank => onNewIds (members rank) (handedIn options edges rank) (vertices rank) options)
        (fun rank => onNewIdsBy (sortings rank) (members rank) (handedIn options edges rank)
          (vertices rank) options)
        ((Premises.nothing members).blame.Pending kept (keptAnew agreement views)) := by
  -- Numbering does not use the way of sorting, so that one agreement serves both sides.
  obtain ⟨agreement, assigned⟩ : ∃ agreement : Agreement size,
      Leads (Premises.nothing members).blame (fun _ => ∀ rank, facts rank) (fun rank =>
        Numbering.assign (members rank) (tidied options members (handedIn options edges) rank)
          (vertices rank) options.order options.transposed) _ :=
    assignTidied_leads ranked lawful someone fun countable => countable.elim
  obtain ⟨views, kept, built, moving⟩ :=
    moveAnewBy_mirrors facts ranked lawful follows vertices ranks someone short agreement
  refine ⟨agreement, views, kept, built, ?_⟩
  simp only [onNewIds_eq, onNewIdsBy]
  exact (gatherParallelBy_mirrors facts lawful follows ranks short fun rank _ record _ =>
    exists_meeting options someone record).after (assigned.mirrors.after moving)

end Steps

variable (edges vertices options) in
/-- What is known of a rank that has made records of its edges. -/
structure Recorded (rank : Fin size) : Prop extends Passed edges vertices options rank where
  /-- The edges of the rank can be counted by a word. -/
  short : (edges rank).length < UInt64.size

include ranked lawful follows ranks someone

variable (edges vertices options) in
/-- Ranks do the same when they build a graph once they have records of their edges. -/
theorem buildBy_mirrors : ∃ (constructed : Fin size → Constructed size) (kept : Fin size → Prop),
    (∃ count, ∀ rank, (constructed rank).partition.vertexCount = count) ∧
    ((∀ rank, kept rank) → ∃ partition records, View.Whole members records partition options.transposed
      options.segmentBudget fun rank => (constructed rank).view) ∧
    Mirrors (Premises.nothing members).blame (Recorded edges vertices options)
      (fun rank => build (members rank) (handedIn options edges rank) (vertices rank) options)
      (fun rank => buildBy (sortings rank) (members rank) (handedIn options edges rank) (vertices rank)
        options)
      ((Premises.nothing members).blame.Pending kept constructed) := by
  unfold build buildBy
  -- The two ways to build are mirrored each by itself.
  cases options.renumber with
  | true =>
    obtain ⟨agreement, views, kept, known, mirrors⟩ := onNewIdsBy_mirrors
      (Recorded edges vertices options) ranked lawful follows ranks someone fun _ fact => fact.short
    exact ⟨keptAnew agreement views, kept, ⟨agreement.partition.vertexCount, fun _ => rfl⟩,
      fun all => ⟨_, _, known all⟩, mirrors⟩
  | false =>
    obtain ⟨partition, views, kept, known, mirrors⟩ := onGivenIdsBy_mirrors
      (Recorded edges vertices options) ranked lawful follows ranks someone (fun _ fact => fact.short)
      fun rank fact limit given id member => lt_of_checkOwn given fact.own id (named_subset options rank member)
    exact ⟨fun rank => ⟨views rank, .identity partition rank, partition⟩, kept,
      ⟨partition.vertexCount, fun _ => rfl⟩, fun all => ⟨_, _, known all⟩, mirrors⟩

variable (edges vertices options) in
/-- Ranks do the same when they construct a graph. -/
theorem constructBy_mirrors : ∃ (constructed : Fin size → Constructed size) (kept : Fin size → Prop),
    ((∀ rank, kept rank) → ∃ partition records, View.Whole members records partition options.transposed
      options.segmentBudget fun rank => (constructed rank).view) ∧
    Mirrors (Premises.nothing members).blame (fun _ => True)
      (fun rank => construct (members rank) (edges rank) (vertices rank) options)
      (fun rank => constructBy (sortings rank) (members rank) (edges rank) (vertices rank) options)
      ((Premises.nothing members).blame.Pending kept constructed) := by
  obtain ⟨constructed, kept, ⟨count, agree⟩, known, built⟩ :=
    buildBy_mirrors ranked lawful follows edges vertices options ranks someone
  refine ⟨constructed, kept, known, ?_⟩
  -- The steps around building are the same on both sides, and are in step as they are.
  have checking : Leads (Premises.nothing members).blame (fun _ => True)
      (fun rank => checkInput (members rank) (edges rank) (vertices rank) options) _ :=
    checkInput_leads lawful (fun countable => countable.elim) (fun _ _ _ _ => trivial)
      fun _ _ _ _ => trivial
  have recording : Leads (Premises.nothing members).blame (Passed edges vertices options)
      (fun rank => Program.ofExcept (recordsOf (members rank) (edges rank) options)) _ :=
    recordsOf_leads ranked fun roomy => roomy.elim
  have confirming : Leads (Premises.nothing members).blame kept
      (fun rank => confirm options (constructed rank) >>= fun _ => pure (constructed rank)) _ :=
    confirm_leads agree
  simp only [construct_eq, constructBy_eq]
  refine checking.mirrors.after ((recording.mirrors.mono (fun _ fact => fact) fun _ held => ?_).after
    (built.after (confirming.mirrors.mono (fun _ fact => fact) fun _ held => held.1)))
  exact held.mono fun _ fact => ⟨fact.1, fact.2⟩

variable (edges vertices options) in
/-- Ranks do the same when they construct a graph and turn its edges around, however often. -/
theorem constructTurnedBy_mirrors (times : Nat) :
    ∃ (views : Fin size → View size) (kept : Fin size → Prop),
      ((∀ rank, kept rank) → ∃ partition records,
        View.Whole members records partition options.transposed options.segmentBudget views) ∧
      Mirrors (Premises.nothing members).blame (fun _ => True)
        (fun rank => constructTurned (members rank) (edges rank) (vertices rank) options times)
        (fun rank => constructTurnedBy (sortings rank) (members rank) (edges rank) (vertices rank) options
          times)
        ((Premises.nothing members).blame.Pending kept views) := by
  induction times with
  | zero =>
    obtain ⟨constructed, kept, known, mirrors⟩ :=
      constructBy_mirrors ranked lawful follows edges vertices options ranks someone
    exact ⟨fun rank => (constructed rank).view, kept, known, mirrors.after (Leads.pure _).mirrors⟩
  | succ times ih =>
    obtain ⟨views, kept, known, mirrors⟩ := ih
    by_cases all : ∀ rank, kept rank
    · obtain ⟨partition, records, whole⟩ := known all
      obtain ⟨turned, stored, inside, turning⟩ :=
        View.transposeBy_mirrors kept ranked lawful follows ranks whole
      exact ⟨turned, stored, fun every => ⟨partition, _, inside every⟩, mirrors.after turning⟩
    · -- Some rank has failed, so the others do not get beyond their next exchange.
      refine ⟨views, fun _ => False, fun none_there => (none_there someone).elim, mirrors.after ?_⟩
      refine Mirrors.unmet all (fun rank value => ?_) fun rank => ?_
      · exact (Routing.sendRecords_begins.bind _).not_done (by decide) value
      · refine Program.Alike.bind (.refl _) (fun received => ?_) _ _
        exact Routing.sendRecords_begins.not_done (by decide) received

end Construction

end Sorted

namespace Construction

section Ties

variable (crew other : Crew size) (occupied : 0 < size) (ranks : size ≤ UInt32.size)
  (memory : ∀ rank, (other.members rank).memory = (crew.members rank).memory)
  (edges : Fin size → List Edge) (vertices : Fin size → List VertexId) (options : Options)

include occupied ranks memory

/-- Ranks come to the same as others that put records in order like them wherever keys differ. -/
theorem runAlike_of_follows {sortings : Fin size → Sorting}
    (follows : ∀ rank, (sortings rank).Follows (crew.members rank).sorter) :
    Cluster.RunAlike
        (fun rank => construct (crew.members rank) (edges rank) (vertices rank) options)
        (fun rank => constructBy (sortings rank) (other.members rank) (edges rank) (vertices rank) options) ∧
      ∀ times, Cluster.RunAlike
        (fun rank => constructTurned (crew.members rank) (edges rank) (vertices rank) options times)
        (fun rank => constructTurnedBy (sortings rank) (other.members rank) (edges rank) (vertices rank)
          options times) := by
  -- The two crews differ in nothing but how their members sort.
  have twin : ∀ rank, other.members rank =
      { crew.members rank with sorter := (other.members rank).sorter } := fun rank =>
    Member.eq_resorted ((other.ranked rank).trans (crew.ranked rank).symm) (memory rank)
  constructor
  · obtain ⟨_, _, -, mirrors⟩ :=
      constructBy_mirrors crew.ranked crew.lawful follows edges vertices options ranks ⟨0, occupied⟩
    have same : ∀ rank, constructBy (sortings rank) (other.members rank) (edges rank) (vertices rank)
        options = constructBy (sortings rank) (crew.members rank) (edges rank) (vertices rank) options := by
      intro rank
      rw [twin rank, constructBy_resorted (sortings rank) (crew.lawful rank) (other.lawful rank)]
    simp only [same]
    exact Cluster.runAlike_of_twins mirrors.twins
  · intro times
    obtain ⟨_, _, -, mirrors⟩ := constructTurnedBy_mirrors crew.ranked crew.lawful follows edges vertices
      options ranks ⟨0, occupied⟩ times
    have same : ∀ rank, constructTurnedBy (sortings rank) (other.members rank) (edges rank) (vertices rank)
        options times =
          constructTurnedBy (sortings rank) (crew.members rank) (edges rank) (vertices rank) options times := by
      intro rank
      rw [twin rank, constructTurnedBy_resorted (sortings rank) (crew.lawful rank) (other.lawful rank)]
    simp only [same]
    exact Cluster.runAlike_of_twins mirrors.twins

end Ties

/-- However ranks construct a graph and turn its edges around, they come to the same outcomes under the same
schedules as others that sort entries that compare alike in other ways. It makes no difference either if
these raise alarms, whatever they are, as soon as two records that have to be put in order have the same
key. -/
theorem construct_ties (crew other : Crew size) (occupied : 0 < size) (ranks : size ≤ UInt32.size)
    (memory : ∀ rank, (other.members rank).memory = (crew.members rank).memory)
    (edges : Fin size → List Edge) (vertices : Fin size → List VertexId) (options : Options) :
    (Cluster.RunAlike
        (fun rank => construct (crew.members rank) (edges rank) (vertices rank) options)
        (fun rank => construct (other.members rank) (edges rank) (vertices rank) options) ∧
      ∀ alarm : Fin size → Failure, Cluster.RunAlike
        (fun rank => construct (crew.members rank) (edges rank) (vertices rank) options)
        (fun rank => constructBy ((other.members rank).sorter.watched (alarm rank)) (other.members rank)
          (edges rank) (vertices rank) options)) ∧
    ∀ times,
      Cluster.RunAlike
        (fun rank => constructTurned (crew.members rank) (edges rank) (vertices rank) options times)
        (fun rank => constructTurned (other.members rank) (edges rank) (vertices rank) options times) ∧
      ∀ alarm : Fin size → Failure, Cluster.RunAlike
        (fun rank => constructTurned (crew.members rank) (edges rank) (vertices rank) options times)
        (fun rank => constructTurnedBy ((other.members rank).sorter.watched (alarm rank))
          (other.members rank) (edges rank) (vertices rank) options times) := by
  -- Another sorter follows the first one, with or without an alarm, as long as keys differ.
  have plain := runAlike_of_follows crew other occupied ranks memory edges vertices options fun rank =>
    (crew.lawful rank).follows (other.lawful rank)
  simp only [constructBy_sorting, constructTurnedBy_sorting] at plain
  have watched := fun alarm : Fin size → Failure =>
    runAlike_of_follows crew other occupied ranks memory edges vertices options fun rank =>
      (crew.lawful rank).watched_follows (other.lawful rank) (alarm rank)
  exact ⟨⟨plain.1, fun alarm => (watched alarm).1⟩,
    fun times => ⟨plain.2 times, fun alarm => (watched alarm).2 times⟩⟩

/-- Two ranks construct the same graph from records that come to them back to front, and raise no alarm. -/
theorem construct_ties_sample :
    let crew : Crew 2 := Crew.stable fun _ => none
    let other : Crew 2 := crew.backwards
    ∃ constructed : Fin 2 → Constructed 2,
      (∃ run : Cluster.Run (Vector.ofFn fun rank : Fin 2 =>
          construct (crew.members rank) (sampleEdges rank) [] sampleOptions),
        run.outcome = fun rank => some (.ok (constructed rank))) ∧
      (∃ run : Cluster.Run (Vector.ofFn fun rank : Fin 2 =>
          construct (other.members rank) (sampleEdges rank) [] sampleOptions),
        run.outcome = fun rank => some (.ok (constructed rank))) ∧
      ∃ run : Cluster.Run (Vector.ofFn fun rank : Fin 2 =>
          constructBy ((other.members rank).sorter.watched (.diverged .options)) (other.members rank)
            (sampleEdges rank) [] sampleOptions),
        run.outcome = fun rank => some (.ok (constructed rank)) := by
  intro crew other
  obtain ⟨run⟩ := Cluster.Run.exists_of_programs (Vector.ofFn fun rank : Fin 2 =>
    construct (crew.members rank) (sampleEdges rank) [] sampleOptions)
  obtain ⟨constructed, constructs⟩ := exists_sample_constructed crew (fun _ => rfl) run
  have ends : run.outcome = fun rank => some (.ok (constructed rank)) := funext constructs
  -- The run of the first crew is retraced by the other one, both without alarms and with them.
  obtain ⟨⟨plain, watched⟩, -⟩ := construct_ties crew other (by decide) (by decide) (fun _ => rfl)
    sampleEdges (fun _ => []) sampleOptions
  obtain ⟨otherRun, -, otherEnds⟩ := (plain run.schedule _).mp ⟨run, rfl, ends⟩
  obtain ⟨watchedRun, -, watchedEnds⟩ :=
    (watched (fun _ => .diverged .options) run.schedule _).mp ⟨run, rfl, ends⟩
  exact ⟨constructed, ⟨run, ends⟩, ⟨otherRun, otherEnds⟩, watchedRun, watchedEnds⟩

end Construction

end DistGraph
