import DistGraph.Proofs.Cluster.InStep
import DistGraph.Proofs.Routing.Exchange

/-! Ranks stay in step while items change ranks, whatever fails on the way. -/

namespace DistGraph

variable {size : Nat} {α : Type}

/-- What is granted to ranks, which settles what they may fail with. -/
structure Premises (members : Fin size → Member size) where
  /-- Whether all items can be counted and all sums fit a word. -/
  countable : Prop
  /-- Whether there are buffers for all items. -/
  roomy : Prop
  /-- Buffers for all items take ranks without a limit. -/
  unlimited : roomy → ∀ rank, (members rank).memory = none
  /-- There are buffers for items that can be counted only. -/
  countable_of_roomy : roomy → countable
  /-- Why a rank may reject what it is given while others go on. -/
  rejects : Fin size → InputFault → Prop
  /-- Why a rank may reject what it is given when all ranks do. -/
  refuses : Fin size → InputFault → Prop

/-- The failures that ranks may come to in spite of what is granted to them. -/
def Premises.blame {members : Fin size → Member size} (premises : Premises members) :
    Blame size Failure where
  -- Ids that are not known are no reason for any failure.
  own rank failure := match failure with
    | .graph (.rejectedInput fault) => premises.rejects rank fault
    | .graph (.outOfMemory _ _) => ¬ premises.roomy
    | .defect _ => ¬ premises.countable
    | .comm _ | .graph (.protocolBroken _) | .graph (.unknownId _) => False
  shared rank failure := ∃ fault, failure = .rejected fault ∧ premises.refuses rank fault
  peers _ failure := ∃ error, failure = .graph (.protocolBroken error)

/-- Everything is granted to ranks without a limit, which may only reject what they are given. -/
def Premises.judging {members : Fin size → Member size} (free : ∀ rank, (members rank).memory = none)
    (alone together : Fin size → InputFault → Prop) : Premises members where
  -- Nothing else is left to fail with.
  countable := True
  roomy := True
  unlimited _ := free
  countable_of_roomy _ := trivial
  rejects := alone
  refuses := together

/-- Everything is granted to ranks without a limit, of which none rejects anything. -/
def Premises.all {members : Fin size → Member size} (free : ∀ rank, (members rank).memory = none) :
    Premises members :=
  judging free (fun _ _ => False) fun _ _ => False

/-- Ranks to which everything is granted fail by themselves only with what they reject. -/
theorem Premises.exists_of_owns_judging {members : Fin size → Member size}
    {free : ∀ rank, (members rank).memory = none} {alone together : Fin size → InputFault → Prop}
    {rank : Fin size} {failure : Failure} (own : (judging free alone together).blame.own rank failure) :
    ∃ fault, failure = .rejected fault ∧ alone rank fault := by
  -- Short memory and defects are ruled out, and no other failure is a rank's own.
  cases failure with
  | comm error => exact own.elim
  | defect broken => exact absurd trivial own
  | graph error =>
    cases error with
    | rejectedInput fault => exact ⟨fault, rfl, own⟩
    | outOfMemory requested available => exact absurd trivial own
    | protocolBroken cause => exact own.elim
    | unknownId vertex => exact own.elim

/-- Ranks to which everything is granted succeed in every run. -/
theorem Cluster.Run.succeeds [Payloads] {members : Fin size → Member size}
    (free : ∀ rank, (members rank).memory = none) {programs : Fin size → Program size Failure α}
    {facts : Fin size → Prop} {known : Fin size → α} (run : Run (Vector.ofFn programs))
    (leads : Leads (Premises.all free).blame (fun _ => True) programs
      ((Premises.all free).blame.Pending facts known)) (rank : Fin size) :
    facts rank ∧ run.outcome rank = some (.ok (known rank)) := by
  -- With every premise granted there is nothing to blame anyone for.
  have nobody : ∀ rank error, ¬ (Premises.all free).blame.own rank error := by
    intro rank error own
    obtain ⟨_, -, rejected⟩ := Premises.exists_of_owns_judging own
    exact rejected
  have nowhere : ∀ rank error, ¬ (Premises.all free).blame.shared rank error :=
    fun _ _ ⟨_, _, refused⟩ => refused
  obtain ⟨outcomes, ends, reached | stopped⟩ := run.exists_outcomes leads.inStep
  · rw [ends rank]
    cases ended : outcomes rank with
    | ok value =>
      obtain ⟨fact, rfl⟩ := reached.sound rank value ended
      exact ⟨fact, rfl⟩
    | error error =>
      rcases reached.fair with owns | shares
      · exact absurd (owns rank error ended) (nobody rank error)
      · obtain ⟨other, -, shared⟩ := shares rank
        exact absurd shared (nowhere rank other)
  · rcases stopped with ⟨⟨culprit, error, -, own⟩, -⟩ | each
    · exact absurd own (nobody culprit error)
    · obtain ⟨other, -, shared⟩ := each rank
      exact absurd shared (nowhere rank other)

namespace Premises

variable {members : Fin size → Member size} (premises : Premises members) {rank : Fin size}
  {error : Failure}

/-- Defects are out of the question where everything can be counted. -/
theorem owns_ofDefect {computed : Except Defect α}
    (succeeds : premises.countable → ∃ value, computed = .ok value)
    (failing : Failure.ofDefect computed = .error error) : premises.blame.own rank error := by
  -- A defect is a rank's own only where something cannot be counted.
  cases computed with
  | ok value => cases failing
  | error broken =>
    cases failing
    intro countable
    obtain ⟨value, made⟩ := succeeds countable
    cases made

/-- A buffer can only be missing where memory is short. -/
theorem owns_makeRoom {bytes length : Nat}
    (granted : premises.roomy → (members rank).makeRoom bytes length = .ok ())
    (failing : (members rank).makeRoom bytes length = .error error) : premises.blame.own rank error := by
  -- With memory for everything the buffer would have been granted.
  have short : ¬ premises.roomy := by
    intro roomy
    rw [granted roomy] at failing
    cases failing
  unfold Member.makeRoom Memory.reserve at failing
  dsimp only at failing
  split at failing
  · cases failing
  · cases failing
    exact short

end Premises

namespace Leads

variable [Payloads] {members : Fin size → Member size} {premises : Premises members}
  {facts middle : Fin size → Prop}

/-- Ranks may compute by themselves what can only fail where not everything can be counted. -/
theorem ofDefect {computed : Fin size → Except Defect α} {known : Fin size → α}
    (sound : ∀ rank value, facts rank → computed rank = .ok value → middle rank ∧ value = known rank)
    (succeeds : premises.countable → ∀ rank, facts rank → ∃ value, computed rank = .ok value) :
    Leads premises.blame facts (fun rank => Program.ofExcept (Failure.ofDefect (computed rank)))
      (premises.blame.Pending middle known) :=
  ofExcept (fun rank value fact made => sound rank value fact (Failure.ofDefect_eq_ok_iff.mp made))
    fun rank _ fact => premises.owns_ofDefect fun countable => succeeds countable rank fact

/-- What ranks compute by themselves is known of those that do not fail. -/
theorem exists_ofDefect [Nonempty α] {computed : Fin size → Except Defect α}
    (succeeds : premises.countable → ∀ rank, facts rank → ∃ value, computed rank = .ok value) :
    ∃ known : Fin size → α, Leads premises.blame facts
      (fun rank => Program.ofExcept (Failure.ofDefect (computed rank)))
      (premises.blame.Pending (fun rank => facts rank ∧ computed rank = .ok (known rank)) known) := by
  -- A rank that fails on its own has something that cannot be counted.
  have own : ∀ rank error, facts rank → Failure.ofDefect (computed rank) = .error error →
      premises.blame.own rank error :=
    fun rank _ fact => premises.owns_ofDefect fun countable => succeeds countable rank fact
  obtain ⟨known, leads⟩ := exists_ofExcept own
  simp only [Failure.ofDefect_eq_ok_iff] at leads
  exact ⟨known, leads⟩

/-- Ranks may ask for buffers. -/
theorem makeRoom {bytes : Nat} {length : Fin size → Nat}
    (granted : premises.roomy → ∀ rank, facts rank →
      (members rank).makeRoom bytes (length rank) = .ok ()) :
    Leads premises.blame facts
      (fun rank => Program.ofExcept ((members rank).makeRoom bytes (length rank)))
      (premises.blame.Pending facts fun _ => ()) :=
  ofExcept (fun _ _ fact _ => ⟨fact, rfl⟩)
    fun rank _ fact => premises.owns_makeRoom fun roomy => granted roomy rank fact

/-- Ranks may take part in an exchange. -/
theorem issue {call : Call} (sent : Fin size → Vector call.Item size) :
    Leads premises.blame facts (fun rank => (Program.issue call (sent rank)).mapError Failure.ofGraph)
      (premises.blame.Pending (fun _ => ∀ rank, facts rank) (Cluster.delivered sent)) :=
  exchange fun _ _ error => ⟨error, rfl⟩

end Leads

/-- Defects are told alike in the middle of an operation on the graph. -/
theorem Program.mapError_ofDefect [Payloads] (computed : Except Defect α) :
    (Program.ofExcept (Failure.ofDefect computed) : Program size Failure α).mapError Failure.ofGraph =
      Program.ofExcept (Failure.ofDefect computed) := by
  cases computed <;> rfl

section Steps

variable {members : Fin size → Member size} {premises : Premises members}
  {facts : Fin size → Prop}

namespace Communicator

section Collectives

variable [Payloads]

/-- Every rank is given the values of all ranks. -/
theorem allGather_leads (tag : Payloads.Tag) (values : Fin size → Payloads.Value tag) :
    Leads premises.blame facts (fun rank => (allGather tag (values rank)).mapError Failure.ofGraph)
      (premises.blame.Pending (fun _ => ∀ rank, facts rank) fun _ => Vector.ofFn values) := by
  -- Each rank sends one value to all, so that all are delivered the same.
  have issued : Leads premises.blame facts (fun rank => (allGather tag (values rank)).mapError .ofGraph)
      (premises.blame.Pending (fun _ => ∀ rank, facts rank)
        (Cluster.delivered fun rank : Fin size =>
          (Vector.replicate size (values rank) : Vector (Call.gather tag).Item size))) :=
    Leads.issue _
  rw [delivered_replicate] at issued
  exact issued

section Folding

variable (tag : Payloads.Tag)
  (combine : Payloads.Value tag → Payloads.Value tag → Except Defect (Payloads.Value tag))

/-- Values are gathered before they are combined, in the middle of an operation on the graph as well. -/
theorem fold_mapError (value : Payloads.Value tag) :
    (fold tag combine value).mapError Failure.ofGraph =
      ((allGather tag value).mapError Failure.ofGraph >>= fun gathered =>
        Program.ofExcept (Failure.ofDefect (folded combine value gathered.toList)) :
        Program size Failure (Payloads.Value tag)) := by
  rw [fold_eq, Program.bind_eq, Program.mapError_bind]
  simp only [Program.mapError_ofDefect]
  rfl

/-- Every rank is given what the values of all ranks are combined to. -/
theorem fold_leads (values : Fin size → Payloads.Value tag) (result : Payloads.Value tag)
    (sound : ∀ rank value, folded combine (values rank) (List.ofFn values) = .ok value →
      value = result)
    (succeeds : premises.countable → (∀ rank, facts rank) →
      ∀ rank, ∃ value, folded combine (values rank) (List.ofFn values) = .ok value) :
    Leads premises.blame facts (fun rank => (fold tag combine (values rank)).mapError Failure.ofGraph)
      (premises.blame.Pending (fun rank => (∀ rank, facts rank) ∧
        folded combine (values rank) (List.ofFn values) = .ok result) fun _ => result) := by
  -- Every rank gathers all values and folds them by itself, to what is the same for all of them.
  simp only [fold_mapError]
  refine (allGather_leads tag values).after ?_
  simp only [Vector.toList_ofFn]
  refine Leads.ofDefect (fun rank value all made => ?_) fun countable rank all => succeeds countable all rank
  obtain rfl := sound rank value made
  exact ⟨⟨all, made⟩, rfl⟩

end Folding

/-- Every rank is given the counts at its place in what all ranks send. -/
theorem allToAll_leads (counts : Fin size → Fin size → Int32) :
    Leads premises.blame facts
      (fun rank => (allToAll (List.ofFn (counts rank))).mapError Failure.ofGraph)
      (premises.blame.Pending (fun _ => ∀ rank, facts rank)
        fun rank => List.ofFn fun peer => counts peer rank) := by
  -- With a count for each rank the shape is right, and the exchange is all there is.
  have stands : ∀ rank, (allToAll (List.ofFn (counts rank))).mapError Failure.ofGraph =
      ((Program.issue .counts (Vector.ofFn (counts rank))).mapError Failure.ofGraph >>= fun received =>
        pure received.toList : Program size Failure (List Int32)) := by
    intro rank
    rw [allToAll_eq, Program.bind_eq, Program.mapError_bind]
    rfl
  simp only [stands]
  have received : ∀ rank : Fin size, (Cluster.delivered (fun sender =>
      (Vector.ofFn (counts sender) : Vector Call.counts.Item size)) rank).toList =
        List.ofFn fun peer => counts peer rank := toList_delivered .counts counts
  rw [← funext received]
  exact (Leads.issue _).after (Leads.pure _)

section Groups

variable {tag : Payloads.Tag} {groups : Fin size → Fin size → List (Payloads.Value tag)}
  (small : ∀ sender receiver, (groups sender receiver).length ≤ Count.most)
  (sends : premises.countable → ∀ rank, (everything (groups rank)).length ≤ Count.most)
  (receives : premises.countable → ∀ rank,
    (everything fun peer => groups peer rank).length ≤ Count.most)

include small sends receives

/-- Every rank is given its groups from all ranks. -/
theorem allToAllV_leads : Leads premises.blame facts
    (fun rank => (allToAllV tag (everything (groups rank)) (announced (groups rank))
      (everything fun peer => groups peer rank).length
      (announced fun peer => groups peer rank)).mapError Failure.ofGraph)
    (premises.blame.Pending (fun _ => ∀ rank, facts rank)
      fun rank => everything fun peer => groups peer rank) := by
  -- Every rank sums what it sends, exchanges blocks, and fills its buffer from what it received.
  have stands : ∀ rank, (allToAllV tag (everything (groups rank)) (announced (groups rank))
      (everything fun peer => groups peer rank).length
      (announced fun peer => groups peer rank)).mapError Failure.ofGraph =
      (Program.ofExcept (Failure.ofDefect (Count.totals 0 (announced (groups rank)))) >>= fun _ =>
        (Program.issue (.blocks tag) (Vector.ofFn (groups rank))).mapError Failure.ofGraph >>=
          fun received => (Program.ofExcept (fillBuffer tag (everything fun peer => groups peer rank).length
            (announced fun peer => groups peer rank) received.toList)).mapError Failure.ofGraph :
        Program size Failure (List (Payloads.Value tag))) := by
    intro rank
    rw [allToAllV_eq small, Program.bind_eq, Program.mapError_bind, Program.mapError_ofDefect]
    refine congrArg _ (funext fun _ => ?_)
    rw [Program.bind_eq, Program.mapError_bind]
    rfl
  simp only [stands]
  have own : ∀ rank error, facts rank →
      Failure.ofDefect (Count.totals 0 (announced (groups rank))) = .error error →
        premises.blame.own rank error := fun rank error _ =>
    premises.owns_ofDefect fun countable => (totals_announced (small rank)).mpr (sends countable rank)
  -- A rank receives from every peer the group that is meant for it.
  have received : ∀ rank : Fin size, (Cluster.delivered (fun sender =>
      (Vector.ofFn (groups sender) : Vector (Call.blocks tag).Item size)) rank).toList =
        List.ofFn fun peer => groups peer rank := toList_delivered (.blocks tag) groups
  -- Totals fail on a rank of its own, and buffers are filled as announced.
  refine Leads.require (fun rank _ fact _ => fact) own ((Leads.issue _).after ?_)
  · simp only [received, fillBuffer_eq fun peer => small peer _, Program.mapError_ofDefect]
    refine Leads.ofDefect (fun rank value all made => ?_) fun countable rank _ => ?_
    · cases ends : Count.totals 0 (announced fun peer => groups peer rank) with
      | error broken => simp [ends] at made
      | ok totals =>
        simp only [ends, map_ok, Except.ok.injEq] at made
        exact ⟨all, made.symm⟩
    · obtain ⟨ends, made⟩ := (totals_announced fun peer => small peer rank).mpr (receives countable rank)
      exact ⟨_, by rw [made]; rfl⟩

end Groups

end Collectives

/-- Every rank is given the greatest of the values of all ranks. -/
theorem allReduce_max_leads (values : Fin size → UInt64) :
    Leads premises.blame facts (fun rank => (allReduce .max (values rank)).mapError Failure.ofGraph)
      (premises.blame.Pending (fun _ => ∀ rank, facts rank)
        fun _ => greatest (List.ofFn values)) := by
  -- The greatest value is one of the values and never overflows.
  refine (fold_leads Wire.word Reduction.max.combine values (greatest (List.ofFn values))
    (fun rank value made => ?_) fun _ _ rank => ⟨_, folded_max values rank⟩).mono (fun _ fact => fact)
    fun _ held => held.mono fun _ fact => fact.1
  rw [folded_max, Except.ok.injEq] at made
  exact made.symm

end Communicator

namespace Routing

/-- Whether ranks can count what they send and receive when all items go to their destinations. -/
structure Countable (destination : α → Except Failure Nat) (items : Fin size → List α) : Prop where
  /-- No rank sends too many items. -/
  sends : ∀ rank, (items rank).length ≤ Count.most
  /-- No rank receives too many items. -/
  receives : ∀ rank : Fin size,
    (Grouping.bound destination (everything items) rank).length ≤ Count.most

/-- Few items altogether can be counted wherever they go. -/
theorem Countable.of_few {destination : α → Except Failure Nat} {items : Fin size → List α}
    (few : (everything items).length ≤ Count.most) : Countable destination items :=
  ⟨fun rank => Nat.le_trans (length_le_everything items rank) few,
    fun _ => Nat.le_trans (List.length_filter_le _ _) few⟩

section Generic

variable [Payloads]

section Groups

variable {tag : Payloads.Tag} {groups : Fin size → Fin size → List (Payloads.Value tag)}

/-- Every rank is given the answers to its questions. -/
theorem sendBack_leads (small : ∀ sender receiver, (groups sender receiver).length ≤ Count.most)
    (sends : premises.countable → ∀ rank, (everything (groups rank)).length ≤ Count.most)
    (receives : premises.countable → ∀ rank,
      (everything fun peer => groups peer rank).length ≤ Count.most) :
    Leads premises.blame facts (fun rank => sendBack (members rank) tag (.ofGroups (groups rank))
        (Communicator.announced fun peer => groups peer rank))
      (premises.blame.Pending (fun _ => ∀ rank, facts rank)
        fun rank => everything fun peer => groups peer rank) := by
  have most : Count.most < UInt64.size := by decide
  let received : Fin size → Nat := fun rank => (everything fun peer => groups peer rank).length
  -- The room is known as a word, which stands for the number of items where that is small enough.
  have room : Leads premises.blame facts (fun rank => Program.ofExcept (Failure.ofDefect
      (Count.total (Communicator.announced fun peer => groups peer rank))))
      (premises.blame.Pending (fun rank => facts rank ∧ received rank < UInt64.size)
        fun rank => UInt64.ofNat (received rank)) := by
    simp only [received]
    refine Leads.ofDefect (fun rank value fact made => ?_) fun countable rank _ => ?_
    · rw [Communicator.total_announced fun peer => small peer rank] at made
      rw [made, UInt64.ofNat_toNat]
      exact ⟨⟨fact, value.toNat_lt_size⟩, rfl⟩
    · have few := receives countable rank
      refine ⟨_, (Communicator.total_announced fun peer => small peer rank).mpr
        (UInt64.toNat_ofNat_of_lt' ?_).symm⟩
      omega
  -- A buffer of that room is granted where memory is unlimited.
  have stored : Leads premises.blame (fun rank => facts rank ∧ received rank < UInt64.size)
      (fun rank => Program.ofExcept ((members rank).makeRoom (Payloads.bytes tag) (received rank)) >>= fun _ =>
        (Communicator.allToAllV tag (everything (groups rank)) (Communicator.announced (groups rank))
          (received rank) (Communicator.announced fun peer => groups peer rank)).mapError .ofGraph)
      (premises.blame.Pending (fun _ => ∀ rank, facts rank)
        fun rank => everything fun peer => groups peer rank) := by
    refine (Leads.makeRoom fun roomy rank _ => ?_).after
      ((Communicator.allToAllV_leads small sends receives).mono (fun _ fact => fact.1)
        fun _ held => held)
    exact Member.makeRoom_of_counted (premises.unlimited roomy rank) tag
      (receives (premises.countable_of_roomy roomy) rank)
  refine room.after (stored.congr fun rank fact => ?_)
  rw [UInt64.toNat_ofNat_of_lt' fact.2]
  rfl

/-- Every rank is given its groups from all ranks. -/
theorem sendGroups_leads
    (small : (∀ rank, facts rank) → ∀ sender receiver, (groups sender receiver).length ≤ Count.most)
    (sends : premises.countable → (∀ rank, facts rank) →
      ∀ rank, (everything (groups rank)).length ≤ Count.most)
    (receives : premises.countable → (∀ rank, facts rank) → ∀ rank,
      (everything fun peer => groups peer rank).length ≤ Count.most) :
    Leads premises.blame facts
      (fun rank => sendGroups (members rank) tag (.ofGroups (groups rank)))
      (premises.blame.Pending (fun _ => ∀ rank, facts rank)
        fun rank => .ofGroups fun peer => groups peer rank) := by
  -- The counts are known to all before the groups travel, and each step leads to the next.
  simp only [sendGroups_eq]
  refine (Communicator.allToAll_leads
    fun sender receiver => Int32.ofNat (groups sender receiver).length).after ?_
  refine Leads.given (fun _ all => all) fun all => ?_
  exact (sendBack_leads (small all) (fun countable => sends countable all)
    fun countable => receives countable all).after
      ((Leads.pure _).mono (fun _ _ => all) fun _ held => held)

end Groups

/-- Ranks may group what they hold by the ranks it goes to. -/
theorem group_leads {α : Type} [Inhabited α] {destination : α → Except Failure Nat}
    {items : Fin size → List α}
    (named : ∀ rank, facts rank → ∀ item ∈ items rank,
      ∃ owner : Fin size, destination item = .ok owner.val)
    (few : premises.roomy → ∀ rank, facts rank → (items rank).length ≤ Count.most) :
    Leads premises.blame facts (fun rank => Program.ofExcept (Grouping.group size destination (items rank)))
      (premises.blame.Pending (fun rank => facts rank ∧
          ∀ owner : Fin size, (Grouping.bound destination (items rank) owner).length ≤ Count.most)
        fun rank => .ofGroups fun owner : Fin size => Grouping.bound destination (items rank) owner) := by
  -- Grouping fails only where a group is too long to be counted.
  refine Leads.ofExcept (fun rank grouped fact made => ?_) fun rank error fact failing => ?_
  · obtain ⟨-, small, same⟩ := Grouping.group_eq_ok_iff.mp made
    exact ⟨⟨fact, small⟩, same⟩
  · obtain ⟨number, great, within, rfl⟩ := Grouping.exists_of_group_eq_error (named rank fact) failing
    intro roomy
    exact absurd (few roomy rank fact) (by omega)

section Sent

variable {tag : Payloads.Tag} {destination : Payloads.Value tag → Except Failure Nat}
  {items : Fin size → List (Payloads.Value tag)}
  (named : ∀ rank, facts rank → ∀ item ∈ items rank,
    ∃ owner : Fin size, destination item = .ok owner.val)
  (counted : premises.countable → (∀ rank, facts rank) → Countable destination items)

include named counted

/-- Groups by destination travel if everything can be counted. -/
theorem sendGroups_bound_leads : Leads premises.blame
    (fun rank => facts rank ∧
      ∀ owner : Fin size, (Grouping.bound destination (items rank) owner).length ≤ Count.most)
    (fun rank => sendGroups (members rank) tag
      (.ofGroups fun owner : Fin size => Grouping.bound destination (items rank) owner))
    (premises.blame.Pending (fun _ => ∀ rank, facts rank ∧
        ∀ owner : Fin size, (Grouping.bound destination (items rank) owner).length ≤ Count.most)
      fun rank => .ofGroups fun peer : Fin size => Grouping.bound destination (items peer) rank) := by
  -- What a rank sends is what it holds, and what it receives is what is bound for it.
  refine sendGroups_leads (fun all rank => (all rank).2) (fun countable all rank => ?_)
    fun countable all rank => ?_
  · rw [length_everything_bound (named rank (all rank).1)]
    exact (counted countable fun rank => (all rank).1).sends rank
  · rw [everything_bound]
    exact (counted countable fun rank => (all rank).1).receives rank

/-- Ranks may send what they hold to the ranks it goes to, as far as each of these can count it. -/
theorem send_counted_leads
    (few : premises.roomy → ∀ rank, facts rank → (items rank).length ≤ Count.most) :
    Leads premises.blame facts (fun rank => send (members rank) tag destination (items rank))
      (premises.blame.Pending (fun _ => ∀ rank, facts rank ∧
          ∀ owner : Fin size, (Grouping.bound destination (items rank) owner).length ≤ Count.most)
        fun rank => .ofGroups fun peer : Fin size => Grouping.bound destination (items peer) rank) :=
  (group_leads named few).after (sendGroups_bound_leads named counted)

/-- Ranks may send what they hold to the ranks it goes to. -/
theorem send_leads
    (few : premises.roomy → ∀ rank, facts rank → (items rank).length ≤ Count.most) :
    Leads premises.blame facts (fun rank => send (members rank) tag destination (items rank))
      (premises.blame.Pending (fun _ => ∀ rank, facts rank)
        fun rank => .ofGroups fun peer : Fin size => Grouping.bound destination (items peer) rank) :=
  (send_counted_leads named counted few).mono (fun _ fact => fact)
    fun _ held => held.mono fun _ all rank => (all rank).1

end Sent

/-- Ranks may send what can be counted whatever they know. -/
theorem send_leads_of_countable {tag : Payloads.Tag} {destination : Payloads.Value tag → Except Failure Nat}
    {items : Fin size → List (Payloads.Value tag)}
    (named : ∀ rank, facts rank → ∀ item ∈ items rank,
      ∃ owner : Fin size, destination item = .ok owner.val)
    (counted : premises.countable → Countable destination items) :
    Leads premises.blame facts (fun rank => send (members rank) tag destination (items rank))
      (premises.blame.Pending (fun _ => ∀ rank, facts rank)
        fun rank => .ofGroups fun peer : Fin size => Grouping.bound destination (items peer) rank) :=
  send_leads named (fun countable _ => counted countable)
    fun roomy rank _ => (counted (premises.countable_of_roomy roomy)).sends rank

end Generic

section Records

variable {placement : Placement} {records : Fin size → List EdgeRecord}
  (named : ∀ rank, facts rank → ∀ record ∈ records rank,
    ∃ owner : Fin size, placement.destination size record = .ok owner.val)
  (counted : premises.countable → Countable (placement.destination size) records)

include named counted

/-- Ranks may send records to where a placement puts them, as far as the records can be counted there. -/
theorem sendRecords_counted_leads :
    Leads premises.blame facts (fun rank => sendRecords (members rank) placement (records rank))
      (premises.blame.Pending (fun _ => ∀ rank, facts rank ∧ ∀ owner : Fin size,
          (Grouping.bound (placement.destination size) (records rank) owner).length ≤ Count.most)
        fun rank => Grouping.bound (placement.destination size) (everything records) rank) := by
  -- Records are sent as items, and the counts are dropped on arrival.
  simp only [← everything_bound _ records]
  have sent : Leads premises.blame facts
      (fun rank => send (members rank) Wire.record (placement.destination size) (records rank)) _ :=
    send_counted_leads named (fun countable _ => counted countable)
      fun roomy rank _ => (counted (premises.countable_of_roomy roomy)).sends rank
  exact sent.after (Leads.pure _)

/-- Ranks may send records to where a placement puts them. -/
theorem sendRecords_leads :
    Leads premises.blame facts (fun rank => sendRecords (members rank) placement (records rank))
      (premises.blame.Pending (fun _ => ∀ rank, facts rank)
        fun rank => Grouping.bound (placement.destination size) (everything records) rank) :=
  (sendRecords_counted_leads named counted).mono (fun _ fact => fact)
    fun _ held => held.mono fun _ all rank => (all rank).1

end Records

end Routing

end Steps

end DistGraph
