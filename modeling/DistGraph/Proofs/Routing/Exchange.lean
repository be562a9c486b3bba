import DistGraph.Adjacency.Segment
import DistGraph.Proofs.Routing.Grouping
import DistGraph.Routing

/-! What arrives when groups of items change ranks. -/

namespace DistGraph

variable {size : Nat}

section Carrying

variable [Payloads]

/-- Whether a rank can send and receive given numbers of items in one exchange. -/
structure Member.Carries (member : Member size) (tag : Payloads.Tag) (sent received : Nat) : Prop where
  /-- What is sent can be counted. -/
  sends : sent ≤ Count.most
  /-- What is received can be counted. -/
  receives : received ≤ Count.most
  /-- There is a buffer for what is received. -/
  stores : member.makeRoom (Payloads.bytes tag) received = .ok ()

/-- What a rank can carry depends on its memory only. -/
theorem Member.Carries.of_memory_eq {member other : Member size} {tag : Payloads.Tag} {sent received : Nat}
    (carries : member.Carries tag sent received) (memory : other.memory = member.memory) :
    other.Carries tag sent received :=
  ⟨carries.sends, carries.receives, Member.makeRoom_congr memory ▸ carries.stores⟩

end Carrying

/-- Whether a rank can count a given number of items, and has buffers for them whatever they are. -/
structure Member.Holds (member : Member size) (number : Nat) : Prop where
  /-- So many items can be counted. -/
  counts : number ≤ Count.most
  /-- There is a buffer for so many items of the greatest size. -/
  stores : member.makeRoom HalfEdge.cellBytes number = .ok ()

/-- No item that ranks exchange is larger than a cell. -/
theorem Wire.bytes_le (wire : Wire) : wire.bytes ≤ HalfEdge.cellBytes := by
  cases wire <;> decide

namespace Member.Holds

variable {member : Member size} {number : Nat}

/-- There are buffers for fewer and smaller items as well. -/
theorem makeRoom (holds : member.Holds number) {bytes length : Nat} (small : bytes ≤ HalfEdge.cellBytes)
    (few : length ≤ number) : member.makeRoom bytes length = .ok () := by
  -- The buffer asked for is no larger than the one that is known to be granted.
  have less : length * bytes ≤ number * HalfEdge.cellBytes := Nat.mul_le_mul few small
  have granted := holds.stores
  unfold Member.makeRoom at granted ⊢
  rw [mapError_eq_ok_iff, Memory.reserve_eq_ok_iff] at granted ⊢
  refine ⟨Nat.le_trans less granted.1, fun most limited => ?_⟩
  exact Nat.le_trans less (granted.2 most limited)

/-- A rank that holds a number of items can send and receive as many. -/
theorem carries (holds : member.Holds number) (wire : Wire) {sent received : Nat}
    (sends : sent ≤ number) (receives : received ≤ number) : member.Carries wire sent received where
  sends := Nat.le_trans sends holds.counts
  receives := Nat.le_trans receives holds.counts
  stores := holds.makeRoom wire.bytes_le receives

end Member.Holds

/-- A rank without a limit has every buffer that there can be. -/
theorem Member.makeRoom_of_unlimited {member : Member size} (free : member.memory = none)
    {bytes length : Nat} (fits : length * bytes ≤ Memory.largestBuffer) :
    member.makeRoom bytes length = .ok () := by
  unfold Member.makeRoom
  rw [mapError_eq_ok_iff, Memory.reserve_eq_ok_iff, free]
  exact ⟨fits, fun _ limited => nomatch limited⟩

/-- A rank without a limit has a buffer for all that it can count, whatever the items are. -/
theorem Member.makeRoom_of_counted [Payloads] {member : Member size} (free : member.memory = none)
    (tag : Payloads.Tag) {length : Nat} (few : length ≤ Count.most) :
    member.makeRoom (Payloads.bytes tag) length = .ok () := by
  -- Sizes of items fit half a word, so that counts of them fit the largest buffer.
  have most : Count.most * UInt32.size ≤ Memory.largestBuffer := by decide
  have fits : length * Payloads.bytes tag ≤ Count.most * UInt32.size :=
    Nat.mul_le_mul few (Payloads.bytes_le tag)
  exact Member.makeRoom_of_unlimited free (Nat.le_trans fits most)

/-- A rank without a limit can carry all that it can count. -/
theorem Member.carries_of_unlimited [Payloads] {member : Member size} (free : member.memory = none)
    (tag : Payloads.Tag) {sent received : Nat} (sends : sent ≤ Count.most)
    (receives : received ≤ Count.most) : member.Carries tag sent received :=
  ⟨sends, receives, Member.makeRoom_of_counted free tag receives⟩

/-- A rank without a limit can hold all that it can count. -/
theorem Member.holds_of_unlimited {member : Member size} (free : member.memory = none) {number : Nat}
    (few : number ≤ Count.most) : member.Holds number := by
  refine ⟨few, Member.makeRoom_of_unlimited free ?_⟩
  -- Cells are the largest items that are stored, and as many as can be counted fit.
  have cells : number * HalfEdge.cellBytes ≤ Count.most * HalfEdge.cellBytes := Nat.mul_le_mul_right _ few
  have small : Count.most * HalfEdge.cellBytes ≤ Memory.largestBuffer := by decide
  exact Nat.le_trans cells small

namespace Routing

section Groups

variable [Payloads] (members : Fin size → Member size) (tag : Payloads.Tag)

/-- Ranks know the room that announced groups take, if it fits a word. -/
theorem total_computes {α : Type} {groups : Fin size → Fin size → List α}
    (small : ∀ sender receiver, (groups sender receiver).length ≤ Count.most) :
    Computes (fun rank => (Program.ofExcept (Failure.ofDefect
        (Count.total (Communicator.announced fun peer => groups peer rank))) :
        Program size Failure UInt64)) fun rooms =>
      (∀ rank, (everything fun peer => groups peer rank).length < UInt64.size) ∧
      rooms = fun rank => UInt64.ofNat (everything fun peer => groups peer rank).length := by
  -- The sum of the counts is the number of items, or overflows if it is no word.
  refine (Computes.ofExcept _).congr fun rooms => ?_
  simp only [Failure.ofDefect_eq_ok_iff, Communicator.total_announced fun sender => small sender _]
  constructor
  · intro lengths
    refine ⟨fun rank => lengths rank ▸ (rooms rank).toNat_lt_size, ?_⟩
    funext rank
    rw [lengths rank, UInt64.ofNat_toNat]
  · rintro ⟨fits, rfl⟩ rank
    exact (UInt64.toNat_ofNat_of_lt' (fits rank)).symm

/-- Every rank is given the answers to its questions, unless some rank cannot carry them. -/
theorem sendBack_computes {groups : Fin size → Fin size → List (Payloads.Value tag)}
    (small : ∀ sender receiver, (groups sender receiver).length ≤ Count.most) :
    Computes (fun rank => sendBack (members rank) tag (.ofGroups (groups rank))
        (Communicator.announced fun peer => groups peer rank)) fun received =>
      (∀ rank, (members rank).Carries tag (everything (groups rank)).length
        (everything fun peer => groups peer rank).length) ∧
      received = fun rank => everything fun peer => groups peer rank := by
  -- What is received has to be added up and stored before anything is sent.
  refine ((total_computes small).afterIf (fun received =>
    (∀ rank, (members rank).makeRoom (Payloads.bytes tag) (everything fun peer => groups peer rank).length =
      .ok ()) ∧
    ((∀ rank, (everything (groups rank)).length ≤ Count.most) ∧
      ∀ rank, (everything fun peer => groups peer rank).length ≤ Count.most) ∧
    received = fun rank => everything fun peer => groups peer rank) fun fits => ?_).congr
    fun received => ?_
  · simp only [UInt64.toNat_ofNat_of_lt' (fits _)]
    exact (Computes.require _).afterIf _ fun _ => (Communicator.allToAllV_computes small).mapError
  · constructor
    · intro ⟨_, stores, ⟨sends, receives⟩, known⟩
      exact ⟨fun rank => ⟨sends rank, receives rank, stores rank⟩, known⟩
    · intro ⟨carries, known⟩
      refine ⟨fun rank => ?_, fun rank => (carries rank).stores,
        ⟨fun rank => (carries rank).sends, fun rank => (carries rank).receives⟩, known⟩
      exact Nat.lt_of_le_of_lt (carries rank).receives (by decide)

/-- Once the counts are known, groups travel like answers that are expected. -/
theorem sendGroups_eq (self : Member size) (tag : Payloads.Tag)
    (groups : Fin size → List (Payloads.Value tag)) :
    sendGroups self tag (.ofGroups groups) =
      ((Communicator.allToAll (Communicator.announced groups)).mapError .ofGraph >>= fun counts =>
        sendBack self tag (.ofGroups groups) counts >>= fun items => pure ⟨items, counts⟩) := by
  simp [sendGroups, sendBack]

/-- Every rank is given its groups from all ranks, unless some rank cannot carry them. -/
theorem sendGroups_computes {groups : Fin size → Fin size → List (Payloads.Value tag)}
    (small : ∀ sender receiver, (groups sender receiver).length ≤ Count.most) :
    Computes (fun rank => sendGroups (members rank) tag (.ofGroups (groups rank))) fun received =>
      (∀ rank, (members rank).Carries tag (everything (groups rank)).length
        (everything fun peer => groups peer rank).length) ∧
      received = fun rank => .ofGroups fun peer => groups peer rank := by
  -- Counts are exchanged first, then room is made and the groups themselves are sent.
  simp only [sendGroups_eq]
  refine (Computes.mapError (Communicator.allToAll_computes
    fun sender receiver => Int32.ofNat (groups sender receiver).length)).after ?_
  exact (sendBack_computes members tag small).afterIf _ fun _ => Computes.pure _

/-- Whether all items that the ranks hold can be sent to their destinations in one exchange. -/
structure Deliverable (destination : Payloads.Value tag → Except Failure Nat)
    (items : Fin size → List (Payloads.Value tag)) : Prop where
  /-- Every item goes to some rank. -/
  named : ∀ item ∈ everything items, ∃ rank : Fin size, destination item = .ok rank.val
  /-- No rank is asked for more than it can carry. -/
  carried : ∀ rank, (members rank).Carries tag (items rank).length
    (Grouping.bound destination (everything items) rank).length

/-- What can be delivered is told by the destinations of what every rank holds, in whatever order, and by
the memory of the ranks. -/
theorem Deliverable.of_map_perm {members others : Fin size → Member size} {tag : Payloads.Tag}
    {destination otherDestination : Payloads.Value tag → Except Failure Nat}
    {items otherItems : Fin size → List (Payloads.Value tag)}
    (deliverable : Deliverable members tag destination items)
    (memory : ∀ rank, (others rank).memory = (members rank).memory)
    (same : ∀ rank, ((otherItems rank).map otherDestination).Perm ((items rank).map destination)) :
    Deliverable others tag otherDestination otherItems := by
  have all : ((everything otherItems).map otherDestination).Perm ((everything items).map destination) := by
    rw [map_everything, map_everything]
    exact everything_perm same
  -- What a rank receives is counted by destinations alone.
  have bound : ∀ (destination : Payloads.Value tag → Except Failure Nat) (held : List (Payloads.Value tag))
      (rank : Fin size), (Grouping.bound destination held rank).length =
        ((held.map destination).filter fun goes => goes = .ok rank.val).length := by
    intro destination held rank
    rw [List.filter_map, List.length_map]
    rfl
  refine ⟨fun item member => ?_, fun rank => ?_⟩
  · obtain ⟨twin, held, goes⟩ := List.mem_map.mp (all.subset (List.mem_map_of_mem member))
    obtain ⟨rank, reaches⟩ := deliverable.named twin held
    exact ⟨rank, goes ▸ reaches⟩
  · have sent : (otherItems rank).length = (items rank).length := by
      simpa using (same rank).length_eq
    have received : (Grouping.bound otherDestination (everything otherItems) rank).length =
        (Grouping.bound destination (everything items) rank).length := by
      rw [bound, bound]
      exact (all.filter _).length_eq
    rw [sent, received]
    exact (deliverable.carried rank).of_memory_eq (memory rank)

end Groups

/-- What ranks hold for a rank, taken together, is what there is for it altogether. -/
@[simp] theorem everything_bound {α : Type} (destination : α → Except Failure Nat)
    (items : Fin size → List α) (rank : Fin size) :
    (everything fun peer => Grouping.bound destination (items peer) rank) =
      Grouping.bound destination (everything items) rank :=
  (filter_everything _ items).symm

/-- Items of which each has a destination are all grouped by their destinations. -/
theorem everything_bound_perm {α : Type} {destination : α → Except Failure Nat} {items : List α}
    (named : ∀ item ∈ items, ∃ rank : Fin size, destination item = .ok rank.val) :
    (everything fun rank : Fin size => Grouping.bound destination items rank).Perm items := by
  cases items with
  | nil => simp [everything, Grouping.bound]
  | cons first items =>
    have : Nonempty (Fin size) := ⟨(named first List.mem_cons_self).choose⟩
    -- Every item has one owner, and a rank is bound the items that it owns.
    choose! owner known using named
    have same : (fun rank : Fin size => Grouping.bound destination (first :: items) rank) =
        fun rank => (first :: items).filter fun item => owner item = rank := by
      funext rank
      apply List.filter_congr
      intro item member
      simp [known item member, Fin.ext_iff]
    rw [same]
    exact everything_filter_perm owner _

/-- What is sent is counted without regard to its groups. -/
theorem length_everything_bound {α : Type} {destination : α → Except Failure Nat} {items : List α}
    (named : ∀ item ∈ items, ∃ rank : Fin size, destination item = .ok rank.val) :
    (everything fun rank : Fin size => Grouping.bound destination items rank).length =
      items.length :=
  (everything_bound_perm named).length_eq

/-- Items can be counted by a word if each rank that they go to can count its own. -/
theorem length_lt_of_counted {α : Type} (ranks : size ≤ UInt32.size) {destination : α → Except Failure Nat}
    {items : List α} (named : ∀ item ∈ items, ∃ owner : Fin size, destination item = .ok owner.val)
    (counted : ∀ owner : Fin size, (Grouping.bound destination items owner).length ≤ Count.most) :
    items.length < UInt64.size := by
  have most : Count.most * UInt32.size < UInt64.size := by decide
  -- There are at most as many groups as a half word counts, each of at most the greatest count.
  have all : (everything fun owner : Fin size => Grouping.bound destination items owner).length ≤
      Count.most * (everything fun _ : Fin size => [()]).length :=
    length_everything_le fun owner => by simpa using counted owner
  rw [length_everything_bound named, length_everything_copies, List.length_singleton, Nat.one_mul] at all
  have product : Count.most * size ≤ Count.most * UInt32.size := Nat.mul_le_mul_left _ ranks
  omega

/-- No item goes to two ranks. -/
theorem length_everything_bound_le {α : Type} (destination : α → Except Failure Nat)
    (items : List α) :
    (everything fun rank : Fin size => Grouping.bound destination items rank).length ≤ items.length := by
  -- Items that go nowhere are left out first.
  let sent := items.filter fun item => ∃ rank : Fin size, destination item = .ok rank.val
  have same : (fun rank : Fin size => Grouping.bound destination items rank) =
      fun rank => Grouping.bound destination sent rank := by
    funext rank
    rw [Grouping.bound, Grouping.bound, List.filter_filter]
    refine List.filter_congr fun item _ => ?_
    rw [← Bool.decide_and]
    exact decide_eq_decide.mpr ⟨fun goes => ⟨goes, rank, goes⟩, And.left⟩
  have named : ∀ item ∈ sent, ∃ rank : Fin size, destination item = .ok rank.val :=
    fun item member => of_decide_eq_true (List.mem_filter.mp member).2
  rw [same, length_everything_bound named]
  exact List.length_filter_le _ _

section Sending

variable [Payloads]

/-- Ranks group what they have by destinations if each item has one, and none too many items. -/
theorem group_computes {α : Type} [Inhabited α] (destination : α → Except Failure Nat)
    (items : Fin size → List α) :
    Computes (fun rank => (Program.ofExcept (Grouping.group size destination (items rank)) :
        Program size Failure (Grouped α))) fun results =>
      ((∀ rank, ∀ item ∈ items rank, ∃ owner : Fin size, destination item = .ok owner.val) ∧
        ∀ rank (owner : Fin size), (Grouping.bound destination (items rank) owner).length ≤
          Count.most) ∧
      results = fun rank =>
        .ofGroups fun owner : Fin size => Grouping.bound destination (items rank) owner := by
  refine (Computes.ofExcept _).congr fun results => ?_
  simp only [Grouping.group_eq_ok_iff, forall_and, funext_iff, and_assoc]

/-- Every rank is given the items that all ranks hold for it, if all items can be delivered. -/
theorem send_computes (members : Fin size → Member size) (tag : Payloads.Tag)
    (destination : Payloads.Value tag → Except Failure Nat)
    (items : Fin size → List (Payloads.Value tag)) :
    Computes (fun rank => send (members rank) tag destination (items rank)) fun received =>
      Deliverable members tag destination items ∧
      received = fun rank => .ofGroups fun peer => Grouping.bound destination (items peer) rank := by
  refine ((group_computes destination items).afterIf _ fun condition =>
    sendGroups_computes members tag condition.2).congr fun received => ?_
  simp only [everything_bound]
  -- Grouping names a rank for every item and counts them, and sending needs the same counts.
  constructor
  · intro ⟨⟨named, _⟩, carried, known⟩
    refine ⟨⟨?_, fun rank => length_everything_bound (named rank) ▸ carried rank⟩, known⟩
    intro item member
    obtain ⟨rank, member⟩ := mem_everything.mp member
    exact named rank item member
  · intro ⟨deliverable, known⟩
    have named : ∀ rank, ∀ item ∈ items rank, ∃ owner : Fin size, destination item = .ok owner.val :=
      fun rank item member => deliverable.named item (mem_everything.mpr ⟨rank, member⟩)
    refine ⟨⟨named, fun rank owner => ?_⟩,
      fun rank => (length_everything_bound (named rank)).symm ▸ deliverable.carried rank, known⟩
    exact Nat.le_trans (List.length_filter_le _ _) (deliverable.carried rank).sends

end Sending

/-- Items with destinations can be delivered to ranks that can hold all of them. -/
theorem Deliverable.of_holds {members : Fin size → Member size} {wire : Wire}
    {destination : wire.Value → Except Failure Nat} {items : Fin size → List wire.Value} {number : Nat}
    (named : ∀ item ∈ everything items, ∃ rank : Fin size, destination item = .ok rank.val)
    (few : (everything items).length ≤ number) (holds : ∀ rank, (members rank).Holds number) :
    Deliverable members wire destination items := by
  refine ⟨named, fun rank => (holds rank).carries wire ?_ ?_⟩
  · exact Nat.le_trans (length_le_everything items rank) few
  · exact Nat.le_trans (List.length_filter_le _ _) few

/-- Every rank is given the records that all ranks hold for it, if all records can be delivered. -/
theorem sendRecords_computes (members : Fin size → Member size) (placement : Placement)
    (records : Fin size → List EdgeRecord) :
    Computes (fun rank => sendRecords (members rank) placement (records rank)) fun received =>
      Deliverable members Wire.record (placement.destination size) records ∧
      received = fun rank =>
        Grouping.bound (placement.destination size) (everything records) rank := by
  simp only [← everything_bound _ records]
  exact (send_computes members Wire.record (placement.destination size) records).afterIf _
    fun _ => Computes.pure _

end Routing

end DistGraph
