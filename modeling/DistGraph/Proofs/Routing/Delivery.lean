import Mathlib.Data.Fin.VecNotation
import DistGraph.Proofs.Routing.Exchange
import DistGraph.Proofs.Routing.Placement

/-! Ranks without a limit that send items to their owners lose none, copy none and change none. -/

namespace DistGraph

variable {size : Nat} {α : Type}

namespace EdgeRecord

/-- Whether a record joins two vertices, in either direction. -/
def joins (left right : VertexId) (record : EdgeRecord) : Bool :=
  -- An edge and its reverse join the same vertices.
  record.src = left ∧ record.dst = right ∨ record.src = right ∧ record.dst = left

/-- Records that join the same vertices go to the same rank if they are placed by their pair. -/
theorem destination_eq_of_joins {record other : EdgeRecord} (ranks : Nat)
    (joined : other.joins record.src record.dst = true) :
    Placement.byPair.destination ranks other = Placement.byPair.destination ranks record := by
  -- The other record runs in the same direction or in the opposite one.
  rcases of_decide_eq_true joined with ⟨src, dst⟩ | ⟨src, dst⟩
  · exact Placement.destination_congr .byPair ranks other record src dst
  · rw [← Placement.destination_byPair_reversed]
    exact Placement.destination_congr .byPair ranks other.reversed record dst src

end EdgeRecord

namespace Placement

/-- Whether a placement is one for a number of ranks and covers the major endpoints of records. -/
def Covers (ranks : Nat) (records : List EdgeRecord) : Placement → Prop
  -- Only a partition leaves ids out.
  | @byOwner parts partition transposed =>
    parts = ranks ∧ ∀ record ∈ records, record.major transposed < partition.vertexCount
  | .byHash _ => True
  | .byPair => True

/-- Records that are covered all have a rank to go to. -/
theorem Covers.exists_destination {placement : Placement} {records : Fin size → List EdgeRecord}
    (covers : placement.Covers size (everything records)) :
    ∀ record ∈ everything records, ∃ rank : Fin size, placement.destination size record = .ok rank.val := by
  intro record member
  -- The rank that holds the record shows that there are ranks.
  obtain ⟨someone, -⟩ := mem_everything.mp member
  cases placement with
  | byOwner partition transposed =>
    obtain ⟨rfl, inside⟩ := covers
    exact exists_destination_byOwner (inside record member)
  | byHash transposed => exact exists_destination_byHash someone transposed record
  | byPair => exact exists_destination_byPair someone record

end Placement

namespace Routing

/-- What a rank holds for another one when every item has an owner, in the order in which it is held. -/
def share (owner : Fin size → α → Fin size) (items : Fin size → List α) (sender receiver : Fin size) :
    List α :=
  -- Every rank tells by itself who owns what it holds.
  (items sender).filter fun item => owner sender item = receiver

/-- Shares can be counted if what a rank holds can be. -/
theorem length_share_le {items : Fin size → List α} (sends : ∀ rank, (items rank).length < 2 ^ 31)
    (owner : Fin size → α → Fin size) (sender receiver : Fin size) :
    (share owner items sender receiver).length ≤ Count.most :=
  Nat.le_trans (List.length_filter_le _ _) (Nat.le_pred_of_lt (sends sender))

/-- What ranks hold for others, all taken together, is what they hold. -/
theorem everything_share_perm (owner : Fin size → α → Fin size) (items : Fin size → List α) :
    (everything fun receiver => everything fun sender => share owner items sender receiver).Perm
      (everything items) :=
  (everything_swap_perm (share owner items)).trans
    (everything_perm fun sender => everything_filter_perm (owner sender) (items sender))

/-- Items that have been brought to their owners, with nothing lost, copied or out of order. -/
structure Delivered (owner : Fin size → α → Fin size) (items : Fin size → List α)
    (received : Fin size → Grouped α) : Prop where
  /-- Every rank has what lower ranks hold for it before what higher ones do. -/
  ordered : ∀ rank, (received rank).items = everything fun peer => share owner items peer rank
  /-- Every rank is told how much it has from each of them. -/
  counted : ∀ rank, (received rank).counts.map Int32.toInt =
    List.ofFn fun peer => ((share owner items peer rank).length : Int)
  /-- Over all ranks the items are the same as before. -/
  complete : (everything fun rank => (received rank).items).Perm (everything items)

/-- Groups of shares are a delivery, if they can be counted. -/
theorem Delivered.of_shares (owner : Fin size → α → Fin size) {items : Fin size → List α}
    (sends : ∀ rank, (items rank).length < 2 ^ 31) :
    Delivered owner items fun rank => .ofGroups fun peer => share owner items peer rank where
  ordered _ := rfl
  -- No rank sends more than can be counted, and each share is a part of that.
  counted rank := by
    rw [Grouped.counts_ofGroups, Communicator.announced, List.map_ofFn]
    congr 1
    funext peer
    exact Count.toInt_ofNat (length_share_le sends owner peer rank)
  complete := everything_share_perm owner items

/-- Ranks whose items all have owners come to a delivery together. -/
theorem send_together [Payloads] {members : Fin size → Member size} {tag : Payloads.Tag}
    {items : Fin size → List (Payloads.Value tag)}
    {destination : Fin size → Payloads.Value tag → Except Failure Nat}
    {owner : Fin size → Payloads.Value tag → Fin size}
    (free : ∀ rank, (members rank).memory = none)
    (named : ∀ rank, ∀ item ∈ items rank, destination rank item = .ok (owner rank item).val)
    (sends : ∀ rank, (items rank).length < 2 ^ 31)
    (receives : ∀ rank, (everything fun peer => share owner items peer rank).length < 2 ^ 31) :
    Together (fun rank => send (members rank) tag (destination rank) (items rank))
      fun rank => .ofGroups fun peer => share owner items peer rank := by
  have small := length_share_le sends owner
  -- The items of a rank for a destination are those whose owner is there.
  have owned : ∀ sender receiver, Grouping.bound (destination sender) (items sender) receiver =
      share owner items sender receiver := by
    intro sender receiver
    refine List.filter_congr fun item member => ?_
    rw [named sender item member]
    simp [Fin.ext_iff]
  -- Grouping finds an owner for each item and shares that can be counted.
  have groups : ∀ rank, Grouping.group size (destination rank) (items rank) =
      .ok (.ofGroups (share owner items rank)) := by
    intro rank
    refine Grouping.group_eq_ok_iff.mpr ⟨fun item member => ⟨_, named rank item member⟩, ?_, ?_⟩
    · exact fun receiver => owned rank receiver ▸ small rank receiver
    · exact congrArg Grouped.ofGroups (funext fun receiver => (owned rank receiver).symm)
  have sendsAll : (fun rank => send (members rank) tag (destination rank) (items rank)) =
      fun rank => sendGroups (members rank) tag (.ofGroups (share owner items rank)) := by
    funext rank
    unfold send
    rw [groups rank]
    rfl
  rw [sendsAll]
  refine (sendGroups_computes members tag small).together_iff.mpr ⟨fun rank => ?_, rfl⟩
  -- All that a rank sends is what it holds.
  have sent : (everything (share owner items rank)).length = (items rank).length :=
    (everything_filter_perm (owner rank) (items rank)).length_eq
  exact Member.carries_of_unlimited (free rank) tag (sent ▸ Nat.le_pred_of_lt (sends rank))
    (Nat.le_pred_of_lt (receives rank))

/-- Records that have been brought to the ranks that a placement names for them. -/
structure Landed (placement : Placement) (records received : Fin size → List EdgeRecord) : Prop where
  /-- Every rank has the records that are placed on it, in the order in which all ranks held them. -/
  placed : ∀ rank, received rank =
    (everything records).filter fun record => placement.destination size record = .ok rank.val
  /-- Over all ranks the records are the same as before. -/
  complete : (everything received).Perm (everything records)
  /-- Copies of an edge and of its reverse are all on one rank if they are placed by their pair. -/
  meets : placement = .byPair → ∀ record ∈ everything records, ∃ home : Fin size,
    (received home).filter (EdgeRecord.joins record.src record.dst) =
      (everything records).filter (EdgeRecord.joins record.src record.dst) ∧
    ∀ rank, rank ≠ home → ∀ other ∈ received rank, other.joins record.src record.dst = false

/-- Records are on the rank that is named for each of them, and there is only one. -/
theorem Landed.of_bound {placement : Placement} {records : Fin size → List EdgeRecord}
    (named : ∀ record ∈ everything records,
      ∃ rank : Fin size, placement.destination size record = .ok rank.val) :
    Landed placement records fun rank =>
      Grouping.bound (placement.destination size) (everything records) rank where
  placed _ := rfl
  complete := everything_bound_perm named
  meets := by
    rintro rfl record member
    obtain ⟨home, goes⟩ := named record member
    -- Whatever joins the same vertices as the record goes where it does.
    have meet : ∀ other : EdgeRecord, other.joins record.src record.dst = true →
        Placement.byPair.destination size other = .ok home.val :=
      fun other joined => (EdgeRecord.destination_eq_of_joins size joined).trans goes
    refine ⟨home, ?_, fun rank different other held => ?_⟩
    · rw [Grouping.bound, List.filter_filter]
      refine List.filter_congr fun other _ => ?_
      cases joined : other.joins record.src record.dst with
      | false => rfl
      | true => simpa using meet other joined
    · have elsewhere : Placement.byPair.destination size other = .ok rank.val :=
        of_decide_eq_true (List.mem_filter.mp held).2
      refine Bool.eq_false_iff.mpr fun joined => different ?_
      exact Fin.ext (Except.ok.inj (elsewhere.symm.trans (meet other joined)))

/-- Ranks without a limit that send and receive fewer than 2^31 items each bring all of them to their
owners, by the rank they come from and in their order there. Records that are placed all land where they
are placed, and an edge meets its copies and their reverses where it is placed by its pair. -/
theorem send_delivers (members : Fin size → Member size) (free : ∀ rank, (members rank).memory = none) :
    (∀ [Payloads] (tag : Payloads.Tag) (items : Fin size → List (Payloads.Value tag))
        (destination : Fin size → Payloads.Value tag → Except Failure Nat)
        (owner : Fin size → Payloads.Value tag → Fin size),
      (∀ rank, ∀ item ∈ items rank, destination rank item = .ok (owner rank item).val) →
      (∀ rank, (items rank).length < 2 ^ 31) →
      (∀ rank, (everything fun peer => share owner items peer rank).length < 2 ^ 31) →
      ∀ run : Cluster.Run (Vector.ofFn fun rank =>
          send (members rank) tag (destination rank) (items rank)),
        ∃ received, (∀ rank, run.outcome rank = some (.ok (received rank))) ∧
          Delivered owner items received) ∧
    ∀ (placement : Placement) (records : Fin size → List EdgeRecord),
      placement.Covers size (everything records) →
      (∀ rank, (records rank).length < 2 ^ 31) →
      (∀ rank : Fin size, ((everything records).filter fun record =>
        placement.destination size record = .ok rank.val).length < 2 ^ 31) →
      ∀ run : Cluster.Run (Vector.ofFn fun rank =>
          sendRecords (members rank) placement (records rank)),
        ∃ received, (∀ rank, run.outcome rank = some (.ok (received rank))) ∧
          Landed placement records received := by
  constructor
  · intro family tag items destination owner named sends receives run
    have together := send_together free named sends receives
    exact ⟨_, run.together_iff.mpr together, .of_shares owner sends⟩
  · intro placement records covers sends receives run
    -- The owners of records are the ranks that the placement names.
    have named := covers.exists_destination
    have carried : ∀ rank, (members rank).Carries Wire.record (records rank).length
        (Grouping.bound (placement.destination size) (everything records) rank).length := fun rank =>
      Member.carries_of_unlimited (free rank) Wire.record (Nat.le_pred_of_lt (sends rank))
        (Nat.le_pred_of_lt (receives rank))
    refine ⟨_, run.together_iff.mpr ?_, .of_bound named⟩
    exact (sendRecords_computes members placement records).together_iff.mpr ⟨⟨named, carried⟩, rfl⟩

/-- Two ranks send even words to the first of them and odd ones to the second, and an edge meets its reverse
where it is placed by its pair. -/
theorem send_delivers_sample :
    let members : Fin 2 → Member 2 := fun rank => { rank, memory := none }
    let items : Fin 2 → List UInt64 := ![[5, 4, 7], [2, 3]]
    let owner : Fin 2 → UInt64 → Fin 2 := fun _ item => if item % 2 = 0 then 0 else 1
    let records : Fin 2 → List EdgeRecord :=
      ![[.ofEdge ⟨1, 2, none, none, none⟩ 0 0], [.ofEdge ⟨2, 1, none, none, none⟩ 1 0]]
    (∃ (run : Cluster.Run (Vector.ofFn fun rank : Fin 2 =>
        send (members rank) Wire.word (fun item => .ok (owner rank item).val) (items rank)))
      (received : Fin 2 → Grouped UInt64),
      (∀ rank, run.outcome rank = some (.ok (received rank))) ∧
      (received 0).items = [4, 2] ∧ (received 1).items = [5, 7, 3]) ∧
    ∃ (run : Cluster.Run (Vector.ofFn fun rank : Fin 2 =>
        sendRecords (members rank) .byPair (records rank)))
      (received : Fin 2 → List EdgeRecord) (home : Fin 2),
      (∀ rank, run.outcome rank = some (.ok (received rank))) ∧
      (received home).filter (EdgeRecord.joins 1 2) = records 0 ++ records 1 := by
  intro members items owner records
  -- Both parts are cases of the theorem, with counts small enough to be decided.
  obtain ⟨delivers, lands⟩ := send_delivers members fun _ => rfl
  constructor
  · obtain ⟨run⟩ := Cluster.Run.exists_of_programs (Vector.ofFn fun rank : Fin 2 =>
      send (members rank) Wire.word (fun item => .ok (owner rank item).val) (items rank))
    obtain ⟨received, ends, delivered⟩ := delivers Wire.word items
      (fun rank item => .ok (owner rank item).val) owner (fun _ _ _ => rfl) (by decide) (by decide) run
    exact ⟨run, received, ends, delivered.ordered 0, delivered.ordered 1⟩
  · obtain ⟨run⟩ := Cluster.Run.exists_of_programs (Vector.ofFn fun rank : Fin 2 =>
      sendRecords (members rank) .byPair (records rank))
    obtain ⟨received, ends, landed⟩ := lands .byPair records trivial (by decide) (by decide) run
    obtain ⟨home, together, -⟩ := landed.meets rfl (.ofEdge ⟨1, 2, none, none, none⟩ 0 0) (by decide)
    exact ⟨run, received, home, ends, together⟩

end Routing

end DistGraph
