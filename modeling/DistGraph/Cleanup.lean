import DistGraph.Edge.Record
import DistGraph.Options
import DistGraph.Runs
import DistGraph.Search
import DistGraph.Sorter

/-! The edges of one rank put in order, rid of duplicates and closed under reversal. -/

namespace DistGraph

/-- Combines the weights of two parallel edges. -/
def MergePolicy.combine (policy : MergePolicy) (folded weight : Weight) : Weight :=
  -- Policies without arithmetic keep the earlier weight.
  match policy with
  | .sum => folded.add weight
  | .min => folded.min weight
  | .max => folded.max weight
  | .keepAll | .keepFirst => folded

/-- The combined weight of edges of which some may have none. -/
def MergePolicy.combineAll (policy : MergePolicy) : List Weight → Option Weight
  -- The first weight is combined with the later ones in order.
  | [] => none
  | first :: later => some (later.foldl policy.combine first)

/-- The one record that stands for parallel records. -/
def MergePolicy.merge (policy : MergePolicy) (first : EdgeRecord) (later : List EdgeRecord) :
    EdgeRecord :=
  -- Everything but the weight is the first record's.
  if policy = .keepFirst then first
  else first.withWeight (policy.combineAll ((first :: later).filterMap EdgeRecord.weight?))

namespace Cleanup

/-- The records that leave and enter different vertices. -/
def withoutSelfLoops (records : List EdgeRecord) : List EdgeRecord :=
  -- The order of the rest does not change.
  records.filter fun record => !record.isSelfLoop

/-- Whether two records have the same endpoints. -/
def parallel (left right : EdgeRecord) : Bool :=
  -- Direction matters.
  left.src == right.src && left.dst == right.dst

/-- Replaces neighbouring parallel records by one, unless the policy keeps them all. -/
def mergeParallel (policy : MergePolicy) (records : List EdgeRecord) : List EdgeRecord :=
  -- In sorted lists all parallel records are neighbours, whatever the orientation.
  if policy = .keepAll then records
  else (runs parallel records).map fun run => policy.merge run.1 run.2

/-- Whether records sorted by endpoints hold one with given endpoints. -/
def hasEdge (records : Array EdgeRecord) (src dst : VertexId) : Bool :=
  -- Entries are compared to the endpoints that are sought.
  (Search.find? records.size fun i =>
    match records[i]? with
    | some record => (compare record.src src).then (compare record.dst dst)
    | none => .gt).isSome

/-- The reverses that records sorted by endpoints lack. -/
def missingReverses (records : List EdgeRecord) : List EdgeRecord :=
  -- Parallel records lack one reverse each, and self-loops lack none.
  let sorted := records.toArray
  (records.filter fun record =>
    !record.isSelfLoop && !hasEdge sorted record.dst record.src).map EdgeRecord.reversed

/-- Adds the reverse of every record whose reverse is missing. -/
def withReverses (records : List EdgeRecord) : List EdgeRecord :=
  -- A reverse keeps the attributes and the origin of the record it turns around.
  records ++ missingReverses records

/-- Puts the records of a rank in order and cleans them up as asked. -/
def tidy (sorter : Sorter) (policy : MergePolicy) (dropSelfLoops closeUnderReversal : Bool)
    (records : List EdgeRecord) : List EdgeRecord :=
  -- Duplicates are merged before reversal, so that no weight is counted twice.
  let kept := if dropSelfLoops then withoutSelfLoops records else records
  let merged := mergeParallel policy (sorter.records false kept)
  if closeUnderReversal then sorter.records false (withReverses merged) else merged

/-- A pass over the records of a rank. -/
inductive Pass where
  /-- Sort them in an orientation. -/
  | sort (transposed : Bool)
  /-- Drop self-loops. -/
  | withoutSelfLoops
  /-- Merge parallel neighbours. -/
  | mergeParallel (policy : MergePolicy)
  /-- Add missing reverses. -/
  | withReverses
  /-- Do all of it. -/
  | tidy (policy : MergePolicy) (dropSelfLoops closeUnderReversal : Bool)

/-- The records after a pass. -/
def Pass.apply (sorter : Sorter) (records : List EdgeRecord) : Pass → List EdgeRecord
  -- Each pass is one of the operations above.
  | .sort transposed => sorter.records transposed records
  | .withoutSelfLoops => Cleanup.withoutSelfLoops records
  | .mergeParallel policy => Cleanup.mergeParallel policy records
  | .withReverses => Cleanup.withReverses records
  | .tidy policy dropSelfLoops closeUnderReversal =>
    Cleanup.tidy sorter policy dropSelfLoops closeUnderReversal records

/-- How many records a pass reports to have removed, if it reports that. -/
def Pass.removed? (records : List EdgeRecord) : Pass → Option Nat
  -- Only the removal of self-loops counts what it drops.
  | .withoutSelfLoops => some (records.length - (Cleanup.withoutSelfLoops records).length)
  | .sort _ | .mergeParallel _ | .withReverses | .tidy .. => none

/-- What each of a list of passes removes and leaves. -/
def history (sorter : Sorter) (records : List EdgeRecord) :
    List Pass → List (Option Nat × List EdgeRecord)
  -- Every pass starts from what the one before it left.
  | [] => []
  | pass :: later =>
    (pass.removed? records, pass.apply sorter records) ::
      history sorter (pass.apply sorter records) later

end Cleanup

end DistGraph
