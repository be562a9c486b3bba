import DistGraph.Cluster.Mailbox
import DistGraph.Main
import DistGraph.Session
import DistGraph.Proofs.Cluster.Consistent
import DistGraph.Proofs.Cluster.Moves
import DistGraph.Proofs.Cluster.Progress
import DistGraph.Proofs.Cluster.History
import DistGraph.Proofs.Cluster.Together
import DistGraph.Proofs.Cluster.Rounds
import DistGraph.Proofs.Search
import DistGraph.Proofs.Runs
import DistGraph.Proofs.Partition
import DistGraph.Outcome
import DistGraph.Proofs.Everything
import DistGraph.Proofs.Communicator
import DistGraph.Proofs.Routing.Grouping
import DistGraph.Proofs.Routing.Exchange
import DistGraph.Proofs.Sorter
import DistGraph.Proofs.Ties
import DistGraph.Proofs.Edge.Record
import DistGraph.Proofs.Reference
import DistGraph.Proofs.Edge.Origin
import DistGraph.Proofs.Cleanup
import DistGraph.Proofs.Edge.Reversed
import DistGraph.Proofs.Edge.Settled
import DistGraph.Proofs.Sorted
import DistGraph.Proofs.Adjacency.RowTable
import DistGraph.Proofs.Adjacency.Segment
import DistGraph.Proofs.Adjacency.Pieces
import DistGraph.Proofs.Adjacency.Plain
import DistGraph.Proofs.Adjacency.Rows
import DistGraph.Proofs.Adjacency.Transpose
import DistGraph.Proofs.Adjacency.Turned
import DistGraph.Proofs.Adjacency.View
import DistGraph.Proofs.Adjacency.Build
import DistGraph.Proofs.Adjacency.Budgets
import DistGraph.Proofs.Construction.Checks
import DistGraph.Proofs.Word
import DistGraph.Proofs.Routing.Placement
import DistGraph.Proofs.Construction.Gathering
import DistGraph.Proofs.Construction.Listing
import DistGraph.Proofs.Construction.Frame
import DistGraph.Proofs.Construction.VertexCount
import DistGraph.Proofs.Construction.GivenIds
import DistGraph.Proofs.Numbering.DegreeOrder
import DistGraph.Proofs.Numbering.Degrees
import DistGraph.Proofs.Numbering.Ties
import DistGraph.Proofs.Numbering.Labels
import DistGraph.Proofs.Numbering.Resolve
import DistGraph.Proofs.Numbering.Assign
import DistGraph.Proofs.Construction.NewIds
import DistGraph.Proofs.Cluster.InStep
import DistGraph.Proofs.Cluster.Twins
import DistGraph.Proofs.Cluster.Retrace
import DistGraph.Proofs.Routing.InStep
import DistGraph.Proofs.Numbering.InStep
import DistGraph.Proofs.Numbering.Bijection
import DistGraph.Proofs.Adjacency.InStep
import DistGraph.Proofs.Construction.Refusal
import DistGraph.Proofs.Construction.InStep
import DistGraph.Proofs.Construction.Outcomes
import DistGraph.Proofs.Construction.Transpose
import DistGraph.Proofs.Construction.Valid
import DistGraph.Proofs.Construction.Failing
import DistGraph.Proofs.Construction.Faults
import DistGraph.Proofs.Construction.Verdict
import DistGraph.Proofs.Cluster.Apart
import DistGraph.Proofs.Routing.Apart
import DistGraph.Proofs.Construction.Rejection
import DistGraph.Proofs.Hash
import DistGraph.Proofs.Options
import DistGraph.Proofs.Construction.DegreeOrder
import DistGraph.Proofs.Construction.Determined
import DistGraph.Proofs.Construction.Duality
import DistGraph.Proofs.Construction.Again
import DistGraph.Proofs.Construction.Keyed
import DistGraph.Proofs.Construction.Sorting
import DistGraph.Proofs.Construction.Ties
import DistGraph.Proofs.Construction.Disagreement
import DistGraph.Proofs.Numbering.Asking
import DistGraph.Proofs.Numbering.Inquiry
import DistGraph.Proofs.Construction.Inquiry
import DistGraph.Proofs.Numbering.Replicas
import DistGraph.Proofs.Construction.Replicas
import DistGraph.Proofs.Cluster.Trailing
import DistGraph.Proofs.Routing.Limits
import DistGraph.Proofs.Construction.Limits
import DistGraph.Proofs.Routing.Delivery
import DistGraph.Proofs.Routing.Replies
import DistGraph.Proofs.Edge.Parallel
import DistGraph.Proofs.Edge.Reverses
import DistGraph.Proofs.Edge.Tidied
import DistGraph.Proofs.Adjacency.Greedy
import DistGraph.Proofs.Adjacency.RowStore
import DistGraph.Proofs.Ownership
import DistGraph.Proofs.Routing.Slots
import DistGraph.Proofs.Edge.Canonical
import DistGraph.Proofs.Cluster.Yields
import DistGraph.Proofs.Adjacency.Places
import DistGraph.Proofs.Construction.Places
