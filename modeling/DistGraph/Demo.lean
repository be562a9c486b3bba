import DistGraph.Cluster.Lockstep
import DistGraph.Construction
import DistGraph.Decimal

/-! A demonstration that builds a small graph on a chosen number of ranks and prints it. -/

namespace DistGraph.Demo

/-- What a run of the demonstration prints, and the code it exits with. -/
structure Transcript where
  /-- The exit code. -/
  exitCode : UInt8
  /-- The lines of the standard output. -/
  stdout : List String
  /-- The lines of the standard error output that are no log lines. -/
  stderr : List String
  /-- The log lines of the ranks, rank by rank. -/
  log : List String

/-- The endpoints of the edges of the demonstration. -/
def endpoints : List (VertexId × VertexId) :=
  -- Sixteen vertices are joined by twenty-eight edges.
  [(1, 2), (1, 4), (1, 7), (2, 0), (2, 4), (2, 5), (2, 6), (3, 0), (3, 7), (4, 0), (4, 10), (5, 0),
    (5, 7), (5, 11), (6, 7), (6, 11), (8, 9), (8, 10), (8, 11), (8, 14), (8, 15), (9, 12), (9, 14),
    (10, 11), (10, 12), (10, 13), (10, 14), (11, 13)]

/-- The edges of the demonstration. -/
def edges : List Edge :=
  -- All of them weigh one.
  endpoints.map fun (src, dst) => ⟨src, dst, some (.ofFloat 1.0), none, none⟩

/-- The edges that a rank hands in. -/
def share (ranks rank : Nat) : List Edge :=
  -- Edges are dealt to the ranks in turn, so every rank starts with an arbitrary share.
  (edges.zipIdx.filter fun entry => entry.2 % ranks == rank).map Prod.fst

/-- The options of the demonstration. -/
def options : Options :=
  -- Every edge runs both ways, and ranks check one another.
  { addReverses := true, mergePolicy := .sum, check := true }

/-- The graphs that the ranks build. -/
def graphs (ranks : Nat) : Except Defect (Vector (Except Failure (Constructed ranks)) ranks) :=
  -- No rank is limited in memory, and no vertices are listed.
  Cluster.run (Vector.ofFn fun rank =>
    Construction.construct { rank, memory := none } (share ranks rank) [] options)

variable {ranks : Nat}

/-- The log line of a vertex and its neighbours. -/
def logLine (rank : Nat) (graph : Constructed ranks) (old new : VertexId) : String :=
  -- Neighbours are listed by their new ids.
  let neighbors := (graph.view.neighbors new).map fun (target, _) => s!"VertexID({target})"
  let listing := ", ".intercalate neighbors
  s!"[RANK {rank}] INFO - graph_construction: {new} (was {old}) -> [{listing}]"

/-- The log lines of a rank. -/
def logLines (rank : Nat) : Except Failure (Constructed ranks) → List String
  -- A rank that failed has nothing to tell.
  | .ok graph => graph.numbering.pairs.map fun (old, new) => logLine rank graph old new
  | .error _ => []

/-- The line that sums up the share of a rank. -/
def summary (graph : Constructed ranks) : String :=
  -- Global numbers are the same in the lines of all ranks.
  let view := graph.view
  s!"rank {view.rank.val}: vertices {view.range.render} of {view.vertexCount}, " ++
    s!"{view.edgeCount} of {view.globalEdgeCount} edges"

/-- The lines that sum up the ranks before the first that failed, and what is said of its failure. -/
def summaries : List (Except Failure (Constructed ranks)) → List String × List String
  -- Nothing is summed up after a failure.
  | [] => ([], [])
  | .error failure :: _ => ([], [s!"Error: {failure.message}"])
  | .ok graph :: rest =>
    let (lines, errors) := summaries rest
    (summary graph :: lines, errors)

/-- What is printed of a number of ranks that cannot be used. -/
def refusal (lines : List String) : Transcript :=
  -- The run ends before any rank starts.
  ⟨1, [], lines, []⟩

/-- The number of ranks when none is chosen. -/
def defaultRanks : Nat := 4

/-- The number of ranks that a setting chooses, or the lines that refuse it. -/
def ranksOf (setting : Option String) : Except (List String) Nat :=
  -- A setting of several lines is repeated on several lines.
  match setting with
  | none => .ok defaultRanks
  | some text =>
    match Decimal.read text with
    | .error fault => .error (s!"Error: GRAPH_RANKS={text} is not a rank count".splitOn "\n" ++
        ["", "Caused by:", s!"    {fault.message}"])
    | .ok 0 => .error ["Error: GRAPH_RANKS must be at least 1"]
    | .ok ranks => .ok ranks

/-- The transcript of the demonstration under a setting for the number of ranks. -/
def run (setting : Option String) : Transcript :=
  -- The log is told rank by rank, although ranks run side by side.
  match ranksOf setting with
  | .error lines => refusal lines
  | .ok ranks =>
    match graphs ranks with
    | .error defect => refusal [s!"Error: {(Failure.defect defect).message}"]
    | .ok built =>
      let (lines, errors) := summaries built.toList
      let log := built.toList.zipIdx.flatMap fun (graph, rank) => logLines rank graph
      ⟨if errors.isEmpty then 0 else 1, lines, errors, log⟩

end DistGraph.Demo
