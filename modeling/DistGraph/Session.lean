import DistGraph.Cluster.Lockstep
import DistGraph.Session.Command

/-! A rank that follows commands and remembers the graph it has built. -/

namespace DistGraph.Session

variable {size : Nat}

/-- What a rank remembers between commands. -/
structure Recollection (size : Nat) where
  /-- The view of the last graph. -/
  view : Option (View size)
  /-- The last numbering, with the number of ranks that share it. -/
  numbering : Option ((ranks : Nat) × Numbering ranks)
  /-- The number of exchanges issued. -/
  issued : Nat

namespace Recollection

/-- What a rank remembers that has not followed any command. -/
def blank : Recollection size :=
  -- Nothing is built and nothing is issued.
  ⟨none, none, 0⟩

/-- The remembered view. -/
def theView (known : Recollection size) : Except Failure (View size) :=
  -- Asking for a view before there is one is a defect of the caller.
  match known.view with
  | some view => .ok view
  | none => .error (.defect .outOfRange)

/-- The remembered numbering. -/
def theNumbering (known : Recollection size) : Except Failure ((ranks : Nat) × Numbering ranks) :=
  -- Asking for a numbering before there is one is a defect of the caller.
  match known.numbering with
  | some numbering => .ok numbering
  | none => .error (.defect .outOfRange)

/-- The recollection with another view. -/
def withView (known : Recollection size) (view : View size) : Recollection size :=
  -- The numbering stays.
  { known with view := some view }

/-- The recollection with another numbering. -/
def withNumbering {ranks : Nat} (known : Recollection size) (numbering : Numbering ranks) :
    Recollection size :=
  -- The view stays.
  { known with numbering := some ⟨ranks, numbering⟩ }

/-- The recollection of a constructed graph. -/
def withGraph (known : Recollection size) (graph : Constructed size) : Recollection size :=
  -- View and numbering of a graph are remembered together.
  (known.withView graph.view).withNumbering graph.numbering

end Recollection

/-- What a view tells of a vertex. -/
def reportVertex (view : View size) (vertex : VertexId) : VertexReport where
  isLocal := view.range.contains vertex
  owner := (view.partition.owner? vertex).map Fin.val
  degree := view.degree vertex
  neighbors := view.neighbors vertex
  edges := view.edgesAt vertex

/-- What a view tells of a place. -/
def reportPlace (view : View size) (place : UInt64) : Except Defect PlaceReport := do
  -- Both answers search for the place anew.
  let location ← view.locatePlace place
  let row ← view.storedAt place
  return ⟨location.map fun (segment, row) => (segment.range, row), row⟩

/-- What a segment tells of a row. -/
def reportRow (row : Nat) (segment : Segment) : RowReport :=
  -- The table is described along with the row.
  ⟨segment.row row, segment.table.rowCount, segment.table.entryCount⟩

/-- Follows a command that only communicates. -/
def communicate (self : Member size) : Exchange → Program size Failure (Answer size)
  -- Loose items are words, and records come with the placement that leads them.
  | .allToAll counts => return .counts (← Communicator.allToAll counts)
  | .allToAllV items sendCounts room recvCounts =>
    return .words (← Communicator.allToAllV Wire.word items sendCounts room recvCounts)
  | .allGather wire value => return .gathered wire (← Communicator.allGather wire value).toList
  | .allReduce reduction value => return .word (← Communicator.allReduce reduction value)
  | .exclusiveScan value => do
    let (before, total) ← Communicator.exclusiveScan self value
    return .scanned before total
  | .barrier => do
    Communicator.barrier
    return .arrived
  | .grouped sent => return .grouped (← Routing.sendGroups self Wire.word sent)
  | .reply answers expected => return .words (← Routing.sendBack self Wire.word answers expected)
  | .routed items route limit =>
    return .grouped (← Routing.send self Wire.word (route.destination limit size) items)
  | .records records placement =>
    return .records (← Routing.sendRecords self (← Failure.ofDefect placement) records)

/-- Follows a command that builds or changes what is remembered. -/
def build (self : Member size) (known : Recollection size) :
    Build → Program size Failure (Answer size × Recollection size)
  -- What is built is shown in full.
  | .assign records vertices order transposed => do
    let (numbering, relabelled) ← Numbering.assign self records vertices order transposed
    return (.assigned numbering relabelled, known.withNumbering numbering)
  | .construct edges vertices options => do
    let graph ← Construction.construct self edges vertices options
    return (.constructed graph, known.withGraph graph)
  | .rebuild options => do
    let view ← known.theView
    let graph ← Construction.construct self view.edges [] options
    return (.constructed graph, known.withGraph graph)
  | .transpose => do
    let view ← View.transpose self (← known.theView)
    return (.view view, known.withView view)
  | .gatherAll => do
    let ⟨_, numbering⟩ ← known.theNumbering
    let whole ← numbering.gatherAll self
    return (.numbering whole, known.withNumbering whole)

/-- Follows a command that asks about what is remembered. -/
def ask (self : Member size) (known : Recollection size) :
    Question → Program size Failure (Answer size)
  -- Only ids that other ranks may know are asked of them.
  | .askNewIds old => do
    let ⟨_, numbering⟩ ← known.theNumbering
    return .foundIds (← numbering.askNewIds self old)
  | .askOldIds new => do
    let ⟨_, numbering⟩ ← known.theNumbering
    return .foundIds (← numbering.askOldIds self new)
  | .view => return .view (← known.theView)
  | .numbering => do
    let ⟨_, numbering⟩ ← known.theNumbering
    return .numbering numbering
  | .newId old => do
    let ⟨_, numbering⟩ ← known.theNumbering
    return .lookedUp (old.map numbering.newId)
  | .oldId new => do
    let ⟨_, numbering⟩ ← known.theNumbering
    return .lookedUp (new.map numbering.oldId)
  | .vertices ids => do
    let view ← known.theView
    return .vertices (ids.map (reportVertex view))
  | .places places => do
    let view ← known.theView
    let reports ← Failure.ofDefect (places.mapM (reportPlace view))
    return .places reports
  | .segmentRows row => do
    let view ← known.theView
    return .segmentRows (view.segments.toList.map (reportRow row))

/-- Follows a command and tells what is remembered afterwards. -/
def follow (self : Member size) (known : Recollection size) :
    Command → Program size Failure (Answer size × Recollection size)
  -- Commands that build nothing leave what is remembered as it is.
  | .describe => return (.description self.rank self.memory known.issued, known)
  | .tidy records policy dropSelfLoops closeUnderReversal =>
    return (.records (Cleanup.tidy self.sorter policy dropSelfLoops closeUnderReversal records), known)
  | .communicate exchange => return (← communicate self exchange, known)
  | .build construction => build self known construction
  | .ask question => return (← ask self known question, known)

/-- The answers of a rank to the commands it followed, and what ended it early, if anything did. -/
structure Report (size : Nat) where
  /-- One answer per command that was followed to its end. -/
  answers : List (Answer size)
  /-- The failure of the command after those. -/
  failure : Option Failure

/-- Follows commands until one fails. -/
def followAll (self : Member size) (known : Recollection size) (answers : List (Answer size)) :
    List Command → Program size (Report size) (Report size)
  -- The answers given so far are kept when a command fails.
  | [] => return ⟨answers, none⟩
  | command :: commands => do
    let ((answer, next), issued) ← ((follow self known command).counted known.issued).mapError
      fun failure => ⟨answers, some failure⟩
    followAll self { next with issued := issued } (answers ++ [answer]) commands

/-- What a rank is told to do, and the memory that its buffers may take. -/
structure Assignment where
  /-- The commands in order. -/
  commands : List Command
  /-- The most bytes of a single buffer, if there is a limit. -/
  memory : Option UInt64

/-- The reports of ranks that follow their commands side by side. -/
def run (assignments : Vector Assignment size) : Except Defect (Vector (Report size) size) := do
  -- A rank that fails or has no command left leaves the others behind.
  let reports ← Cluster.run (Vector.ofFn fun rank =>
    let self := { rank, memory := (assignments.get rank).memory }
    followAll self .blank [] (assignments.get rank).commands)
  return reports.map fun
    | .ok report => report
    | .error report => report

end DistGraph.Session
