import DistGraph.Proofs.Cluster.History

/-! What a rank can come to, whatever the other ranks send it. -/

namespace DistGraph

variable [Payloads] {size : Nat} {ε α β : Type}

namespace Program

/-- Whether a program comes to nothing but what a condition allows, whatever it receives on the way. -/
def Yields (allowed : α → Prop) : Program size ε α → Prop
  -- A failure is no result.
  | .done value => allowed value
  | .fail _ => True
  | .exchange _ _ _ next => ∀ received, (next received).Yields allowed

variable {allowed : α → Prop} {program : Program size ε α}

/-- Nothing is asked of results that may be anything. -/
theorem yields_any (program : Program size ε α) : program.Yields fun _ => True := by
  -- The induction is on the program, whatever it receives.
  induction program with
  | done value => trivial
  | fail error => trivial
  | exchange call sent fault next ih => exact ih

/-- What follows on a program has to work with what that can come to. -/
theorem Yields.bind {later : α → Program size ε β} {goal : β → Prop} (first : program.Yields allowed)
    (each : ∀ value, allowed value → (later value).Yields goal) : (program >>= later).Yields goal := by
  -- The later work starts at the leaves of the tree, and there with a result that is allowed.
  rw [bind_eq]
  induction program with
  | done value => exact each value first
  | fail error => trivial
  | exchange call sent fault next ih => exact fun received => ih received (first received)

/-- What follows on a program of which nothing is known has to work with anything. -/
theorem Yields.after {later : α → Program size ε β} {goal : β → Prop}
    (each : ∀ value, (later value).Yields goal) : (program >>= later).Yields goal :=
  program.yields_any.bind fun value _ => each value

/-- A rank that computes by itself comes to the result of that. -/
theorem yields_ofExcept (computed : Except ε α) :
    (ofExcept computed : Program size ε α).Yields fun value => computed = .ok value := by
  cases computed with
  | ok value => exact rfl
  | error error => trivial

end Program

namespace Cluster

variable {programs : Vector (Program size ε α) size} {rank : Fin size} {allowed : α → Prop}

/-- An exchange, met by all ranks or not, leaves a rank with what its program allows. -/
theorem yields_advance {count : Nat} (yields : (programs.get rank).Yields allowed) :
    (advance count programs rank).Yields allowed := by
  -- An exchange that fails leaves a failure, and one that succeeds some branch of the program.
  unfold advance
  split
  · rename_i call sent fault next stands
    rw [stands] at yields
    split
    · exact yields _
    · trivial
  · exact yields

/-- In every stage a rank can only come to what it could come to before. -/
theorem yields_stage (yields : (programs.get rank).Yields allowed) (count : Nat) :
    ((stage programs count).get rank).Yields allowed := by
  -- Each stage goes on from the one before.
  induction count with
  | zero => exact yields
  | succ count ih =>
    rw [stage_succ]
    exact yields_advance ih

/-- However the ranks take turns and whatever the others do, a rank comes to what its program allows. -/
theorem Run.allowed_of_outcome (run : Run programs) (yields : (programs.get rank).Yields allowed)
    {value : α} (ends : run.outcome rank = some (.ok value)) : allowed value := by
  -- A rank that ends well is done in some stage, which only its own program leads to.
  obtain ⟨count, stands⟩ := run.outcome_ok_iff.mp ends
  have reached := yields_stage yields count
  rwa [stands] at reached

end Cluster

end DistGraph
