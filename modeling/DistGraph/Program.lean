import DistGraph.Program.Payload

/-! The work of one rank as a tree of the exchanges it takes part in. -/

namespace DistGraph

variable [Payloads]

/-- What a rank does from here on: it ends, or it takes part in an exchange and goes on from there. -/
inductive Program (size : Nat) (ε α : Type) where
  /-- The work is done. -/
  | done (value : α)
  /-- The work ends in a failure. -/
  | fail (error : ε)
  /-- Every rank is sent an item and sends one; failed communication ends the work. -/
  | exchange (call : Call) (sent : Vector call.Item size) (fault : ExchangeError → ε)
      (next : Vector call.Item size → Program size ε α)

namespace Program

variable {size : Nat} {ε ζ α β : Type}

/-- The work that goes on with the result of a program. -/
def bind : Program size ε α → (α → Program size ε β) → Program size ε β
  -- A failure keeps the later work from starting.
  | .done value, later => later value
  | .fail error, _ => .fail error
  | .exchange call sent fault next, later =>
    .exchange call sent fault fun received => (next received).bind later

/-- Programs follow one another until one of them fails. -/
instance : Monad (Program size ε) where
  pure := .done
  bind := bind

/-- Binding is sequencing. -/
theorem bind_eq (program : Program size ε α) (later : α → Program size ε β) :
    (program >>= later) = program.bind later := rfl

/-- What follows on a result goes on from it. -/
@[simp] theorem done_bind (value : α) (later : α → Program size ε β) :
    (.done value >>= later) = later value := rfl

/-- Nothing follows on a failure. -/
@[simp] theorem fail_bind (error : ε) (later : α → Program size ε β) :
    (.fail error >>= later) = .fail error := rfl

/-- What follows on an exchange comes after it. -/
@[simp] theorem exchange_bind (call : Call) (sent : Vector call.Item size) (fault : ExchangeError → ε)
    (next : Vector call.Item size → Program size ε α) (later : α → Program size ε β) :
    (.exchange call sent fault next >>= later) =
      .exchange call sent fault fun received => next received >>= later := rfl

/-- How the work before is grouped does not matter. -/
theorem bind_assoc {γ : Type} (program : Program size ε α) (middle : α → Program size ε β)
    (later : β → Program size ε γ) :
    (program.bind middle).bind later = program.bind fun value => (middle value).bind later := by
  -- Sequencing only ever touches the leaves of the tree.
  induction program with
  | done value => rfl
  | fail error => rfl
  | exchange call sent fault next ih => simp only [bind, ih]

/-- Ending after a program changes nothing. -/
theorem bind_done (program : Program size ε α) : program.bind .done = program := by
  -- Every leaf is put back as it was.
  induction program with
  | done value => rfl
  | fail error => rfl
  | exchange call sent fault next ih => simp only [bind, ih]

/-- Programs obey the laws of sequencing. -/
instance : LawfulMonad (Program size ε) := LawfulMonad.mk' _
  (fun program => bind_done program)
  (fun _ _ => rfl)
  (fun program middle later => bind_assoc program middle later)

/-- The work of a computation that needs no other rank. -/
def ofExcept : Except ε α → Program size ε α
  -- Its failure is the failure of the program.
  | .ok value => .done value
  | .error error => .fail error

/-- A computation that comes to a result is done. -/
@[simp] theorem ofExcept_ok (value : α) : (ofExcept (.ok value) : Program size ε α) = .done value := rfl

/-- A computation that fails is a program that has failed. -/
@[simp] theorem ofExcept_error (error : ε) : (ofExcept (.error error) : Program size ε α) = .fail error := rfl

/-- Computations of a rank of its own stand among the steps of a program. -/
instance : MonadLift (Except ε) (Program size ε) where
  monadLift := ofExcept

/-- A program with its failures, also those of its exchanges, told in another way. -/
def mapError (tell : ε → ζ) : Program size ε α → Program size ζ α
  -- What is exchanged stays the same.
  | .done value => .done value
  | .fail error => .fail (tell error)
  | .exchange call sent fault next =>
    .exchange call sent (fun error => tell (fault error)) fun received =>
      (next received).mapError tell

section Told

variable (tell : ε → ζ)

/-- A result is no failure that is told in any way. -/
@[simp] theorem mapError_done (value : α) :
    (.done value : Program size ε α).mapError tell = .done value := rfl

/-- A failure is told. -/
@[simp] theorem mapError_fail (error : ε) :
    (.fail error : Program size ε α).mapError tell = .fail (tell error) := rfl

/-- Failed communication is told as well, and so are the failures after the exchange. -/
@[simp] theorem mapError_exchange (call : Call) (sent : Vector call.Item size) (fault : ExchangeError → ε)
    (next : Vector call.Item size → Program size ε α) :
    (Program.exchange call sent fault next).mapError tell =
      .exchange call sent (fun error => tell (fault error)) fun received =>
        (next received).mapError tell := rfl

end Told

/-- A program that also tells how many exchanges it issued, counted on from a given number. -/
def counted (issued : Nat) : Program size ε α → Program size ε (α × Nat)
  -- Every exchange on the way adds one.
  | .done value => .done (value, issued)
  | .fail error => .fail error
  | .exchange call sent fault next =>
    .exchange call sent fault fun received => (next received).counted (issued + 1)

/-- The program of a single exchange. -/
def issue (call : Call) (sent : Vector call.Item size) :
    Program size Failure (Vector call.Item size) :=
  -- It returns what it received.
  .exchange call sent .comm .done

end Program

end DistGraph
