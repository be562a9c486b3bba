import DistGraph.Program

/-! Ranks that run side by side, told one exchange of all ranks at a time. -/

namespace DistGraph

variable {size : Nat} {ε α : Type}

/-- The first `count` entries of a computed sequence, or the first failure among them. -/
def tabulate (entry : Fin size → Except ε α) :
    (count : Nat) → count ≤ size → Except ε (Vector α count)
  -- The entries before the last one are computed first.
  | 0, _ => .ok #v[]
  | count + 1, bound => do
    let before ← tabulate entry count (by omega)
    return before.push (← entry ⟨count, bound⟩)

/-- A sequence is tabulated exactly when none of its entries fails. -/
theorem tabulate_eq_ok_iff {entry : Fin size → Except ε α} {count : Nat} {bound : count ≤ size}
    {values : Vector α count} : tabulate entry count bound = .ok values ↔
      ∀ index (inside : index < count), entry ⟨index, by omega⟩ = .ok values[index] := by
  -- The last entry is split off on both sides.
  induction count with
  | zero => simp [tabulate, Vector.eq_empty]
  | succ count ih =>
    have split_last : values = values.pop.push values.back := (Vector.push_pop_back values).symm
    -- The entries before the last one are told by the induction.
    constructor
    · intro made index inside
      simp only [tabulate] at made
      obtain ⟨before, earlier, made⟩ := bind_eq_ok_iff.mp made
      obtain ⟨value, last, joined⟩ := bind_eq_ok_iff.mp made
      cases joined
      by_cases isLast : index = count
      · subst isLast; simpa using last
      · have below : index < count := by omega
        have known := ih.mp earlier index below
        rw [Vector.getElem_push_lt below]
        exact known
    · intro each
      have earlier : tabulate entry count (by omega) = .ok values.pop := by
        rw [ih]
        intro index inside
        rw [each index (by omega), Vector.getElem_pop]
      have last := each count (by omega)
      simp only [tabulate, earlier, last, ok_bind, pure_eq_ok, Except.ok.injEq]
      rw [split_last]
      simp [Vector.back]

variable [Payloads]

namespace Program

/-- The message a program is about to send to a rank, if it is about to send any. -/
def parcel? (seq : Nat) (receiver : Fin size) : Program size ε α → Option Parcel
  -- A program that has ended sends nothing any more.
  | .exchange call sent _ _ => some ⟨seq, call, sent.get receiver⟩
  | .done _ | .fail _ => none

/-- How a program ends that finds the first rank gone. -/
def conclude : Program size ε α → Except ε α
  -- The first rank is the first peer to be noticed missing.
  | .done value => .ok value
  | .fail error => .error error
  | .exchange _ _ fault _ => .error (fault (.peerLeft 0))

end Program

namespace Cluster

/-- What a rank receives from one peer in an exchange. -/
def receive (seq : Nat) (programs : Vector (Program size ε α) size) (call : Call)
    (receiver peer : Fin size) : Except ExchangeError call.Item :=
  -- A peer that has ended its work has left.
  match (programs.get peer).parcel? seq receiver with
  | none => .error (.peerLeft peer)
  | some parcel => parcel.accept peer seq call

/-- What a rank receives from all peers in an exchange, in rank order. -/
def collect (seq : Nat) (programs : Vector (Program size ε α) size) (call : Call)
    (receiver : Fin size) : Except ExchangeError (Vector call.Item size) :=
  -- The first peer that cannot be received from decides the failure.
  tabulate (receive seq programs call receiver) size (Nat.le_refl size)

/-- The program of one rank after an exchange of all ranks. -/
def advance (seq : Nat) (programs : Vector (Program size ε α) size) (rank : Fin size) :
    Program size ε α :=
  -- A rank that has ended stays where it is.
  match programs.get rank with
  | .exchange call _ fault next =>
    match collect seq programs call rank with
    | .ok received => next received
    | .error error => .fail (fault error)
  | ended => ended

/-- All programs after an exchange of all ranks. -/
def round (seq : Nat) (programs : Vector (Program size ε α) size) :
    Vector (Program size ε α) size :=
  -- Every rank looks at the programs as they were before the exchange.
  Vector.ofFn (advance seq programs)

/-- The outcomes of all ranks, the program of the first rank leading through the exchanges. -/
def outcomes (seq : Nat) (lead : Program (size + 1) ε α)
    (programs : Vector (Program (size + 1) ε α) (size + 1)) : Vector (Except ε α) (size + 1) :=
  -- Once the first rank has ended, no other rank completes an exchange.
  match lead with
  | .exchange call _ _ next =>
    match collect seq programs call 0 with
    | .ok received => outcomes (seq + 1) (next received) (round seq programs)
    | .error _ => (round seq programs).map Program.conclude
  | .done _ | .fail _ => programs.map Program.conclude

/-- The outcomes of programs that run side by side, one on every rank. -/
def run : {size : Nat} → Vector (Program size ε α) size → Except Defect (Vector (Except ε α) size)
  -- Ranks only ever fall out of step by leaving, so telling whole exchanges loses nothing.
  | 0, _ => .error .emptyCommunicator
  | _ + 1, programs => .ok (outcomes 0 programs[0] programs)

end Cluster

end DistGraph
