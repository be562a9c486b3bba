import DistGraph.Cluster.Lockstep
import Mathlib.Tactic.ByContra
import Mathlib.Tactic.Choose
import Mathlib.Tactic.Push

/-! The programs of all ranks after whole exchanges, and the exchanges in which all ranks meet. -/

namespace DistGraph

variable [Payloads] {size : Nat} {ε α : Type}

/-- A parcel is accepted exactly when it belongs to the same exchange and call. -/
theorem Parcel.accept_eq_ok_iff {parcel : Parcel} {peer seq : Nat} {call : Call} {item : call.Item} :
    parcel.accept peer seq call = .ok item ↔ parcel = ⟨seq, call, item⟩ := by
  -- The item only changes its type along the equation between the calls.
  obtain ⟨parcelSeq, parcelCall, parcelItem⟩ := parcel
  unfold accept
  constructor
  · intro accepted
    split at accepted
    · simp at accepted
    · rename_i same
      split at accepted
      · rename_i sameCall
        simp only [not_or, ne_eq, Decidable.not_not] at same
        obtain ⟨rfl, _⟩ := same
        simp only at sameCall
        subst sameCall
        simp only [Except.ok.injEq] at accepted
        simp [accepted]
      · simp at accepted
  · intro made
    cases made
    simp

/-- A program is about to send exactly the parcels of the exchange that it stands at. -/
theorem Program.parcel?_eq_some_iff (seq : Nat) {program : Program size ε α} {receiver : Fin size}
    {call : Call} {item : call.Item} :
    program.parcel? seq receiver = some ⟨seq, call, item⟩ ↔
      ∃ sent fault next, program = .exchange call sent fault next ∧ sent.get receiver = item := by
  -- Only a program that stands at an exchange sends anything.
  cases program with
  | done value => simp [parcel?]
  | fail error => simp [parcel?]
  | exchange made sent fault next =>
    simp only [parcel?, Option.some.injEq, Parcel.mk.injEq, true_and]
    constructor
    · rintro ⟨rfl, same⟩
      exact ⟨sent, fault, next, rfl, eq_of_heq same⟩
    · rintro ⟨items, _, _, same, rfl⟩
      cases same
      exact ⟨rfl, HEq.rfl⟩

namespace Cluster

omit [Payloads] in
/-- What is put together by rank is read back by rank. -/
@[simp] theorem ofFn_get (entry : Fin size → α) (rank : Fin size) :
    (Vector.ofFn entry).get rank = entry rank :=
  Vector.getElem_ofFn rank.isLt

/-- The programs of all ranks after a number of exchanges of all ranks. -/
def stage (programs : Vector (Program size ε α) size) : Nat → Vector (Program size ε α) size
  -- Exchanges are numbered from zero on.
  | 0 => programs
  | count + 1 => round count (stage programs count)

/-- Before the first exchange the programs stand at their beginnings. -/
@[simp] theorem stage_zero (programs : Vector (Program size ε α) size) : stage programs 0 = programs := rfl

/-- Whether all ranks are about to take part in the same call, and what every rank sends there. -/
def Meet (programs : Vector (Program size ε α) size) (call : Call)
    (sent : Fin size → Vector call.Item size) : Prop :=
  -- A rank that has ended or that makes another call keeps all others from meeting.
  ∀ rank : Fin size, ∃ fault next, programs.get rank = .exchange call (sent rank) fault next

/-- What a rank receives from all peers when the ranks meet. -/
def delivered {call : Call} (sent : Fin size → Vector call.Item size) (receiver : Fin size) :
    Vector call.Item size :=
  -- Every peer put one item at the position of the receiver.
  Vector.ofFn fun peer => (sent peer).get receiver

/-- A rank is given what each peer put at its position. -/
@[simp] theorem delivered_get {call : Call} (sent : Fin size → Vector call.Item size)
    (receiver peer : Fin size) : (delivered sent receiver).get peer = (sent peer).get receiver :=
  ofFn_get _ peer

/-- A peer is received from exactly when it makes the same call. -/
theorem receive_eq_ok_iff {seq : Nat} {programs : Vector (Program size ε α) size} {call : Call}
    {receiver peer : Fin size} {item : call.Item} :
    receive seq programs call receiver peer = .ok item ↔
      ∃ sent fault next, programs.get peer = .exchange call sent fault next ∧ sent.get receiver = item := by
  -- Both sides carry the same exchange number, so only the calls can differ.
  rw [← Program.parcel?_eq_some_iff seq, receive]
  cases (programs.get peer).parcel? seq receiver with
  | none => simp
  | some parcel => simp [Parcel.accept_eq_ok_iff]

/-- All peers are received from exactly when all ranks meet in the call. -/
theorem collect_eq_ok_iff {seq : Nat} {programs : Vector (Program size ε α) size} {call : Call}
    {receiver : Fin size} {received : Vector call.Item size} :
    collect seq programs call receiver = .ok received ↔
      ∃ sent, Meet programs call sent ∧ received = delivered sent receiver := by
  -- The items of single peers are collected into the items of all.
  simp only [collect, tabulate_eq_ok_iff, receive_eq_ok_iff]
  constructor
  · intro each
    choose sent fault next made item using fun peer : Fin size => each peer peer.isLt
    refine ⟨sent, fun peer => ⟨fault peer, next peer, made peer⟩, ?_⟩
    apply Vector.ext
    intro index inside
    simp [delivered, ← item ⟨index, inside⟩]
  · rintro ⟨sent, meet, rfl⟩ index inside
    obtain ⟨fault, next, made⟩ := meet ⟨index, inside⟩
    exact ⟨sent ⟨index, inside⟩, fault, next, made, by simp [delivered]⟩

section Stages

variable {programs : Vector (Program size ε α) size} {rank : Fin size} {count : Nat}

/-- The next stage of a rank follows from the stage of all ranks. -/
theorem stage_succ : (stage programs (count + 1)).get rank =
    advance count (stage programs count) rank := by
  -- A round looks at every rank by itself.
  simp [stage, round]

/-- A rank that is done stays done. -/
theorem stage_succ_done {value : α} (ended : (stage programs count).get rank = .done value) :
    (stage programs (count + 1)).get rank = .done value := by
  rw [stage_succ, advance, ended]

/-- A rank that has failed stays failed. -/
theorem stage_succ_fail {error : ε} (ended : (stage programs count).get rank = .fail error) :
    (stage programs (count + 1)).get rank = .fail error := by
  rw [stage_succ, advance, ended]

/-- Where all ranks meet, each goes on with what the others put at its position. -/
theorem stage_succ_meet {call : Call} {sent : Fin size → Vector call.Item size}
    {items : Vector call.Item size} {fault : ExchangeError → ε}
    {next : Vector call.Item size → Program size ε α} (meet : Meet (stage programs count) call sent)
    (stands : (stage programs count).get rank = .exchange call items fault next) :
    (stage programs (count + 1)).get rank = next (delivered sent rank) := by
  -- Meeting is exactly what collecting from all peers needs.
  have collected : collect count (stage programs count) call rank = .ok (delivered sent rank) :=
    collect_eq_ok_iff.mpr ⟨sent, meet, rfl⟩
  rw [stage_succ, advance, stands]
  simp only [collected]

/-- Where ranks do not meet, a rank that wants to exchange fails. -/
theorem stage_succ_apart {call : Call} {items : Vector call.Item size} {fault : ExchangeError → ε}
    {next : Vector call.Item size → Program size ε α}
    (apart : ∀ sent, ¬ Meet (stage programs count) call sent)
    (stands : (stage programs count).get rank = .exchange call items fault next) :
    ∃ error, (stage programs (count + 1)).get rank = .fail (fault error) := by
  rw [stage_succ, advance, stands]
  -- A collection that succeeded would be a meeting.
  cases collected : collect count (stage programs count) call rank with
  | ok received =>
    obtain ⟨sent, meet, _⟩ := collect_eq_ok_iff.mp collected
    exact absurd meet (apart sent)
  | error error => exact ⟨error, by simp only [collected]⟩

/-- The items of a meeting are determined by the programs that meet. -/
theorem Meet.unique {call other : Call} {sent : Fin size → Vector call.Item size}
    {items : Vector other.Item size} {fault : ExchangeError → ε}
    {next : Vector other.Item size → Program size ε α} (meet : Meet programs call sent)
    (stands : programs.get rank = .exchange other items fault next) :
    ∃ same : call = other, same ▸ sent rank = items := by
  -- A program is at one exchange only.
  obtain ⟨_, _, made⟩ := meet rank
  rw [made] at stands
  cases stands
  exact ⟨rfl, rfl⟩

/-- A rank that is done keeps all others from meeting. -/
theorem Meet.ne_done {call : Call} {sent : Fin size → Vector call.Item size}
    (meet : Meet programs call sent) (rank : Fin size) (value : α) : programs.get rank ≠ .done value := by
  obtain ⟨_, _, stands⟩ := meet rank
  simp [stands]

/-- So does a rank that has failed. -/
theorem Meet.ne_fail {call : Call} {sent : Fin size → Vector call.Item size}
    (meet : Meet programs call sent) (rank : Fin size) (error : ε) : programs.get rank ≠ .fail error := by
  obtain ⟨_, _, stands⟩ := meet rank
  simp [stands]

/-- A rank that is done is done with the same value in all later stages. -/
theorem stage_done_of_le {later : Nat} {value : α}
    (ended : (stage programs count).get rank = .done value) (after : count ≤ later) :
    (stage programs later).get rank = .done value := by
  induction after with
  | refl => exact ended
  | step _ ih => exact stage_succ_done ih

/-- A rank that has failed has failed with the same error in all later stages. -/
theorem stage_fail_of_le {later : Nat} {error : ε}
    (ended : (stage programs count).get rank = .fail error) (after : count ≤ later) :
    (stage programs later).get rank = .fail error := by
  induction after with
  | refl => exact ended
  | step _ ih => exact stage_succ_fail ih

/-- A rank that wants to exchange later has met all others in every exchange before. -/
theorem meet_of_later {later : Nat} {call : Call} {items : Vector call.Item size}
    {fault : ExchangeError → ε} {next : Vector call.Item size → Program size ε α}
    (stands : (stage programs later).get rank = .exchange call items fault next) (before : count < later) :
    ∃ earlier sent, Meet (stage programs count) earlier sent := by
  -- Otherwise the rank would have ended or failed then, and would have stayed so.
  by_contra apart
  push Not at apart
  cases found : (stage programs count).get rank with
  | done value =>
    rw [stage_done_of_le found (Nat.le_of_lt before)] at stands
    simp at stands
  | fail error =>
    rw [stage_fail_of_le found (Nat.le_of_lt before)] at stands
    simp at stands
  | exchange made sent fault next =>
    obtain ⟨error, failed⟩ := stage_succ_apart (apart made) found
    rw [stage_fail_of_le failed before] at stands
    simp at stands

/-- Whether all ranks have met in every exchange before a stage. -/
def MetUpTo (programs : Vector (Program size ε α) size) (count : Nat) : Prop :=
  -- Before the first stage there is no exchange.
  ∀ earlier, earlier < count → ∃ call sent, Meet (stage programs earlier) call sent

/-- Before the first exchange there is nothing to meet in. -/
theorem MetUpTo.zero : MetUpTo programs 0 :=
  fun earlier before => absurd before (Nat.not_lt_zero earlier)

/-- One more exchange in which all ranks meet. -/
theorem MetUpTo.succ (met : MetUpTo programs count) {call : Call} {sent : Fin size → Vector call.Item size}
    (meet : Meet (stage programs count) call sent) : MetUpTo programs (count + 1) := by
  intro earlier before
  -- An exchange before the next one is this one or an earlier one.
  rcases Nat.lt_or_eq_of_le (Nat.le_of_lt_succ before) with less | same
  · exact met earlier less
  · exact ⟨call, sent, same ▸ meet⟩

end Stages

end Cluster

end DistGraph
