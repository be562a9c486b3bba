import DistGraph.Proofs.Cluster.History

/-! Telling whole exchanges of all ranks agrees with every schedule of single messages. -/

namespace DistGraph.Cluster

variable [Payloads] {size : Nat} {ε α : Type}

/-- A rank ends well when it is done, and only then. -/
@[simp] theorem conclude_eq_ok_iff {program : Program (size + 1) ε α} {value : α} :
    program.conclude = .ok value ↔ program = .done value := by
  cases program <;> simp [Program.conclude]

/-- Of all ranks just those end well that are done. -/
theorem concluded_eq_ok_iff {programs : Vector (Program (size + 1) ε α) (size + 1)}
    {rank : Fin (size + 1)} {value : α} :
    (programs.map Program.conclude).get rank = .ok value ↔ programs.get rank = .done value := by
  have own : (programs.map Program.conclude).get rank = (programs.get rank).conclude :=
    Vector.getElem_map _ rank.isLt
  rw [own, conclude_eq_ok_iff]

/-- A rank is done in a stage in which not all ranks meet if it is ever done. -/
theorem stage_done_iff_of_apart {programs : Vector (Program size ε α) size} {rank : Fin size} {value : α}
    {last : Nat} (apart : ∀ call sent, ¬ Meet (stage programs last) call sent) :
    (stage programs last).get rank = .done value ↔
      ∃ later, (stage programs later).get rank = .done value := by
  refine ⟨fun done => ⟨last, done⟩, fun ⟨later, done⟩ => ?_⟩
  rcases Nat.le_total later last with before | after
  · exact stage_done_of_le done before
  · cases found : (stage programs last).get rank with
    | done other =>
      rw [stage_done_of_le found after] at done
      exact done
    | fail error =>
      rw [stage_fail_of_le found after] at done
      simp at done
    | exchange call sent fault next =>
      -- Without a meeting the rank fails in the next stage, unless that comes too late.
      obtain ⟨error, failed⟩ := stage_succ_apart (apart call) found
      rcases Nat.lt_or_eq_of_le after with beyond | same
      · rw [stage_fail_of_le failed beyond] at done
        simp at done
      · rw [← same, found] at done
        simp at done

/-- The outcomes told from a stage on are well exactly for the ranks that are done in some stage. -/
theorem outcomes_eq_ok_iff {programs : Vector (Program (size + 1) ε α) (size + 1)} {rank : Fin (size + 1)}
    {value : α} (lead : Program (size + 1) ε α) (count : Nat)
    (leads : (stage programs count).get 0 = lead) :
    (outcomes count lead (stage programs count)).get rank = .ok value ↔
      ∃ later, (stage programs later).get rank = .done value := by
  -- The induction is on the program of the first rank, which takes part in every exchange that is met.
  induction lead generalizing count with
  | done led =>
    rw [outcomes, concluded_eq_ok_iff]
    exact stage_done_iff_of_apart fun call sent meet => meet.ne_done 0 led leads
  | fail error =>
    rw [outcomes, concluded_eq_ok_iff]
    exact stage_done_iff_of_apart fun call sent meet => meet.ne_fail 0 error leads
  | exchange call sent fault next ih =>
    rw [outcomes]
    cases collected : collect count (stage programs count) call 0 with
    | ok received =>
      obtain ⟨items, meet, rfl⟩ := collect_eq_ok_iff.mp collected
      exact ih _ (count + 1) (stage_succ_meet meet leads)
    | error error =>
      -- Ranks that do not meet here never meet again, so that all outcomes are at hand.
      have apart : ∀ items, ¬ Meet (stage programs count) call items := by
        intro items meet
        rw [collect_eq_ok_iff.mpr ⟨items, meet, rfl⟩] at collected
        simp at collected
      obtain ⟨error, failed⟩ := stage_succ_apart apart leads
      rw [concluded_eq_ok_iff]
      exact stage_done_iff_of_apart fun other items meet => meet.ne_fail 0 (fault error) failed

/-- Whole exchanges and single messages let the same ranks end well, with the same values. -/
theorem run_agrees {programs : Vector (Program size ε α) size} {ends : Vector (Except ε α) size}
    (told : Cluster.run programs = .ok ends) (run : Run programs) (rank : Fin size) (value : α) :
    ends.get rank = .ok value ↔ run.outcome rank = some (.ok value) := by
  -- Without ranks nobody ends, and with some the first one leads.
  cases size with
  | zero => exact rank.elim0
  | succ size =>
    simp only [Cluster.run, Except.ok.injEq] at told
    subst told
    rw [run.outcome_ok_iff]
    exact outcomes_eq_ok_iff programs[0] 0 rfl

end DistGraph.Cluster
