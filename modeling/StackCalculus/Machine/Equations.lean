import StackCalculus.Bag.Lemmas
import StackCalculus.Machine.Exec

/-!
# Equations of the machine

The rounds of an iteration without a time limit, the visit of a single state or of none, and the
clauses of `Machine.exec` for runs without a log, where reports vanish and faults are carried by
`Except`.
-/

namespace StackCalculus.Machine

variable {V : Type} [DecidableEq V]

@[simp] theorem ofExcept_eq {α : Type} (x : Except Fault α) : (ofExcept x : Except Fault α) = x := by
  cases x <;> rfl

@[simp] theorem report_eq {ε : Type} (event : ε) : (report event : Except Fault Unit) = .ok () := rfl

theorem settle_eq (result : Except Fault (State V)) :
    (settle result : Except Fault (Configuration V)) =
      match result with
      | .ok state => .ok (.singleton state)
      | .error fault => if fault.isBranchFailure then .ok .empty else .error fault := by
  unfold settle
  cases result with
  | ok state => rfl
  | error fault => by_cases h : fault.isBranchFailure <;> simp only [h] <;> rfl

/-- A configuration of one state is worked on as that state. -/
theorem forEach_singleton (machine : Machine) (f : State V → Except Fault (Configuration V))
    (state : State V) : machine.forEach f (.singleton state) = f state := by
  let visit (entry : State V × Nat) : Except Fault (Configuration V) := do
    let outcome ← f entry.1
    ofExcept (outcome.scale entry.2)
  have hvisit : visit (state, 1) = f state := by
    show Except.bind (f state) (fun outcome => ofExcept (outcome.scale 1)) = f state
    simp only [Bag.scale_one, ofExcept_eq]
    cases f state <;> rfl
  show (machine.schedule [(state, 1)]).collect visit = f state
  unfold schedule
  split
  · exact hvisit
  · -- One item after the other: the outcome is added to an empty sum.
    show Except.bind (visit (state, 1)) (fun sum => ofExcept (Bag.empty.union sum)) = f state
    simp only [Bag.empty_union, ofExcept_eq]
    rw [hvisit]
    cases f state <;> rfl

theorem forEach_empty (machine : Machine) (f : State V → Except Fault (Configuration V)) :
    machine.forEach f .empty = .ok .empty := by
  show (machine.schedule ([] : List (State V × Nat))).collect _ = _
  unfold schedule
  split <;> rfl

/-! ## Rounds of an iteration -/

section Rounds

variable {m : Type → Type} [Monad m] [MonadExcept Fault m] [MonadReport (Event V) m]
variable (machine : Machine) (body : Configuration V → m (Configuration V))
variable (budget rounds : Nat) (sum : Configuration V) {frontier : Configuration V}

theorem closeFrom_of_isEmpty (h : frontier.isEmpty) :
    machine.closeFrom body budget rounds sum frontier = pure ⟨sum, rounds⟩ := by
  unfold closeFrom
  rw [if_pos h]

theorem closeFrom_zero (hlimit : machine.config.timeLimit = none) (h : ¬ frontier.isEmpty) :
    machine.closeFrom body 0 rounds sum frontier = throw (.divergence rounds) := by
  rw [closeFrom, if_neg h, outOfTime_eq_false hlimit]
  rfl

theorem closeFrom_succ (hlimit : machine.config.timeLimit = none) (h : ¬ frontier.isEmpty) :
    machine.closeFrom body (budget + 1) rounds sum frontier = (do
      let next ← body frontier
      report (.rounded (rounds + 1) next.size : Event V)
      let sum ← ofExcept (sum.union next)
      machine.closeFrom body budget (rounds + 1) sum next) := by
  rw [closeFrom, if_neg h, outOfTime_eq_false hlimit]
  rfl

end Rounds

/-! ## Clauses -/

variable [ToString V] (machine : Machine) (reserved : List Var)

theorem exec_skip (configuration : Configuration V) :
    (machine.exec reserved .skip configuration : Except Fault _) = .ok configuration := by
  rw [exec]
  rfl

theorem exec_fail (configuration : Configuration V) :
    (machine.exec reserved .fail configuration : Except Fault _) = .ok .empty := by
  rw [exec]
  rfl

theorem exec_seq (p q : Program V) (configuration : Configuration V) :
    (machine.exec reserved (.seq p q) configuration : Except Fault _) =
      Except.bind (machine.exec reserved p configuration) (machine.exec reserved q) := by
  rw [exec]
  rfl

theorem exec_iterate (p : Program V) (configuration : Configuration V) :
    (machine.exec reserved (.iterate p) configuration : Except Fault _) =
      Except.map Fixpoint.configuration (machine.close (machine.exec reserved p) configuration) := by
  rw [exec]
  show Except.bind _ _ = _
  cases (machine.close (machine.exec reserved p) configuration : Except Fault _) <;> rfl

theorem exec_branch (p q : Program V) (configuration : Configuration V) :
    (machine.exec reserved (.branch p q) configuration : Except Fault _) =
      machine.forEach (fun state => do
        let left ← machine.exec reserved p (.singleton state)
        let right ← machine.exec reserved q (.singleton state)
        left.union right) configuration := by
  rw [exec]
  congr 1
  funext state
  simp only [ofExcept_eq, report_eq]
  rfl

theorem exec_push (t : Term V) (location : String) (configuration : Configuration V) :
    (machine.exec reserved (.push t location) configuration : Except Fault _) =
      machine.forEach (fun state => settle (state.push t location)) configuration := by
  rw [exec]
  rfl

theorem exec_pop (t : Term V) (location : String) (configuration : Configuration V) :
    (machine.exec reserved (.pop t location) configuration : Except Fault _) =
      machine.forEach (fun state => settle (state.pop t location)) configuration := by
  rw [exec]
  rfl

theorem exec_scope (x : Var) (p : Program V) (configuration : Configuration V) :
    (machine.exec reserved (.scope x p) configuration : Except Fault _) =
      machine.forEach (fun state => do
        let fresh := freshFor x p state reserved
        let inner ← machine.exec (reserved ++ [fresh]) (p.rename x fresh) (.singleton state)
        Bag.ofCounts (inner.entries.map fun entry => (entry.1.project fresh, entry.2)))
        configuration := by
  rw [exec]
  congr 1
  funext state
  simp only [ofExcept_eq, report_eq]
  rfl

/-- No program makes states out of none. -/
theorem exec_empty (program : Program V) :
    (machine.exec reserved program .empty : Except Fault _) = .ok .empty := by
  induction program with
  | skip => rw [exec_skip]
  | fail => rw [exec_fail]
  | seq p q ihp ihq =>
    rw [exec_seq, ihp]
    exact ihq
  | iterate p ih =>
    rw [exec_iterate, close, machine.closeFrom_of_isEmpty _ _ _ _ rfl]
    rfl
  | branch p q ihp ihq => rw [exec_branch, forEach_empty]
  | push t location => rw [exec_push, forEach_empty]
  | pop t location => rw [exec_pop, forEach_empty]
  | scope x p ih => rw [exec_scope, forEach_empty]

theorem exec_sequence_cons (p : Program V) (ps : List (Program V)) (configuration : Configuration V) :
    (machine.exec reserved (.sequence (p :: ps)) configuration : Except Fault _) =
      Except.bind (machine.exec reserved p configuration) (machine.exec reserved (.sequence ps)) := by
  cases ps with
  | cons q ps => exact machine.exec_seq reserved p _ configuration
  | nil =>
    rw [Program.sequence, Program.sequence]
    cases (machine.exec reserved p configuration : Except Fault _) with
    | error fault => rfl
    | ok middle => exact (machine.exec_skip reserved middle).symm

/-- A sequence of programs may be cut anywhere. -/
theorem exec_sequence_append (ps qs : List (Program V)) (configuration : Configuration V) :
    (machine.exec reserved (.sequence (ps ++ qs)) configuration : Except Fault _) =
      Except.bind (machine.exec reserved (.sequence ps) configuration)
        (machine.exec reserved (.sequence qs)) := by
  induction ps generalizing configuration with
  | nil =>
    rw [Program.sequence, exec_skip]
    rfl
  | cons p ps ih =>
    rw [List.cons_append, exec_sequence_cons, exec_sequence_cons]
    cases (machine.exec reserved p configuration : Except Fault _) with
    | error fault => rfl
    | ok middle => exact ih middle

theorem run_eq_step (program : Program V) (state : State V) :
    machine.run program state = machine.step program (.singleton state) := by
  unfold run step runM
  simp only [report_eq]
  cases (machine.exec [] program (.singleton state) : Except Fault _) <;> rfl

end StackCalculus.Machine
