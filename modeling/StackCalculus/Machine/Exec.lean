import StackCalculus.Machine.Config
import StackCalculus.Machine.Event
import StackCalculus.Machine.Schedule
import StackCalculus.Machine.Scope

/-!
# The machine

A configuration is a bag of states. A program takes a configuration to a configuration: sequence and
iteration work on whole configurations, and every other program works on each state by itself and
adds up the outcomes, each multiplied by the count of its state. A failure of the calculus ends its
own branch; every other fault ends the run. The interpreter is written for every monad that takes
reports and schedules visits.
-/

namespace StackCalculus

/-- States with the number of ways in which they were reached. -/
abbrev Configuration (V : Type) [DecidableEq V] := Bag (State V)

/-- The outcome of an iteration, and how often its body was applied. -/
structure Fixpoint (V : Type) [DecidableEq V] where
  configuration : Configuration V
  rounds : Nat

namespace Machine

variable {V : Type} [DecidableEq V] [ToString V]
variable {m : Type → Type} [Monad m] [MonadExcept Fault m] [MonadReport (Event V) m]
variable [MonadSchedule m]

omit [ToString V] [MonadReport (Event V) m] in
/-- Applies a function to each state, and adds up the outcomes weighted by the counts. -/
@[specialize] def forEach (machine : Machine) (f : State V → m (Configuration V))
    (configuration : Configuration V) : m (Configuration V) := do
  let schedule ← arrange machine configuration.entries
  schedule.collect fun entry => do
    let outcome ← f entry.1
    ofExcept (outcome.scale entry.2)

omit [ToString V] [MonadSchedule m] in
/-- The outcome of a push or a pop: one state, or none if the calculus fails here. -/
@[specialize] def settle (result : Except Fault (State V)) : m (Configuration V) :=
  match result with
  | .ok state => pure (.singleton state)
  | .error fault =>
    if fault.isBranchFailure then do
      report (.discarded fault : Event V)
      pure .empty
    else throw fault

omit [ToString V] [MonadSchedule m] in
/-- Applies `body` to the newest states until it gives none, for at most `budget` rounds more. `sum`
adds up all states so far, and `rounds` counts the applications so far. -/
@[specialize] def closeFrom (machine : Machine) (body : Configuration V → m (Configuration V)) :
    (budget rounds : Nat) → (sum frontier : Configuration V) → m (Fixpoint V)
  | budget, rounds, sum, frontier =>
    if frontier.isEmpty then pure ⟨sum, rounds⟩
    else if machine.outOfTime rounds then throw (.divergence rounds)
    else
      match budget with
      | 0 => throw (.divergence rounds)
      | budget + 1 => do
        let next ← body frontier
        report (.rounded (rounds + 1) next.size : Event V)
        let sum ← ofExcept (sum.union next)
        machine.closeFrom body budget (rounds + 1) sum next

omit [ToString V] [MonadSchedule m] in
/-- The sum of the outcomes of applying `body` 0, 1, 2, … times, up to an application that gives no
state. Not coming to one within the limits is a divergence. -/
@[specialize] def close (machine : Machine) (body : Configuration V → m (Configuration V))
    (start : Configuration V) : m (Fixpoint V) :=
  machine.closeFrom body machine.config.maxIterations 0 start start

/-- Applies a program to a configuration. `reserved` lists the fresh variables of the scopes around
the program. -/
@[specialize] def exec (machine : Machine) (reserved : List Var) :
    Program V → Configuration V → m (Configuration V)
  | .skip, configuration => pure configuration
  | .fail, _ => pure .empty
  | .seq p q, configuration => do
    let middle ← machine.exec reserved p configuration
    machine.exec reserved q middle
  | .iterate p, configuration => do
    let fixpoint ← machine.close (fun frontier => machine.exec reserved p frontier) configuration
    pure fixpoint.configuration
  | .branch p q, configuration =>
    machine.forEach (fun state => do
      report (Event.stepped (.branch p q) state)
      let left ← machine.exec reserved p (.singleton state)
      let right ← machine.exec reserved q (.singleton state)
      ofExcept (left.union right)) configuration
  | .push t location, configuration =>
    machine.forEach (fun state => do
      report (Event.stepped (.push t location) state)
      settle (state.push t location)) configuration
  | .pop t location, configuration =>
    machine.forEach (fun state => do
      report (Event.stepped (.pop t location) state)
      settle (state.pop t location)) configuration
  | .scope x p, configuration =>
    machine.forEach (fun state => do
      report (Event.stepped (.scope x p) state)
      let fresh := freshFor x p state reserved
      report (.entered x fresh : Event V)
      let inner ← machine.exec (reserved ++ [fresh]) (p.rename x fresh) (.singleton state)
      ofExcept (Bag.ofCounts (inner.entries.map fun entry => (entry.1.project fresh, entry.2))))
      configuration
termination_by p => p.size
decreasing_by all_goals simp only [Program.size, Program.size_rename]; omega

/-- Runs a program from one state. -/
@[specialize] def runM (machine : Machine) (program : Program V) (state : State V) :
    m (Configuration V) := do
  report (Event.started program)
  let outcome ← machine.exec [] program (.singleton state)
  report (.finished outcome.size outcome.total : Event V)
  pure outcome

/-! ## Entry points -/

/-- Applies a program to a configuration. -/
def step (machine : Machine) (program : Program V) (configuration : Configuration V) :
    Except Fault (Configuration V) :=
  machine.exec [] program configuration

/-- Runs a program from one state. -/
def run (machine : Machine) (program : Program V) (state : State V) :
    Except Fault (Configuration V) :=
  machine.runM program state

/-- Runs a program from one state and keeps the log of its events. -/
def trace (machine : Machine) (program : Program V) (state : State V) :
    Except Fault (Configuration V × Array (Event V)) :=
  (machine.runM program state : Traced V (Configuration V)).run #[]

/-- Iterates a program from a configuration. -/
def fixpoint (machine : Machine) (body : Program V) (start : Configuration V) :
    Except Fault (Fixpoint V) :=
  machine.close (fun frontier => machine.exec [] body frontier) start

end Machine

end StackCalculus
