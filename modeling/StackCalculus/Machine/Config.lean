/-!
# Machine limits

What bounds an iteration, and when the states of a configuration are worked on apart.
-/

namespace StackCalculus

/-- The limits and the schedule of a machine. -/
structure Config where
  /-- The most applications of the body in one iteration. -/
  maxIterations : Nat := 10000
  /-- The time that one iteration may take, in milliseconds. -/
  timeLimit : Option Nat := none
  /-- Whether large configurations are split and their parts combined pairwise. -/
  parallel : Bool := true
  /-- The least number of different states that is worth a split. -/
  parallelThreshold : Nat := 8
deriving DecidableEq

/-- A machine: its limits, and the milliseconds that an iteration has taken before a given round. -/
structure Machine where
  config : Config := {}
  elapsed : Nat → Nat := fun _ => 0

namespace Machine

/-- Whether the time of an iteration is over before a round. -/
def outOfTime (machine : Machine) (round : Nat) : Bool :=
  match machine.config.timeLimit with
  | some limit => limit ≤ machine.elapsed round
  | none => false

theorem outOfTime_eq_false {machine : Machine} (h : machine.config.timeLimit = none) (round : Nat) :
    machine.outOfTime round = false := by
  unfold outOfTime
  rw [h]

/-- Whether a configuration of this many different states is split. -/
def splits (machine : Machine) (states : Nat) : Bool :=
  machine.config.parallel && machine.config.parallelThreshold ≤ states

end Machine

end StackCalculus
