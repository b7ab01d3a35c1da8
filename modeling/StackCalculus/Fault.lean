/-!
# Faults

Everything that can stop an evaluation or a step. Two of the causes belong to the calculus itself
and only end the branch they occur on; every other one aborts the whole run.
-/

namespace StackCalculus

/-- Why an evaluation or a step did not succeed. Terms and cells are given as they are shown. -/
inductive Fault where
  | arityMismatch (term : String) (expected actual : Nat)
  | nonConstantTerm (term name : String)
  | alreadyBound (name : String)
  | cyclicBinding (name target : String)
  | unknownLocation (location : String)
  | stackUnderflow (location : String)
  | mismatch (popped expected : String)
  | multiplicityOverflow
  | divergence (rounds : Nat)
deriving DecidableEq

namespace Fault

/-- The text of a fault. -/
def message : Fault → String
  | arityMismatch term expected actual =>
    s!"function term {term} declares arity {expected} but has {actual} arguments"
  | nonConstantTerm term x => s!"term {term} contains variable {x} and cannot be evaluated"
  | alreadyBound x => s!"variable {x} is already bound"
  | cyclicBinding x target => s!"binding {x} to {target} would close a cycle"
  | unknownLocation location => s!"location {location} is not part of this memory"
  | stackUnderflow location => s!"pop on empty stack at {location}"
  | mismatch popped expected => s!"popped {popped} does not match expected {expected}"
  | multiplicityOverflow => "state multiplicity overflowed"
  | divergence rounds => s!"iterate did not converge after {rounds} rounds"

/-- Failures of the calculus: they end their own branch and leave the rest of the run alone. -/
def isBranchFailure : Fault → Bool
  | stackUnderflow _ => true
  | mismatch _ _ => true
  | _ => false

end Fault

end StackCalculus
