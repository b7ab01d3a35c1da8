import StackCalculus.State
import StackCalculus.Program.Basic

/-!
# Scopes

A scope replaces its variable by a local one that nothing in sight uses: not the body, not the state
and no enclosing scope. The choice depends on these three alone, so scopes entered from equal states
choose equal names.
-/

namespace StackCalculus

variable {V : Type}

/-- The least index from `index` on that is not taken, if there is one among the next `budget`. -/
def firstFree (taken : Nat → Bool) : (budget index : Nat) → Nat
  | 0, index => index
  | budget + 1, index => if taken index then firstFree taken budget (index + 1) else index

/-- Whether a name is free in the body, mentioned by the state or reserved by an enclosing scope. -/
def inUse (bodyVars : VarSet) (state : State V) (reserved : List Var) (x : Var) : Bool :=
  bodyVars.contains x || reserved.contains x || state.mentions x

/-- The local variable `x#i` with the least index that is not in use. There are at most as many
variables in use as the budget says, so one of the indices up to it is free. -/
def freshFor (x : Var) (body : Program V) (state : State V) (reserved : List Var) : Var :=
  let bodyVars := body.freeVars
  let budget := bodyVars.size + reserved.length + state.mentionBound
  .indexed x.name (firstFree (fun i => inUse bodyVars state reserved (.indexed x.name i)) budget 0)

end StackCalculus
