import StackCalculus.Memory
import StackCalculus.Term.Eval

/-!
# States

A state is one thread of execution: a memory and a substitution. Pushing and popping a term are the
two steps that change it; closing a scope removes a variable from it.
-/

namespace StackCalculus

/-- One thread of execution. -/
structure State (V : Type) where
  memory : Memory V
  substitution : Substitution V := .empty

namespace State

variable {V : Type}

/-- The state with empty stacks over an alphabet and without bindings. -/
def ofAlphabet (alphabet : List String) : State V := { memory := .ofAlphabet alphabet }

/-- Exchanges the stack at a location for concrete values, given from the bottom to the top. -/
def withValues (state : State V) (location : String) (values : List V) :
    Except Fault (State V) := do
  let memory ← state.memory.withStack location (.ofList (values.map .value))
  return { state with memory }

/-- The cells at a location from the bottom to the top, with references resolved. -/
def values (state : State V) (location : String) : Except Fault (List (Cell V)) := do
  let stack ← state.memory.stackAt location
  stack.toList.mapM state.substitution.resolveCell

/-- Whether the memory or the substitution mentions a variable. -/
def mentions (state : State V) (x : Var) : Bool :=
  state.substitution.mentions x || state.memory.mentions x

/-- A bound on the number of different variables that a state mentions: each binding has a variable
and may refer to one, and so may each cell of the memory. -/
def mentionBound (state : State V) : Nat := 2 * state.substitution.size + state.memory.cellCount

/-- Pushes what a term evaluates to. -/
def push (state : State V) (term : Term V) (location : String) : Except Fault (State V) := do
  let cell ← term.evaluateUnder state.substitution
  let memory ← state.memory.push location cell
  return { state with memory }

/-- Pops a cell and matches it against a term. -/
def pop [DecidableEq V] [ToString V] (state : State V) (term : Term V) (location : String) :
    Except Fault (State V) := do
  let (top, memory) ← state.memory.pop location
  let popped ← state.substitution.resolveCell top
  let expected ← term.evaluateUnder state.substitution
  let substitution ← state.substitution.matchCell expected popped
  return { memory, substitution }

/-- Closes the scope of a variable: references to it become its binding, and the binding goes. -/
def project (state : State V) (x : Var) : State V where
  memory :=
    match state.substitution.get? x with
    | some cell => state.memory.replaceRefs x cell
    | none => state.memory
  substitution := state.substitution.projectOut x

theorem project_of_unbound {state : State V} {x : Var} (h : state.substitution.get? x = none) :
    state.project x = state := by
  unfold project
  rw [h, state.substitution.projectOut_of_unbound h]

instance [DecidableEq V] : BEq (State V) :=
  ⟨fun s t => s.memory == t.memory && s.substitution == t.substitution⟩

/-- The text of a state: its memory and its substitution, with a blank between them. -/
def render [ToString V] (state : State V) : String := s!"{state.memory} {state.substitution}"

instance [ToString V] : ToString (State V) := ⟨render⟩

end State

end StackCalculus
