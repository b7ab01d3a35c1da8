import StackCalculus.Stack
import StackCalculus.Fault

/-!
# Memories

A memory has one stack for each location of a fixed alphabet. No operation adds or removes a
location; naming one outside the alphabet is a fault.
-/

namespace StackCalculus

/-- One stack for each location of an alphabet. -/
structure Memory (V : Type) where
  table : NameMap (Stack V)

namespace Memory

variable {V : Type}

/-- Empty stacks at the locations of an alphabet. -/
def ofAlphabet (alphabet : List String) : Memory V :=
  ⟨.ofList (alphabet.map fun location => (location, Stack.empty))⟩

/-- The locations in order. -/
def locations (memory : Memory V) : List String := memory.table.names

/-- The stack at a location. -/
def stackAt (memory : Memory V) (location : String) : Except Fault (Stack V) :=
  match memory.table.get? location with
  | some stack => .ok stack
  | none => .error (.unknownLocation location)

/-- Exchanges the stack at a location of the alphabet. -/
def withStack (memory : Memory V) (location : String) (stack : Stack V) :
    Except Fault (Memory V) := do
  let _ ← memory.stackAt location
  return ⟨memory.table.insert location stack⟩

/-- Pushes a cell at a location. -/
def push (memory : Memory V) (location : String) (cell : Cell V) : Except Fault (Memory V) := do
  let stack ← memory.stackAt location
  return ⟨memory.table.insert location (stack.push cell)⟩

/-- Pops the top cell at a location. -/
def pop (memory : Memory V) (location : String) : Except Fault (Cell V × Memory V) := do
  let stack ← memory.stackAt location
  match stack.pop? with
  | some (cell, rest) => return (cell, ⟨memory.table.insert location rest⟩)
  | none => .error (.stackUnderflow location)

/-- The top cell at a location, if the stack there has one. -/
def top? (memory : Memory V) (location : String) : Except Fault (Option (Cell V)) := do
  let stack ← memory.stackAt location
  return stack.top?

/-- Whether some cell refers to the variable `x`. -/
def mentions (memory : Memory V) (x : Var) : Bool :=
  memory.table.entries.any fun entry => entry.2.mentions x

/-- Puts `replacement` in place of every reference to `x`. -/
def replaceRefs (memory : Memory V) (x : Var) (replacement : Cell V) : Memory V :=
  ⟨memory.table.map (Stack.map (Cell.replaceRef x replacement))⟩

/-- The number of cells in all stacks together. -/
def cellCount (memory : Memory V) : Nat :=
  memory.table.entries.foldr (fun entry sum => entry.2.size + sum) 0

instance [DecidableEq V] : BEq (Memory V) := ⟨fun m n => m.table == n.table⟩

/-- The text of a memory: `location[cells]` for each location in order. -/
def render [ToString V] (memory : Memory V) : String :=
  String.intercalate " " (memory.table.entries.map fun (location, stack) => s!"{location}[{stack}]")

instance [ToString V] : ToString (Memory V) := ⟨render⟩

end Memory

end StackCalculus
