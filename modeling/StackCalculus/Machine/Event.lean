import StackCalculus.State
import StackCalculus.Program.Render
import StackCalculus.Machine.Schedule

/-!
# Events

What a machine reports while it runs. The interpreter is written once for every monad that takes
reports: `Except Fault` drops them, `Traced` keeps them in the order in which they were made.
-/

namespace StackCalculus

/-- One report of a machine. -/
inductive Event (V : Type) where
  /-- A run of a program begins. -/
  | started (program : Program V)
  /-- A run ended with this many different states and this sum of counts. -/
  | finished (states total : Nat)
  /-- A branch, push, pop or scope is applied to a state. -/
  | stepped (program : Program V) (state : State V)
  /-- A failure of the calculus ended a branch. -/
  | discarded (reason : Fault)
  /-- The body of an iteration was applied once more and gave this many different states. -/
  | rounded (round states : Nat)
  /-- The variable of a scope is replaced by a fresh one. -/
  | entered (x fresh : Var)

/-- The text of an event: its level, its message and its fields. -/
def Event.render {V : Type} [ToString V] : Event V → String
  | started program => s!"DEBUG run program={program}"
  | finished states total => s!"DEBUG run finished states={states} total={total}"
  | stepped program state => s!"TRACE step op={program} state={state}"
  | discarded reason => "DEBUG branch discarded reason=" ++ reason.message
  | rounded round states => s!"DEBUG iterate round round={round} states={states}"
  | entered x fresh => s!"TRACE entering scope var={x} fresh={fresh}"

/-- Monads that take reports. -/
class MonadReport (ε : Type) (m : Type → Type) where
  report : ε → m Unit

export MonadReport (report)

/-- Without a log, reports are dropped. -/
instance {ε : Type} : MonadReport ε (Except Fault) := ⟨fun _ => .ok ()⟩

/-- Runs that keep a log of their events. -/
abbrev Traced (V : Type) := StateT (Array (Event V)) (Except Fault)

instance {V : Type} : MonadReport (Event V) (Traced V) := ⟨fun event => modify (·.push event)⟩

instance {V : Type} : MonadSchedule (Traced V) := ⟨fun machine items => pure (machine.schedule items)⟩

end StackCalculus
