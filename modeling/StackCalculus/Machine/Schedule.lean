import StackCalculus.Bag
import StackCalculus.Machine.Config

/-!
# Schedules

The outcomes of the states of a configuration are summed up. A schedule says in which order the
states are visited and how the partial sums are bracketed: `Schedule.inOrder` adds one outcome after
the other to an empty sum, `Schedule.balanced` combines sums of about equal numbers of states. Which
schedule is taken is an effect of the monad that a machine runs in; a machine that runs on its own
takes `Machine.schedule`.
-/

namespace StackCalculus

/-- An order of visits and a bracketing of sums. -/
inductive Schedule (α : Type) where
  | idle
  | visit (item : α)
  | join (left right : Schedule α)

namespace Schedule

variable {α β : Type}

/-- The visited items in order. -/
def items : Schedule α → List α
  | idle => []
  | visit item => [item]
  | join left right => left.items ++ right.items

/-- Adds one item after the other to the sum of those before. -/
def inOrder (items : List α) : Schedule α :=
  items.foldl (fun schedule item => join schedule (visit item)) idle

/-- Adds an item to the lighter side, which then becomes the heavier one. -/
def add (item : α) : Schedule α → Schedule α
  | idle => visit item
  | visit other => join (visit other) (visit item)
  | join left right => join right (left.add item)

/-- Spreads the items evenly over the two sides of every sum. -/
def balanced (items : List α) : Schedule α := items.foldl (fun schedule item => schedule.add item) idle

theorem items_foldl_join (items : List α) (schedule : Schedule α) :
    (items.foldl (fun schedule item => join schedule (visit item)) schedule).items =
      schedule.items ++ items := by
  induction items generalizing schedule with
  | nil => exact (List.append_nil _).symm
  | cons item rest ih =>
    rw [List.foldl_cons, ih]
    show (schedule.items ++ [item]) ++ rest = _
    rw [List.append_assoc]
    rfl

/-- Visiting in order visits every item once, in the given order. -/
theorem items_inOrder (items : List α) : (inOrder items).items = items := items_foldl_join items idle

theorem items_add (item : α) (schedule : Schedule α) :
    (schedule.add item).items.Perm (item :: schedule.items) := by
  induction schedule with
  | idle => exact .refl _
  | visit other => exact .swap item other []
  | join left right ihleft _ =>
    show (right.items ++ (left.add item).items).Perm (item :: (left.items ++ right.items))
    exact List.perm_append_comm.trans (ihleft.append_right _)

theorem items_foldl_add (items : List α) (schedule : Schedule α) :
    (items.foldl (fun schedule item => schedule.add item) schedule).items.Perm
      (items ++ schedule.items) := by
  induction items generalizing schedule with
  | nil => exact .refl _
  | cons item rest ih =>
    rw [List.foldl_cons]
    refine (ih _).trans (((items_add item schedule).append_left rest).trans ?_)
    exact List.perm_middle

/-- A balanced schedule visits every item once. -/
theorem items_balanced (items : List α) : (balanced items).items.Perm items := by
  have h := items_foldl_add items (idle : Schedule α)
  rwa [show (idle : Schedule α).items = [] from rfl, List.append_nil] at h

/-- Visits the items of a schedule and sums up their outcomes. -/
@[specialize] def collect [BEq β] {m : Type → Type} [Monad m] [MonadExcept Fault m]
    (f : α → m (Bag β)) : Schedule α → m (Bag β)
  | idle => pure .empty
  | visit item => f item
  | join left right => do
    let leftSum ← left.collect f
    let rightSum ← right.collect f
    ofExcept (leftSum.union rightSum)

end Schedule

/-- The schedule that a machine takes by itself: balanced where there are enough items for a split,
and one item after the other elsewhere. -/
def Machine.schedule {α : Type} (machine : Machine) (items : List α) : Schedule α :=
  if machine.splits items.length then .balanced items else .inOrder items

theorem Machine.items_schedule {α : Type} (machine : Machine) (items : List α) :
    (machine.schedule items).items.Perm items := by
  unfold Machine.schedule
  split
  · exact Schedule.items_balanced items
  · exact .of_eq (Schedule.items_inOrder items)

/-- Monads that decide how a machine schedules its visits. -/
class MonadSchedule (m : Type → Type) where
  arrange {α : Type} : Machine → List α → m (Schedule α)

export MonadSchedule (arrange)

instance : MonadSchedule (Except Fault) := ⟨fun machine items => .ok (machine.schedule items)⟩

end StackCalculus
