import Mathlib
import StackCalculus.Proofs.Paths
import StackCalculus.Proofs.Renaming.Group
import StackCalculus.Proofs.Steps

/-!
# Names that a run keeps

A name that a state mentions can be lost on the way: a pop takes the cell that refers to it into a
local variable, and the end of the scope drops the variable. After that the name is free again, and
a scope may choose it. Two kinds of mentions are never lost. Bindings stay, because no scope removes a
variable that was bound before it; and so do the stacks at locations that the program does not pop
from, below what is pushed on them. `Keeps` is the invariant that says so, step by step.
-/

namespace StackCalculus

variable {V : Type}

/-- The locations that a program pops from. -/
def Program.popped : Program V → List String
  | .skip | .fail | .push _ _ => []
  | .seq p q | .branch p q => p.popped ++ q.popped
  | .iterate p | .scope _ p => p.popped
  | .pop _ location => [location]

@[simp] theorem Program.popped_rename (old new : Var) (p : Program V) :
    (p.rename old new).popped = p.popped := by
  induction p with
  | skip => rfl
  | fail => rfl
  | seq p q ihp ihq => simp [Program.rename, Program.popped, ihp, ihq]
  | branch p q ihp ihq => simp [Program.rename, Program.popped, ihp, ihq]
  | iterate p ih => simp [Program.rename, Program.popped, ih]
  | push t location => rfl
  | pop t location => rfl
  | scope x p ih =>
    rw [Program.rename]
    split
    · rfl
    · exact ih

/-- The names that a state mentions in its bindings, or in a stack at a location outside `popped`. -/
def State.Kept (state : State V) (popped : List String) (x : Var) : Prop :=
  state.substitution.mentions x ∨ ∃ location stack, location ∉ popped ∧
    state.memory.table.get? location = some stack ∧ stack.mentions x

/-- The bindings of `s` are there in `u`, and so are the stacks of `s` at locations outside `popped`,
possibly with more cells on top. -/
structure Keeps (s : State V) (popped : List String) (u : State V) : Prop where
  bindings : ∀ x c, s.substitution.get? x = some c → u.substitution.get? x = some c
  cells : ∀ location stack, location ∉ popped → s.memory.table.get? location = some stack →
    ∃ stack', u.memory.table.get? location = some stack' ∧ stack.cells <:+ stack'.cells

namespace Keeps

variable {s u v : State V} {popped : List String}

theorem refl (s : State V) (popped : List String) : Keeps s popped s where
  bindings _ _ h := h
  cells _ stack _ h := ⟨stack, h, List.suffix_refl _⟩

theorem mentions (h : Keeps s popped u) {x : Var} (hx : s.Kept popped x) : u.mentions x := by
  rcases hx with hx | ⟨location, stack, hlocation, hget, hx⟩
  · rcases (s.substitution.mentions_iff x).mp hx with ⟨c, hc⟩ | ⟨z, c, hc, hcx⟩
    · exact State.mentions_of_get? (h.bindings x c hc)
    · exact State.mentions_of_binding (h.bindings z c hc) hcx
  · obtain ⟨stack', hget', hsuffix⟩ := h.cells location stack hlocation hget
    obtain ⟨c, hc, hcx⟩ := List.any_eq_true.mp hx
    exact State.mentions_of_cell hget' (hsuffix.mem hc) hcx

/-! ## Steps -/

/-- A stack that grows keeps its cells. -/
theorem insert (h : Keeps s popped u) {location : String} {stack : Stack V} (stack' : Stack V)
    (hget : u.memory.table.get? location = some stack)
    (hgrown : location ∉ popped → stack.cells <:+ stack'.cells) :
    Keeps s popped ⟨⟨u.memory.table.insert location stack'⟩, u.substitution⟩ where
  bindings := h.bindings
  cells other below hother hbelow := by
    obtain ⟨found, hfound, hsuffix⟩ := h.cells other below hother hbelow
    show ∃ top, (u.memory.table.insert location stack').get? other = some top ∧ _
    rw [NameMap.get?_insert]
    split
    · rename_i heq
      rw [heq] at hfound hother
      cases hget.symm.trans hfound
      exact ⟨stack', rfl, hsuffix.trans (hgrown hother)⟩
    · exact ⟨found, hfound, hsuffix⟩

theorem push (h : Keeps s popped u) {t : Term V} {location : String}
    (hpush : u.push t location = .ok v) : Keeps s popped v := by
  have hcases := u.push_cases t location
  rw [hpush] at hcases
  cases hcases with
  | pushed _ hstack => exact h.insert _ hstack fun _ => List.suffix_cons _ _

/-- A pop keeps the other stacks, and all bindings. -/
theorem pop [DecidableEq V] [ToString V] (h : Keeps s popped u) {t : Term V} {location : String}
    (hlocation : location ∈ popped) (hpop : u.pop t location = .ok v) : Keeps s popped v := by
  have hcases := u.pop_cases t location
  rw [hpop] at hcases
  cases hcases with
  | matched hstack => exact h.insert _ hstack fun hnot => absurd hlocation hnot
  | bound hstack _ _ hx =>
    refine ⟨fun z c hz => ?_, (h.insert _ hstack fun hnot => absurd hlocation hnot).cells⟩
    -- The new binding is that of an unbound variable.
    have hz := h.bindings z c hz
    rw [Substitution.get?_set, if_neg (Substitution.not_beq_of_get? hz hx), hz]

/-- A scope that chose a variable outside the kept names keeps them when it ends. -/
theorem project (h : Keeps s popped u) {x : Var} (hx : ¬ s.Kept popped x) :
    Keeps s popped (u.project x) := by
  cases hget : u.substitution.get? x with
  | none =>
    rw [State.project_of_unbound hget]
    exact h
  | some cell =>
    -- The projection rewrites references to `x`, and what is kept has none.
    refine ⟨fun z c hz => ?_, fun location stack hlocation hstack => ?_⟩
    · have hzx : ¬ z == x := fun heq => hx (.inl ((Substitution.mentions_iff ..).mpr
        (.inl ⟨c, (s.substitution.get?_congr heq).symm.trans hz⟩)))
      have hcx : c.refersTo x = false := by
        rw [← Bool.not_eq_true]
        exact fun hcx => hx (.inl ((Substitution.mentions_iff ..).mpr (.inr ⟨z, c, hz, hcx⟩)))
      show (u.substitution.projectOut x).get? z = some c
      rw [u.substitution.get?_projectOut_of_bound hget, if_neg hzx, h.bindings z c hz]
      exact congrArg some (Cell.replaceRef_of_refersTo_eq_false hcx cell)
    · obtain ⟨stack', hstack', hsuffix⟩ := h.cells location stack hlocation hstack
      have hmentions : stack.mentions x = false := by
        rw [← Bool.not_eq_true]
        exact fun hcx => hx (.inr ⟨location, stack, hlocation, hstack, hcx⟩)
      have hcells := congrArg Stack.cells (Stack.map_replaceRef_of_mentions_eq_false hmentions cell)
      refine ⟨stack'.map (Cell.replaceRef x cell), ?_, ?_⟩
      · simp only [State.project, hget]
        show (u.memory.table.map _).get? location = _
        rw [NameMap.get?_map, hstack']
        rfl
      · have hmap : (stack.map (Cell.replaceRef x cell)).cells <:+ _ :=
          hsuffix.map (Cell.replaceRef x cell)
        rwa [hcells] at hmap

end Keeps

end StackCalculus
