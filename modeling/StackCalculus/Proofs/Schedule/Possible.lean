import Mathlib
import StackCalculus.Equality
import StackCalculus.Machine.Equations

/-!
# All schedules at once

`Scheduled` is the monad of all results that a computation can have when every schedule is left open:
wherever a machine arranges its visits, every order of the items and every bracketing of the sums is
possible, empty sums included. The interpreter runs in this monad as it does in any other, and
`Machine.possible` is the set of all its results. The machine's own run is one of them
(`exec_mem_possible`).
-/

namespace StackCalculus

/-- The possible results of a computation whose schedules are left open. -/
def Scheduled (α : Type) : Type := Set (Except Fault α)

namespace Scheduled

variable {α β : Type}

instance : Membership (Except Fault α) (Scheduled α) := ⟨fun results o => results o⟩

instance : Monad Scheduled where
  pure a := fun o => o = .ok a
  bind x f := fun o => (∃ a, .ok a ∈ x ∧ o ∈ f a) ∨ ∃ e, .error e ∈ x ∧ o = .error e

instance : MonadExcept Fault Scheduled where
  throw e := fun o => o = .error e
  tryCatch x handle := fun o => (∃ a, .ok a ∈ x ∧ o = .ok a) ∨ ∃ e, .error e ∈ x ∧ o ∈ handle e

instance {ε : Type} : MonadReport ε Scheduled := ⟨fun _ => pure ()⟩

/-- Every schedule that visits the given items is possible. -/
instance : MonadSchedule Scheduled :=
  ⟨fun _ items o => ∃ schedule, schedule.items.Perm items ∧ o = .ok schedule⟩

theorem mem_pure {a : α} {o : Except Fault α} : o ∈ (pure a : Scheduled α) ↔ o = .ok a := Iff.rfl

theorem mem_bind {x : Scheduled α} {f : α → Scheduled β} {o : Except Fault β} :
    o ∈ x >>= f ↔ (∃ a, .ok a ∈ x ∧ o ∈ f a) ∨ ∃ e, .error e ∈ x ∧ o = .error e := Iff.rfl

theorem mem_throw {e : Fault} {o : Except Fault α} :
    o ∈ (throw e : Scheduled α) ↔ o = .error e := Iff.rfl

theorem mem_ofExcept {x o : Except Fault α} : o ∈ (ofExcept x : Scheduled α) ↔ o = x := by
  cases x <;> exact Iff.rfl

theorem mem_arrange {machine : Machine} {items : List α} {o : Except Fault (Schedule α)} :
    o ∈ (arrange machine items : Scheduled (Schedule α)) ↔
      ∃ schedule, schedule.items.Perm items ∧ o = .ok schedule := Iff.rfl

theorem ext {x y : Scheduled α} (h : ∀ o, o ∈ x ↔ o ∈ y) : x = y := Set.ext h

theorem pure_bind (a : α) (f : α → Scheduled β) : (pure a : Scheduled α) >>= f = f a := by
  refine ext fun o => ?_
  rw [mem_bind]
  constructor
  · rintro (⟨b, hb, ho⟩ | ⟨e, he, _⟩)
    · cases hb
      exact ho
    · cases he
  · intro ho
    exact Or.inl ⟨a, rfl, ho⟩

theorem ok_mem_bind {x : Scheduled α} {f : α → Scheduled β} {b : β} :
    .ok b ∈ x >>= f ↔ ∃ a, .ok a ∈ x ∧ .ok b ∈ f a := by
  rw [mem_bind]
  constructor
  · rintro (h | ⟨e, _, he⟩)
    · exact h
    · cases he
  · exact Or.inl

/-- A run of two stages is possible if its stages are. -/
theorem bind_mem {x : Except Fault α} {f : α → Except Fault β} {X : Scheduled α}
    {F : α → Scheduled β} (hx : x ∈ X) (hf : ∀ a, f a ∈ F a) : (x >>= f) ∈ X >>= F := by
  cases x with
  | ok a => exact Or.inl ⟨a, hx, hf a⟩
  | error e => exact Or.inr ⟨e, hx, rfl⟩

end Scheduled

namespace Machine

open Scheduled

variable {V : Type} [DecidableEq V]

theorem settle_scheduled (result : Except Fault (State V)) :
    (settle result : Scheduled (Configuration V)) = ofExcept (settle result) := by
  cases result with
  | ok state => rfl
  | error fault =>
    unfold settle
    by_cases h : fault.isBranchFailure
    · simp only [h]
      exact pure_bind () _
    · simp only [h]
      rfl

/-- The states of a configuration are visited by some schedule. -/
theorem mem_forEach {machine : Machine} {f : State V → Scheduled (Configuration V)}
    {configuration : Configuration V} {o : Except Fault (Configuration V)} :
    o ∈ machine.forEach f configuration ↔
      ∃ schedule : Schedule (State V × Nat), schedule.items.Perm configuration.entries ∧
        o ∈ schedule.collect fun entry =>
          f entry.1 >>= fun outcome => ofExcept (outcome.scale entry.2) := by
  constructor
  · intro ho
    rcases mem_bind.mp ho with ⟨schedule, hschedule, ho⟩ | ⟨e, he, _⟩
    · obtain ⟨_, hitems, heq⟩ := mem_arrange.mp hschedule
      cases heq
      exact ⟨schedule, hitems, ho⟩
    · obtain ⟨_, _, heq⟩ := mem_arrange.mp he
      cases heq
  · rintro ⟨schedule, hitems, ho⟩
    exact mem_bind.mpr (.inl ⟨schedule, mem_arrange.mpr ⟨schedule, hitems, rfl⟩, ho⟩)

variable [ToString V]

/-- The results that a program can have on a configuration, over all schedules. -/
def possible (machine : Machine) (reserved : List Var) (program : Program V)
    (configuration : Configuration V) : Scheduled (Configuration V) :=
  machine.exec reserved program configuration

variable (machine : Machine) (reserved : List Var)

theorem possible_skip (configuration : Configuration V) :
    machine.possible reserved .skip configuration = pure configuration := by
  rw [possible, exec]

theorem possible_fail (configuration : Configuration V) :
    machine.possible reserved .fail configuration = pure .empty := by
  rw [possible, exec]

theorem possible_seq (p q : Program V) (configuration : Configuration V) :
    machine.possible reserved (.seq p q) configuration =
      machine.possible reserved p configuration >>= machine.possible reserved q := by
  rw [possible, exec]
  rfl

theorem possible_iterate (p : Program V) (configuration : Configuration V) :
    machine.possible reserved (.iterate p) configuration =
      machine.close (machine.possible reserved p) configuration >>= fun fixpoint =>
        pure fixpoint.configuration := by
  rw [possible, exec]
  rfl

theorem possible_branch (p q : Program V) (configuration : Configuration V) :
    machine.possible reserved (.branch p q) configuration =
      machine.forEach (fun state => do
        let left ← machine.possible reserved p (.singleton state)
        let right ← machine.possible reserved q (.singleton state)
        ofExcept (left.union right)) configuration := by
  rw [possible, exec]
  congr 1
  funext state
  exact pure_bind () _

theorem possible_push (t : Term V) (location : String) (configuration : Configuration V) :
    machine.possible reserved (.push t location) configuration =
      machine.forEach (fun state => ofExcept (settle (state.push t location))) configuration := by
  rw [possible, exec]
  congr 1
  funext state
  exact (pure_bind () _).trans (settle_scheduled _)

theorem possible_pop (t : Term V) (location : String) (configuration : Configuration V) :
    machine.possible reserved (.pop t location) configuration =
      machine.forEach (fun state => ofExcept (settle (state.pop t location))) configuration := by
  rw [possible, exec]
  congr 1
  funext state
  exact (pure_bind () _).trans (settle_scheduled _)

theorem possible_scope (x : Var) (p : Program V) (configuration : Configuration V) :
    machine.possible reserved (.scope x p) configuration =
      machine.forEach (fun state => do
        let fresh := freshFor x p state reserved
        let inner ← machine.possible (reserved ++ [fresh]) (p.rename x fresh) (.singleton state)
        ofExcept (Bag.ofCounts (inner.entries.map fun entry => (entry.1.project fresh, entry.2))))
        configuration := by
  rw [possible, exec]
  congr 1
  funext state
  exact (pure_bind () _).trans (pure_bind () _)

/-! ## The machine's own run -/

theorem collect_mem {α β : Type} [BEq β] {f : α → Except Fault (Bag β)} {F : α → Scheduled (Bag β)}
    (hf : ∀ a, f a ∈ F a) (schedule : Schedule α) : schedule.collect f ∈ schedule.collect F := by
  induction schedule with
  | idle => exact mem_pure.mpr rfl
  | visit item => exact hf item
  | join left right ihleft ihright =>
    refine bind_mem ihleft fun leftSum => bind_mem ihright fun rightSum => ?_
    rw [ofExcept_eq]
    exact mem_ofExcept.mpr rfl

omit [ToString V] in
theorem forEach_mem {f : State V → Except Fault (Configuration V)}
    {F : State V → Scheduled (Configuration V)} (hf : ∀ s, f s ∈ F s)
    (configuration : Configuration V) :
    machine.forEach f configuration ∈ machine.forEach F configuration := by
  have hvisit : ∀ entry : State V × Nat,
      (f entry.1 >>= fun outcome => ofExcept (outcome.scale entry.2) :
        Except Fault (Configuration V)) ∈
      (F entry.1 >>= fun outcome => ofExcept (outcome.scale entry.2) :
        Scheduled (Configuration V)) := by
    intro entry
    refine bind_mem (hf entry.1) fun outcome => ?_
    rw [ofExcept_eq]
    exact mem_ofExcept.mpr rfl
  refine bind_mem (mem_arrange.mpr ⟨_, machine.items_schedule _, rfl⟩) fun schedule => ?_
  exact collect_mem hvisit schedule

omit [ToString V] in
theorem closeFrom_mem {body : Configuration V → Except Fault (Configuration V)}
    {Body : Configuration V → Scheduled (Configuration V)} (hbody : ∀ c, body c ∈ Body c)
    (budget rounds : Nat) (sum frontier : Configuration V) :
    machine.closeFrom body budget rounds sum frontier ∈
      machine.closeFrom Body budget rounds sum frontier := by
  induction budget generalizing rounds sum frontier with
  | zero =>
    unfold closeFrom
    split
    · exact mem_pure.mpr rfl
    · split <;> exact mem_throw.mpr rfl
  | succ budget ih =>
    unfold closeFrom
    split
    · exact mem_pure.mpr rfl
    · split
      · exact mem_throw.mpr rfl
      · refine bind_mem (hbody frontier) fun next => bind_mem (mem_pure.mpr rfl) fun _ => ?_
        refine bind_mem ?_ fun sum => ih (rounds + 1) sum next
        rw [ofExcept_eq]
        exact mem_ofExcept.mpr rfl

/-- The run of a machine by its own schedules is one of the possible runs. -/
theorem exec_mem_possible (program : Program V) (configuration : Configuration V) :
    machine.exec reserved program configuration ∈
      machine.possible reserved program configuration := by
  induction program using Program.enter_induction generalizing reserved configuration with
  | skip =>
    rw [exec_skip, possible_skip]
    exact mem_pure.mpr rfl
  | fail =>
    rw [exec_fail, possible_fail]
    exact mem_pure.mpr rfl
  | seq p q ihp ihq =>
    rw [exec_seq, possible_seq]
    exact bind_mem (ihp reserved configuration) (ihq reserved)
  | iterate p ih =>
    rw [exec_iterate, possible_iterate]
    have hclose := machine.closeFrom_mem (ih reserved) machine.config.maxIterations 0 configuration
      configuration
    have hmap : ∀ x : Except Fault (Fixpoint V), Except.map Fixpoint.configuration x =
        x >>= fun fixpoint => .ok fixpoint.configuration := by
      intro x
      cases x <;> rfl
    rw [hmap]
    exact bind_mem hclose fun fixpoint => mem_pure.mpr rfl
  | branch p q ihp ihq =>
    rw [exec_branch, possible_branch]
    refine machine.forEach_mem (fun state => ?_) configuration
    refine bind_mem (ihp reserved _) fun left => bind_mem (ihq reserved _) fun right => ?_
    exact mem_ofExcept.mpr rfl
  | push t location =>
    rw [exec_push, possible_push]
    exact machine.forEach_mem (fun state => mem_ofExcept.mpr rfl) configuration
  | pop t location =>
    rw [exec_pop, possible_pop]
    exact machine.forEach_mem (fun state => mem_ofExcept.mpr rfl) configuration
  | scope x p ih =>
    rw [exec_scope, possible_scope]
    refine machine.forEach_mem (fun state => ?_) configuration
    exact bind_mem (ih _ _ _) fun inner => mem_ofExcept.mpr rfl

end Machine

end StackCalculus
