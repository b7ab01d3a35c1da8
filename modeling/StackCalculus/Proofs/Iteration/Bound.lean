import Mathlib
import StackCalculus.Proofs.Schedule.Independence

/-!
# Raising the bound of iterations

The bound on rounds holds for every iteration of a program, at every depth. A run under a smaller
bound is a run under a larger one that may be cut off by a divergence: no loop drops states to stay
within its bound. The interpreter is the same for all monads, and so is this argument. `CutOff`
collects what a relation between computations needs for it, and `CutOff.exec` is the induction over
programs; the machine's own runs and the runs under all schedules are two instances.
-/

namespace StackCalculus

/-- A relation between computations under which one that ends in `fault` is a cut of any other. -/
structure CutOff (m : Type → Type) [Monad m] [MonadExcept Fault m] (fault : Fault) where
  Cuts {α : Type} : m α → m α → Prop
  refl {α : Type} (x : m α) : Cuts x x
  bind {α β : Type} {x y : m α} {f g : α → m β} :
    Cuts x y → (∀ a, Cuts (f a) (g a)) → Cuts (x >>= f) (y >>= g)
  throw {α : Type} (y : m α) : Cuts (throw fault) y

/-- The same machine with another bound on the rounds of an iteration. -/
def Machine.withBound (machine : Machine) (bound : Nat) : Machine :=
  { machine with config := { machine.config with maxIterations := bound } }

namespace CutOff

variable {m : Type → Type} [Monad m] [MonadExcept Fault m]

section Sums

variable {fault : Fault} (C : CutOff m fault)

theorem collect {α β : Type} [BEq β] {f g : α → m (Bag β)} (h : ∀ item, C.Cuts (f item) (g item))
    (schedule : Schedule α) : C.Cuts (schedule.collect f) (schedule.collect g) := by
  induction schedule with
  | idle => exact C.refl _
  | visit item => exact h item
  | join left right ihleft ihright =>
    exact C.bind ihleft fun leftSum => C.bind ihright fun rightSum => C.refl _

theorem forEach [MonadSchedule m] {V : Type} [DecidableEq V] {machine machine' : Machine}
    (harrange : ∀ items : List (State V × Nat),
      (arrange machine items : m _) = arrange machine' items)
    {f g : State V → m (Configuration V)} (h : ∀ s, C.Cuts (f s) (g s)) (c : Configuration V) :
    C.Cuts (machine.forEach f c) (machine'.forEach g c) := by
  unfold Machine.forEach
  rw [harrange]
  refine C.bind (C.refl _) fun schedule => C.collect (fun entry => ?_) schedule
  exact C.bind (h entry.1) fun outcome => C.refl _

end Sums

variable {V : Type} [DecidableEq V] [MonadReport (Event V) m] {bound bound' : Nat}
variable (C : CutOff m (.divergence bound)) {machine machine' : Machine}

/-- Loops with cut bodies, the first with less rounds left, `bound` in all. -/
theorem closeFrom (hlimit : machine.config.timeLimit = none)
    (hlimit' : machine'.config.timeLimit = none) {body body' : Configuration V → m (Configuration V)}
    (hbody : ∀ c, C.Cuts (body c) (body' c)) {budget budget' rounds : Nat}
    (hrounds : rounds + budget = bound) (hle : budget ≤ budget') (sum frontier : Configuration V) :
    C.Cuts (machine.closeFrom body budget rounds sum frontier)
      (machine'.closeFrom body' budget' rounds sum frontier) := by
  induction budget generalizing budget' rounds sum frontier with
  | zero =>
    by_cases hstates : frontier.isEmpty
    · rw [machine.closeFrom_of_isEmpty _ _ _ _ hstates, machine'.closeFrom_of_isEmpty _ _ _ _ hstates]
      exact C.refl _
    · rw [machine.closeFrom_zero _ _ _ hlimit hstates]
      obtain rfl : rounds = bound := hrounds
      exact C.throw _
  | succ budget ih =>
    by_cases hstates : frontier.isEmpty
    · rw [machine.closeFrom_of_isEmpty _ _ _ _ hstates, machine'.closeFrom_of_isEmpty _ _ _ _ hstates]
      exact C.refl _
    · obtain ⟨left, rfl⟩ := Nat.exists_eq_add_of_le' (Nat.le_trans (Nat.le_add_left 1 budget) hle)
      rw [machine.closeFrom_succ _ _ _ _ hlimit hstates, machine'.closeFrom_succ _ _ _ _ hlimit' hstates]
      refine C.bind (hbody frontier) fun next => C.bind (C.refl _) fun _ => ?_
      refine C.bind (C.refl _) fun grown => ih ?_ (Nat.le_of_succ_le_succ hle) grown next
      omega

variable [ToString V] [MonadSchedule m]

/-- A run under a smaller bound is a cut of the run under a larger one. -/
theorem exec (hlimit : machine.config.timeLimit = none) (hle : bound ≤ bound')
    (harrange : ∀ items : List (State V × Nat),
      (arrange (machine.withBound bound) items : m _) = arrange (machine.withBound bound') items)
    (reserved : List Var) (program : Program V) (c : Configuration V) :
    C.Cuts ((machine.withBound bound).exec reserved program c)
      ((machine.withBound bound').exec reserved program c) := by
  have hlimits : ∀ n, (machine.withBound n).config.timeLimit = none := fun _ => hlimit
  induction program using Program.enter_induction generalizing reserved c with
  | skip =>
    rw [Machine.exec, Machine.exec]
    exact C.refl _
  | fail =>
    rw [Machine.exec, Machine.exec]
    exact C.refl _
  | seq p q ihp ihq =>
    rw [Machine.exec, Machine.exec]
    exact C.bind (ihp reserved c) fun middle => ihq reserved middle
  | branch p q ihp ihq =>
    rw [Machine.exec, Machine.exec]
    refine C.forEach harrange (fun s => C.bind (C.refl _) fun _ => ?_) c
    refine C.bind (ihp reserved _) fun left => C.bind (ihq reserved _) fun right => C.refl _
  | iterate p ih =>
    rw [Machine.exec, Machine.exec]
    refine C.bind ?_ fun fixpoint => C.refl _
    exact C.closeFrom (hlimits _) (hlimits _) (ih reserved) (Nat.zero_add bound) hle c c
  | push t location =>
    rw [Machine.exec, Machine.exec]
    exact C.forEach harrange (fun s => C.refl _) c
  | pop t location =>
    rw [Machine.exec, Machine.exec]
    exact C.forEach harrange (fun s => C.refl _) c
  | scope x p ih =>
    rw [Machine.exec, Machine.exec]
    refine C.forEach harrange (fun s => C.bind (C.refl _) fun _ => C.bind (C.refl _) fun _ => ?_) c
    exact C.bind (ih _ _ _) fun inner => C.refl _

end CutOff

/-! ## The two instances -/

/-- A result is cut off by the fault, or it is the same. -/
def exceptCutOff (fault : Fault) : CutOff (Except Fault) fault where
  Cuts x y := x = .error fault ∨ x = y
  refl x := .inr rfl
  bind {α β x y f g} h hf := by
    rcases h with rfl | rfl
    · exact .inl rfl
    · cases x with
      | error e => exact .inr rfl
      | ok a => exact hf a
  throw y := .inl rfl

open Scheduled in
/-- Every possible result is cut off by the fault, or it is possible on the other side too. -/
def scheduledCutOff (fault : Fault) : CutOff Scheduled fault where
  Cuts x y := ∀ o ∈ x, o = .error fault ∨ o ∈ y
  refl x o ho := .inr ho
  bind {α β x y f g} h hf o ho := by
    rcases mem_bind.mp ho with ⟨a, ha, ho⟩ | ⟨e, he, rfl⟩
    · have hy : .ok a ∈ y := (h _ ha).resolve_left fun heq => by cases heq
      exact (hf a o ho).imp_right fun hg => mem_bind.mpr (.inl ⟨a, hy, hg⟩)
    · rcases h _ he with heq | hy
      · cases heq
        exact .inl rfl
      · exact .inr (mem_bind.mpr (.inr ⟨e, hy, rfl⟩))
  throw y o ho := .inl (mem_throw.mp ho)

namespace Machine

variable {V : Type} [DecidableEq V] [ToString V]

/-- Under a larger bound a run that succeeds has the same outcome. Under a smaller bound it has the
same outcome or diverges, and the divergence reports the smaller bound. This holds of the machine's
own runs, and up to equality of outcomes of the runs under any schedules. -/
theorem step_withBound (machine : Machine) (hlimit : machine.config.timeLimit = none) (n m : Nat)
    (hle : n ≤ m) (program : Program V) (c : Configuration V) :
    (∀ r, (machine.withBound n).step program c = .ok r →
      (machine.withBound m).step program c = .ok r) ∧
    (∀ r, (machine.withBound m).step program c = .ok r →
      (machine.withBound n).step program c = .ok r ∨
        (machine.withBound n).step program c = .error (.divergence n)) ∧
    ∀ o ∈ (machine.withBound n).possible [] program c,
      ∀ o' ∈ (machine.withBound m).possible [] program c,
        (∀ r, o = .ok r → ∃ r', o' = .ok r' ∧ r' == r) ∧
          ∀ r', o' = .ok r' → (∃ r, o = .ok r ∧ r == r') ∨ o = .error (.divergence n) := by
  have hown : (machine.withBound n).step program c = .error (.divergence n) ∨
      (machine.withBound n).step program c = (machine.withBound m).step program c :=
    (exceptCutOff (.divergence n)).exec hlimit hle (fun _ => rfl) [] program c
  have hall : ∀ o ∈ (machine.withBound n).possible [] program c,
      o = .error (.divergence n) ∨ o ∈ (machine.withBound m).possible [] program c :=
    (scheduledCutOff (.divergence n)).exec hlimit hle (fun _ => rfl) [] program c
  -- Two runs under the larger bound end alike, whatever their schedules.
  have hsettles : ∀ o ∈ (machine.withBound m).possible [] program c,
      ∀ o' ∈ (machine.withBound m).possible [] program c, ∀ r, o = .ok r →
        ∃ r', o' = .ok r' ∧ r' == r := by
    rintro o ho o' ho' r rfl
    have hlimit' : (machine.withBound m).config.timeLimit = none := hlimit
    obtain ⟨r', hr', hcount⟩ := settles_possible rfl hlimit' hlimit' [] program (fun _ => rfl) ho o' ho'
    exact ⟨r', hr', (Bag.beq_iff_count_eq r' r).mpr hcount⟩
  refine ⟨fun r hr => ?_, fun r hr => ?_, fun o ho o' ho' => ⟨fun r hr => ?_, fun r' hr' => ?_⟩⟩
  · rcases hown with hcut | heq
    · cases hcut.symm.trans hr
    · exact heq.symm.trans hr
  · exact hown.symm.imp_left fun heq => heq.trans hr
  · rcases hall o ho with hcut | hmem
    · cases hcut.symm.trans hr
    · exact hsettles o hmem o' ho' r hr
  · exact (hall o ho).symm.imp_left fun hmem => hsettles o' ho' o hmem r' hr'

/-- Pops some values, over and over. -/
def popSome : Program String := .iterate (.seq (.popVar "x" "l") (.iterate (.popVar "x" "l")))

/-- One state with two equal values on its stack. -/
def twoValues : Configuration String :=
  .singleton ⟨⟨.ofList [("l", .ofList [.value "v", .value "v"])]⟩, .empty⟩

/-- Three rounds are enough for both loops, and a fourth changes nothing. With two rounds the run fails
and does not give the states found so far. -/
theorem step_withBound_popSome :
    ∃ r, (withBound {} 3).step popSome twoValues = .ok r ∧ r.total = 4 ∧
      (withBound {} 4).step popSome twoValues = .ok r ∧
      (withBound {} 2).step popSome twoValues = .error (.divergence 2) := by
  have hthree : ((withBound {} 3).step popSome twoValues).toOption.any fun r => r.total == 4 := by
    decide +kernel
  obtain ⟨r, hr, htotal⟩ := exists_ok_of_any hthree
  obtain ⟨hraise, _, _⟩ := step_withBound {} rfl 3 4 (by decide) popSome twoValues
  obtain ⟨_, hlower, _⟩ := step_withBound {} rfl 2 3 (by decide) popSome twoValues
  refine ⟨r, hr, beq_iff_eq.mp htotal, hraise r hr, (hlower r hr).resolve_left fun htwo => ?_⟩
  have hfails : ¬ ((withBound {} 2).step popSome twoValues).isOk := by decide +kernel
  rw [htwo] at hfails
  exact hfails rfl

end Machine

end StackCalculus
