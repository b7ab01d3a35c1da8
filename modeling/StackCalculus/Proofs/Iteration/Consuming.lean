import Mathlib
import StackCalculus.Proofs.Invariant.Footprint
import StackCalculus.Proofs.Iteration.Rounds

/-!
# Loops that consume

The net effect of a program without iterations is the most that it can add to the number of cells in
all stacks together: every state that it takes a state to holds at most that many cells more
(`Machine.always_holdsAtMost`). A body with a negative net effect therefore takes a cell away in every
round, and after one round more than there were cells no state is left. Such a loop does not diverge.
-/

namespace StackCalculus

variable {V : Type}

/-! ## The number of cells -/

/-- Placing an item under a name that is there exchanges one entry. -/
theorem NameMap.exists_place_eq {β : Type} {name : String} {old : β} {entries : List (String × β)}
    (hordered : entries.Pairwise fun a b => a.1 < b.1) (hget : entries.lookup name = some old) :
    ∃ before after, entries = before ++ (name, old) :: after ∧
      ∀ item, place name item entries = before ++ (name, item) :: after := by
  induction entries with
  | nil => cases hget
  | cons head rest ih =>
    obtain ⟨hhead, hrest⟩ := List.pairwise_cons.mp hordered
    by_cases heq : name = head.1
    · subst heq
      rw [List.lookup_cons, beq_self_eq_true] at hget
      cases hget
      refine ⟨[], rest, rfl, fun item => ?_⟩
      rw [place, if_neg (String.lt_irrefl _), if_pos rfl]
      rfl
    · rw [List.lookup_cons, beq_false_of_ne heq] at hget
      obtain ⟨before, after, hentries, hplace⟩ := ih hrest hget
      have hlt : head.1 < name := hhead _ (mem_of_lookup hget)
      refine ⟨head :: before, after, by rw [hentries]; rfl, fun item => ?_⟩
      rw [place, if_neg (String.lt_asymm hlt), if_neg heq, hplace]
      rfl

namespace Memory

theorem cellCount_eq_sum (m : Memory V) :
    m.cellCount = (m.table.entries.map fun entry => entry.2.size).sum := by
  unfold cellCount
  induction m.table.entries with
  | nil => rfl
  | cons entry rest ih => rw [List.foldr_cons, ih, List.map_cons, List.sum_cons]

/-- Exchanging a stack changes the number of cells by the difference of the sizes. -/
theorem cellCount_insert {m : Memory V} {location : String} {old : Stack V}
    (hget : m.table.get? location = some old) (new : Stack V) :
    Memory.cellCount ⟨m.table.insert location new⟩ + old.size = m.cellCount + new.size := by
  obtain ⟨before, after, hentries, hplace⟩ := NameMap.exists_place_eq m.table.ordered hget
  rw [cellCount_eq_sum, cellCount_eq_sum]
  show ((NameMap.place location new m.table.entries).map _).sum + _ = _
  rw [hplace, hentries]
  simp only [List.map_append, List.map_cons, List.sum_append, List.sum_cons]
  omega

theorem cellCount_replaceRefs (m : Memory V) (x : Var) (c : Cell V) :
    (m.replaceRefs x c).cellCount = m.cellCount := by
  rw [cellCount_eq_sum, cellCount_eq_sum]
  show ((m.table.entries.map _).map _).sum = _
  rw [List.map_map]
  rfl

end Memory

namespace State

theorem cellCount_project (s : State V) (x : Var) :
    (s.project x).memory.cellCount = s.memory.cellCount := by
  unfold State.project
  split
  · exact s.memory.cellCount_replaceRefs x _
  · rfl

/-- At most `k` cells in all stacks together. -/
def HoldsAtMost (k : WithBot ℤ) (s : State V) : Prop := ((s.memory.cellCount : ℤ) : WithBot ℤ) ≤ k

theorem HoldsAtMost.add {s u : State V} {k : WithBot ℤ} {d : ℤ} (h : s.HoldsAtMost k)
    (hcells : (u.memory.cellCount : ℤ) = s.memory.cellCount + d) : u.HoldsAtMost (k + d) := by
  unfold HoldsAtMost
  rw [hcells, WithBot.coe_add]
  exact add_le_add_left h _

theorem HoldsAtMost.push {s : State V} {k : WithBot ℤ} (h : s.HoldsAtMost k) (t : Term V)
    (location : String) :
    Meets (fun e => e.isLimit = false) (HoldsAtMost (k + (1 : ℤ))) (s.push t location) := by
  cases hresult : s.push t location with
  | error e => exact .error (isLimit_of_push hresult)
  | ok u =>
    have hpush := s.push_cases t location
    rw [hresult] at hpush
    cases hpush with
    | @pushed c stack _ hstack =>
      have hsize : (stack.push c).size = stack.size + 1 := rfl
      have hcells := Memory.cellCount_insert hstack (stack.push c)
      refine .ok (h.add ?_)
      show ((Memory.cellCount ⟨s.memory.table.insert location (stack.push c)⟩ : Nat) : ℤ) = _
      omega

theorem HoldsAtMost.pop [DecidableEq V] [ToString V] {s : State V} {k : WithBot ℤ}
    (h : s.HoldsAtMost k) (t : Term V) (location : String) :
    Meets (fun e => e.isLimit = false) (HoldsAtMost (k + (-1 : ℤ))) (s.pop t location) := by
  have hpopped : ∀ {top : Cell V} {rest : Stack V} (substitution : Substitution V),
      s.memory.table.get? location = some (rest.push top) →
        HoldsAtMost (k + (-1 : ℤ)) ⟨⟨s.memory.table.insert location rest⟩, substitution⟩ := by
    intro top rest substitution hstack
    have hsize : (rest.push top).size = rest.size + 1 := rfl
    have hcells := Memory.cellCount_insert hstack rest
    refine h.add ?_
    show ((Memory.cellCount ⟨s.memory.table.insert location rest⟩ : Nat) : ℤ) = _
    omega
  cases hresult : s.pop t location with
  | error e => exact .error (isLimit_of_pop hresult)
  | ok u =>
    have hpop := s.pop_cases t location
    rw [hresult] at hpop
    cases hpop with
    | matched hstack => exact .ok (hpopped _ hstack)
    | bound hstack => exact .ok (hpopped _ hstack)

end State

/-! ## Net effects -/

/-- The most that a program without iterations adds to the number of cells; less than any number if it
leaves no state at all. -/
def Program.netEffect : Program V → WithBot ℤ
  | skip => 0
  | fail => ⊥
  | seq p q => p.netEffect + q.netEffect
  | branch p q => max p.netEffect q.netEffect
  | push _ _ => (1 : ℤ)
  | pop _ _ => (-1 : ℤ)
  | scope _ p => p.netEffect
  -- Not a bound: an iteration can add any number of cells.
  | iterate _ => 0

@[simp] theorem Program.netEffect_rename (old new : Var) (p : Program V) :
    (p.rename old new).netEffect = p.netEffect := by
  induction p with
  | skip => rfl
  | fail => rfl
  | seq p q ihp ihq => simp only [rename, netEffect, ihp, ihq]
  | branch p q ihp ihq => simp only [rename, netEffect, ihp, ihq]
  | iterate p ih => rfl
  | push t location => rfl
  | pop t location => rfl
  | scope x p ih =>
    rw [rename]
    split
    · rfl
    · exact ih

namespace Machine

variable [DecidableEq V] [ToString V] (machine : Machine)

/-- A program without iterations adds at most its net effect to the number of cells, and does not
diverge. -/
theorem always_holdsAtMost {program : Program V} (hloop : program.iterates = false)
    (reserved : List Var) {k : WithBot ℤ} {c : Configuration V} (hc : c.Each (State.HoldsAtMost k)) :
    Always (fun e => ∀ rounds, e ≠ .divergence rounds)
      (Bag.Each (State.HoldsAtMost (k + program.netEffect))) (machine.possible reserved program c) := by
  have hover : ∀ rounds, Fault.multiplicityOverflow ≠ .divergence rounds := fun _ => nofun
  have hlimit : ∀ e : Fault, e.isLimit = false → e.isBranchFailure = false →
      ∀ rounds, e ≠ .divergence rounds := by
    rintro e he _ rounds rfl
    cases he
  induction program using Program.enter_induction generalizing reserved k c with
  | skip =>
    rw [possible_skip, Program.netEffect, add_zero]
    exact always_pure hc
  | fail =>
    rw [possible_fail]
    exact always_pure Bag.each_empty
  | seq p q ihp ihq =>
    obtain ⟨hp, hq⟩ := Bool.or_eq_false_iff.mp hloop
    rw [possible_seq, Program.netEffect, ← add_assoc]
    exact (ihp hp reserved hc).bind fun middle hmiddle => ihq hq reserved hmiddle
  | branch p q ihp ihq =>
    obtain ⟨hp, hq⟩ := Bool.or_eq_false_iff.mp hloop
    rw [possible_branch]
    refine machine.always_forEach hover (fun s hs => ?_) hc
    have hleft := ihp hp reserved (Bag.each_singleton hs)
    have hright := ihq hq reserved (Bag.each_singleton hs)
    -- Each side stays below the larger of the two effects.
    refine hleft.bind fun left hleft => hright.bind fun right hright => ?_
    have hleft : left.Each (State.HoldsAtMost (k + (Program.branch p q).netEffect)) := fun u hu =>
      (hleft u hu).trans (add_le_add_right (le_max_left _ _) k)
    have hright : right.Each (State.HoldsAtMost (k + (Program.branch p q).netEffect)) := fun u hu =>
      (hright u hu).trans (add_le_add_right (le_max_right _ _) k)
    exact always_ofExcept ((hleft.union hright).of_overflow hover)
  | iterate p ih => cases hloop
  | push t location =>
    rw [possible_push]
    refine machine.always_forEach hover (fun s hs => ?_) hc
    exact always_ofExcept (meets_settle ((hs.push t location).imp hlimit fun _ hu => hu))
  | pop t location =>
    rw [possible_pop]
    refine machine.always_forEach hover (fun s hs => ?_) hc
    exact always_ofExcept (meets_settle ((hs.pop t location).imp hlimit fun _ hu => hu))
  | scope x p ih =>
    rw [possible_scope]
    refine machine.always_forEach hover (fun s hs => ?_) hc
    have hinner := ih (freshFor x p s reserved) (by rwa [Program.iterates_rename])
      (reserved ++ [freshFor x p s reserved]) (Bag.each_singleton hs)
    rw [Program.netEffect_rename] at hinner
    refine hinner.bind fun inner hinner => always_ofExcept (meets_project hover fun u hu => ?_)
    show (((u.project _).memory.cellCount : ℤ) : WithBot ℤ) ≤ _
    rw [u.cellCount_project]
    exact hinner u hu

/-! ## Rounds -/

variable {body : Program V} {start : Configuration V} {n : Nat}

theorem meets_step_holdsAtMost (hloop : body.iterates = false) {k : WithBot ℤ} {c : Configuration V}
    (hc : c.Each (State.HoldsAtMost k)) :
    Meets (fun e => ∀ rounds, e ≠ .divergence rounds)
      (Bag.Each (State.HoldsAtMost (k + body.netEffect))) (machine.step body c) :=
  machine.always_holdsAtMost hloop [] hc _ (machine.exec_mem_possible [] body c)

variable {machine}

/-- Every round takes at least one cell from each state. -/
theorem holdsAtMost_afterRounds (hloop : body.iterates = false)
    (hnet : body.netEffect ≤ ((-1 : ℤ) : WithBot ℤ))
    (hstart : ∀ s ∈ start.elements, s.memory.cellCount ≤ n) {i : Nat} {c : Configuration V}
    (hc : afterRounds (machine.step body) start i = .ok c) :
    c.Each (State.HoldsAtMost ((n - i : ℤ) : WithBot ℤ)) := by
  induction i generalizing c with
  | zero =>
    cases hc
    intro s hs
    have hcells := hstart s hs
    exact WithBot.coe_le_coe.mpr (by omega)
  | succ i ih =>
    rw [afterRounds, bind_eq_ok_iff] at hc
    obtain ⟨frontier, hfrontier, hround⟩ := hc
    have hstep := machine.meets_step_holdsAtMost hloop (ih hfrontier)
    rw [hround] at hstep
    intro s hs
    refine (hstep.of_ok s hs).trans ((add_le_add_right hnet _).trans ?_)
    rw [← WithBot.coe_add]
    exact WithBot.coe_le_coe.mpr (by omega)

/-- No state holds fewer than no cells, so one round more than there were cells leaves no state. -/
theorem isEmpty_afterRounds (hloop : body.iterates = false)
    (hnet : body.netEffect ≤ ((-1 : ℤ) : WithBot ℤ))
    (hstart : ∀ s ∈ start.elements, s.memory.cellCount ≤ n) {c : Configuration V}
    (hc : afterRounds (machine.step body) start (n + 1) = .ok c) : c.isEmpty := by
  have heach := holdsAtMost_afterRounds hloop hnet hstart hc
  cases hentries : c.entries with
  | nil => rw [Bag.isEmpty, hentries, List.isEmpty_nil]
  | cons entry rest =>
    have hentry : entry ∈ c.entries := by
      rw [hentries]
      exact List.mem_cons_self
    have hcells := WithBot.coe_le_coe.mp (heach.of_mem_entries hentry)
    omega

/-- A loop whose body has a negative net effect does not diverge when it has one round more than its
states have cells, and it then ends within these rounds. -/
theorem fixpoint_of_netEffect_neg (machine : Machine) (hlimit : machine.config.timeLimit = none)
    {body : Program V} (hloop : body.iterates = false)
    (hnet : body.netEffect ≤ ((-1 : ℤ) : WithBot ℤ)) {n : Nat} {start : Configuration V}
    (hstart : ∀ s ∈ start.elements, s.memory.cellCount ≤ n)
    (hbound : n + 1 ≤ machine.config.maxIterations) :
    (∀ rounds, machine.fixpoint body start ≠ .error (.divergence rounds)) ∧
      ∀ fixpoint, machine.fixpoint body start = .ok fixpoint → fixpoint.rounds ≤ n + 1 := by
  have hforget : (machine.fixpointSourced body start).forget = machine.fixpoint body start :=
    machine.forget_closeFrom (machine.step body) ..
  have hending : Ending (machine.step body) start machine.config.maxIterations
      (machine.fixpointSourced body start) := machine.ending_close (machine.step body) hlimit start
  rw [← hforget]
  generalize machine.fixpointSourced body start = result at hending
  cases hending with
  | exhausted h hle hempty =>
    refine ⟨fun rounds => nofun, fun fixpoint hfixpoint => ?_⟩
    cases hfixpoint
    by_contra hlate
    obtain ⟨c, hc, hstates⟩ := h.ok (n + 1) (Nat.lt_of_not_le hlate)
    exact hstates (isEmpty_afterRounds hloop hnet hstart hc)
  | diverged h hstates =>
    obtain ⟨c, hc, hstates⟩ := h.ok_of_not_isEmpty hstates hbound
    exact absurd (isEmpty_afterRounds hloop hnet hstart hc) hstates
  | overflow => exact ⟨fun rounds => nofun, fun fixpoint => nofun⟩
  | @fault rounds sum frontier e h hlt hstates hfault =>
    refine ⟨fun rounds hrounds => ?_, fun fixpoint => nofun⟩
    have hstep := machine.meets_step_holdsAtMost hloop
      (holdsAtMost_afterRounds hloop hnet hstart h.frontier)
    rw [hfault] at hstep
    cases hrounds
    exact hstep.of_error rounds rfl

end Machine

/-- Takes a value from one of two stacks: in the first case it moves a second one on to the other
stack, by way of a local variable. -/
def takeOne : Program String :=
  .branch
    (.seq (.popVar "x" "k")
      (.scope ⟨"a", false⟩ (.seq (.popVar "a" "k") (.pushVar "a" "l"))))
    (.popVar "y" "l")

/-- Two values at `k` and one at `l`. -/
def threeValues : State String :=
  ⟨⟨.ofList [("k", .ofList [.value "v", .value "w"]), ("l", .ofList [.value "v"])]⟩, .empty⟩

/-- Three cells take four rounds, and the loop needs all of them. -/
theorem Machine.fixpoint_takeOne :
    takeOne.iterates = false ∧ takeOne.netEffect = ((-1 : ℤ) : WithBot ℤ) ∧
      (∀ rounds, fixpoint { config := { maxIterations := 4 } } takeOne (.singleton threeValues) ≠
        .error (.divergence rounds)) ∧
      ∃ result, fixpoint { config := { maxIterations := 4 } } takeOne (.singleton threeValues) =
        .ok result ∧ result.rounds = 4 ∧ result.rounds ≤ 4 := by
  have hnet : takeOne.netEffect = ((-1 : ℤ) : WithBot ℤ) := by decide
  have hcells : ∀ s ∈ (Bag.singleton threeValues).elements, s.memory.cellCount ≤ 3 := by decide
  obtain ⟨hdivergence, hrounds⟩ := fixpoint_of_netEffect_neg
    { config := { maxIterations := 4 } } rfl (by decide) (le_of_eq hnet) hcells (Nat.le_refl 4)
  have hresult : (fixpoint { config := { maxIterations := 4 } } takeOne
      (.singleton threeValues)).toOption.any fun result => result.rounds == 4 := by decide +kernel
  obtain ⟨result, hresult, hfour⟩ := exists_ok_of_any hresult
  exact ⟨by decide, hnet, hdivergence, result, hresult, beq_iff_eq.mp hfour, hrounds result hresult⟩

end StackCalculus
