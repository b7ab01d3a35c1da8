import Mathlib
import StackCalculus.Proofs.Invariant.Acyclic
import StackCalculus.Proofs.Invariant.Footprint

/-!
# Well-formed programs do not go wrong

A failed match or a pop from an empty stack ends a branch and never the whole step. A well-formed
program on states without cycles, which have all its locations, has no other faults than these: its
terms always have a cell. What can end the step is then a multiplicity that is too large, or an
iteration without a fixpoint (`Machine.step_wellFormed`).
-/

namespace StackCalculus

variable {V : Type}

/-! ## Terms that always have a cell -/

namespace Term

mutual

/-- Whether every function node of a term has as many arguments as its arity says. -/
def isSaturated : Term V → Bool
  | var _ => true
  | func _ arity args _ => args.length == arity && areSaturated args

/-- Whether all the terms are saturated. -/
def areSaturated : List (Term V) → Bool
  | [] => true
  | t :: ts => t.isSaturated && areSaturated ts

end

theorem areSaturated_eq_all (ts : List (Term V)) : areSaturated ts = ts.all isSaturated := by
  induction ts with
  | nil => rfl
  | cons t ts ih => rw [areSaturated, List.all_cons, ih]

theorem rename_of_isConstant {t : Term V} (h : t.isConstant) (old new : Var) :
    t.rename old new = t := by
  induction t using Term.ind with
  | var x => cases h
  | func label arity args rule ih =>
    rw [isConstant, areConstant_eq_all, List.all_eq_true] at h
    have hargs : args.map (rename old new) = args := by
      refine (List.map_congr_left fun t ht => ih t ht (h t ht)).trans (List.map_id _)
    rw [rename, renameAll_eq_map, hargs]

theorem exists_evaluateArgs_eq_ok {s : Substitution V} {args : List (Term V)}
    (h : ∀ t ∈ args, ∃ v, t.evaluateUnder s = .ok (.value v)) (node : Term V) :
    ∃ values, evaluateArgs s node args = .ok values := by
  induction args with
  | nil => exact ⟨[], rfl⟩
  | cons t ts ih =>
    obtain ⟨⟨v, hv⟩, htail⟩ := List.forall_mem_cons.mp h
    obtain ⟨values, hvalues⟩ := ih htail
    refine ⟨v :: values, ?_⟩
    rw [evaluateArgs, hv]
    show (evaluateArgs s node ts >>= _) = _
    rw [hvalues]
    rfl

theorem exists_evaluateUnder_eq_value {t : Term V} (hconstant : t.isConstant)
    (hsaturated : t.isSaturated) (s : Substitution V) : ∃ v, t.evaluateUnder s = .ok (.value v) := by
  induction t using Term.ind with
  | var x => cases hconstant
  | func label arity args rule ih =>
    rw [isConstant, areConstant_eq_all, List.all_eq_true] at hconstant
    rw [isSaturated, areSaturated_eq_all, Bool.and_eq_true, List.all_eq_true, beq_iff_eq] at hsaturated
    obtain ⟨hlength, hsaturated⟩ := hsaturated
    have hargs : ∀ t ∈ args, ∃ v, t.evaluateUnder s = .ok (.value v) :=
      fun t ht => ih t ht (hconstant t ht) (hsaturated t ht)
    obtain ⟨values, hvalues⟩ := exists_evaluateArgs_eq_ok hargs (.func label arity args rule)
    refine ⟨rule values, ?_⟩
    rw [evaluateUnder, if_pos hlength, hvalues]
    rfl

/-- A variable, or a saturated function term without variables. -/
def WellFormed (t : Term V) : Prop := t.isSaturated ∧ (t.isVar ∨ t.isConstant)

theorem WellFormed.rename {t : Term V} (h : t.WellFormed) (old new : Var) :
    (t.rename old new).WellFormed := by
  obtain ⟨hsaturated, hvar | hconstant⟩ := h
  · cases t with
    | var x =>
      rw [Term.rename]
      split <;> exact ⟨rfl, .inl rfl⟩
    | func => cases hvar
  · rw [rename_of_isConstant hconstant]
    exact ⟨hsaturated, .inr hconstant⟩

theorem WellFormed.evaluateUnder_ne_error {t : Term V} (h : t.WellFormed) {s : Substitution V}
    (hs : s.Acyclic) (e : Fault) : t.evaluateUnder s ≠ .error e := by
  obtain ⟨hsaturated, hvar | hconstant⟩ := h
  · cases t with
    | var x => exact hs.resolve_ne_error x e
    | func => cases hvar
  · obtain ⟨v, hv⟩ := exists_evaluateUnder_eq_value hconstant hsaturated s
    rw [hv]
    nofun

end Term

/-! ## Steps of well-formed programs -/

/-- The states on which programs with locations in `used` do not go wrong. -/
structure State.Safe (used : List String) (s : State V) : Prop where
  acyclic : s.substitution.Acyclic
  locations : ∀ location ∈ used, location ∈ s.memory.locations

namespace State.Safe

variable {used : List String} {s : State V}

theorem get?_ne_none (h : s.Safe used) {location : String} (hlocation : location ∈ used) :
    s.memory.table.get? location ≠ none := by
  obtain ⟨stack, hstack⟩ := NameMap.mem_names_iff.mp (h.locations location hlocation)
  rw [hstack]
  nofun

theorem insert (h : s.Safe used) {location : String} {old : Stack V}
    (hget : s.memory.table.get? location = some old) (new : Stack V) {σ : Substitution V}
    (hσ : σ.Acyclic) : State.Safe used ⟨⟨s.memory.table.insert location new⟩, σ⟩ := by
  refine ⟨hσ, ?_⟩
  show ∀ other ∈ used, other ∈ Memory.locations ⟨s.memory.table.insert location new⟩
  rw [Memory.locations_insert hget]
  exact h.locations

theorem project (h : s.Safe used) (x : Var) : (s.project x).Safe used := by
  refine ⟨h.acyclic.projectOut x, ?_⟩
  unfold State.project
  split
  · rw [Memory.locations_replaceRefs]
    exact h.locations
  · exact h.locations

end State.Safe

section Invariants

variable [DecidableEq V] [ToString V]

/-- A failed branch is no fault of the step. -/
theorem invariant_not_branchFailure :
    Invariant (fun _ : State V => True) (fun _ => True) fun e => e.isBranchFailure = false := by
  have hmeets : ∀ result : Except Fault (State V),
      Meets (fun e => e.isBranchFailure = false → e.isBranchFailure = false) (fun _ => True)
        result := by
    intro result
    cases result with
    | ok s => exact .ok trivial
    | error e => exact .error id
  exact {
    overflow := rfl
    seq := fun _ => ⟨trivial, trivial⟩
    branch := fun _ => ⟨trivial, trivial⟩
    iterate := fun _ => ⟨trivial, fun _ => rfl⟩
    push := fun _ _ => hmeets _
    pop := fun _ _ => hmeets _
    enter := fun _ _ _ => trivial
    leave := fun _ _ _ _ => trivial }

/-- Well-formed pushes and pops at locations in `used` succeed or fail their branch. -/
theorem invariant_safe (used : List String) {F : Fault → Prop} (overflow : F .multiplicityOverflow) :
    Invariant (fun s : State V => s.Safe used)
      (Program.Within (fun t location => t.WellFormed ∧ location ∈ used) F) F := by
  apply Invariant.of_accesses overflow
  case rename => exact fun t location x y h => ⟨h.1.rename x y, h.2⟩
  case leave => exact fun x s u _ _ hu => hu.project x
  case push =>
    intro t location s ⟨ht, hlocation⟩ hs
    have hpush := s.push_cases t location
    generalize s.push t location = outcome at hpush
    cases hpush with
    | pushed _ hstack => exact .ok (hs.insert hstack _ hs.acyclic)
    | term h => exact absurd h (ht.evaluateUnder_ne_error hs.acyclic _)
    | unknown h => exact absurd h (hs.get?_ne_none hlocation)
  case pop =>
    intro t location s ⟨ht, hlocation⟩ hs
    have hpop := s.pop_cases t location
    generalize s.pop t location = outcome at hpop
    cases hpop with
    | matched hstack => exact .ok (hs.insert hstack _ hs.acyclic)
    | bound hstack htop _ hx hcx =>
      exact .ok (hs.insert hstack _ (hs.acyclic.set hx htop.self hcx))
    | failed h => exact .error fun hfatal => absurd h (Bool.eq_false_iff.mp hfatal)
    | unknown h => exact absurd h (hs.get?_ne_none hlocation)
    | chain h => exact absurd h (hs.acyclic.resolve_ne_error _ _)
    | term h => exact absurd h (ht.evaluateUnder_ne_error hs.acyclic _)

end Invariants

namespace Machine

/-- A failed branch never ends a step. If the states have the locations of the program and no cycles,
every function node of the program has its arguments and no function term has variables in it, then a
step can only end in a multiplicity that is too large or, with iterations, in divergence. -/
theorem step_wellFormed [DecidableEq V] [ToString V] (machine : Machine) (program : Program V)
    (c : Configuration V) :
    (∀ e, machine.step program c = .error e → e.isBranchFailure = false) ∧
      ((∀ s ∈ c.elements, ∀ location ∈ program.locations, location ∈ s.memory.locations) →
        (∀ t ∈ program.terms, t.isSaturated) → (∀ t ∈ program.terms, t.isVar ∨ t.isConstant) →
        (∀ s ∈ c.elements, s.substitution.Acyclic) →
        ∀ e, machine.step program c = .error e →
          e = .multiplicityOverflow ∨ program.iterates ∧ ∃ rounds, e = .divergence rounds) := by
  refine ⟨fun e hstep => ?_, fun hlocations hsaturated hconstant hacyclic e hstep => ?_⟩
  · exact invariant_not_branchFailure.fault_of_step trivial (fun _ _ => trivial) hstep
  · have hsafe : Invariant (fun s : State V => s.Safe program.locations) _ fun e =>
        e = .multiplicityOverflow ∨ program.iterates ∧ ∃ rounds, e = .divergence rounds :=
      invariant_safe program.locations (.inl rfl)
    refine hsafe.fault_of_step ?_ ?_ hstep
    · refine ⟨fun access h => ?_, fun hiterates rounds => .inr ⟨hiterates, rounds, rfl⟩⟩
      have hterm : access.1 ∈ program.terms := List.mem_map_of_mem h
      exact ⟨⟨hsaturated _ hterm, hconstant _ hterm⟩, List.mem_map_of_mem h⟩
    · exact fun s hs => ⟨hacyclic s hs, hlocations s hs⟩

/-- Pushes the value of a function term, as often as one likes, and drops it again into a local. -/
def pushAndDrop : Program String :=
  .seq (.iterate (.push (.apply "f" [.constant "v"] String.join) "l"))
    (.scope ⟨"x", false⟩ (.popVar "x" "l"))

/-- A well-formed program that diverges. -/
theorem step_wellFormed_pushAndDrop :
    (∀ t ∈ pushAndDrop.terms, t.isSaturated) ∧
      (∀ t ∈ pushAndDrop.terms, t.isVar ∨ t.isConstant) ∧
    ∃ e, step { config := { maxIterations := 2 } } pushAndDrop (.singleton (.ofAlphabet ["l"])) =
        .error e ∧ e.isBranchFailure = false ∧
      (e = .multiplicityOverflow ∨ pushAndDrop.iterates ∧ ∃ rounds, e = .divergence rounds) := by
  let machine : Machine := { config := { maxIterations := 2 } }
  let start : Configuration String := .singleton (.ofAlphabet ["l"])
  have hfails : (step machine pushAndDrop start).isOk = false := by decide +kernel
  obtain ⟨e, hstep⟩ : ∃ e, step machine pushAndDrop start = .error e := by
    cases hstep : step machine pushAndDrop start with
    | ok r =>
      rw [hstep] at hfails
      cases hfails
    | error e => exact ⟨e, rfl⟩
  have hlocations : ∀ s ∈ start.elements, ∀ location ∈ pushAndDrop.locations,
      location ∈ s.memory.locations := by decide +kernel
  have hsaturated : ∀ t ∈ pushAndDrop.terms, t.isSaturated := by decide
  have hconstant : ∀ t ∈ pushAndDrop.terms, t.isVar ∨ t.isConstant := by decide
  have hacyclic : ∀ s ∈ start.elements, s.substitution.Acyclic := by decide +kernel
  obtain ⟨hbranch, honly⟩ := step_wellFormed machine pushAndDrop start
  exact ⟨hsaturated, hconstant, e, hstep, hbranch e hstep,
    honly hlocations hsaturated hconstant hacyclic e hstep⟩

end Machine

end StackCalculus
