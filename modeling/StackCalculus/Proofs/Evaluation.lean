import Mathlib
import StackCalculus.Proofs.Invariant.WellFormed

/-!
# The two evaluators

Terms are evaluated alone, or under a substitution. Under a substitution a term has the value that it
has alone once its variables are replaced by what they resolve to (`evaluateUnder_eq_value_iff`): a
variable that resolves to no value stays in the term, and either evaluator stops at it. Alone, a term has
a value exactly if it is constant and every node has its arguments (`exists_evaluate_eq_ok_iff`). On
constant terms the two evaluators agree in their faults too, because both look at the arity of a node
first and then at its arguments from left to right (`evaluateUnder_of_isConstant`).
-/

namespace StackCalculus.Term

variable {V : Type}

mutual

/-- The term with each variable that resolves to a value replaced by the constant of that value. -/
def instantiate [ToString V] (s : Substitution V) : Term V → Term V
  | var x =>
    match s.resolve x with
    | .ok (.value v) => constant v
    | _ => var x
  | func label arity args rule => func label arity (instantiateAll s args) rule

/-- Instantiates each of the terms. -/
def instantiateAll [ToString V] (s : Substitution V) : List (Term V) → List (Term V)
  | [] => []
  | t :: ts => t.instantiate s :: instantiateAll s ts

end

theorem length_instantiateAll [ToString V] (s : Substitution V) (ts : List (Term V)) :
    (instantiateAll s ts).length = ts.length := by
  induction ts with
  | nil => rfl
  | cons t ts ih => rw [instantiateAll, List.length_cons, List.length_cons, ih]

/-! ## When an evaluator succeeds -/

section Success

variable {s : Substitution V} {node t : Term V} {ts args : List (Term V)} {values : List V} {w : V}
  {label : String} {arity : Nat} {rule : List V → V}

theorem evaluate_func_eq_ok_iff : (func label arity args rule).evaluate = .ok w ↔
    args.length = arity ∧ ∃ values, evaluateAll args = .ok values ∧ rule values = w := by
  rw [evaluate]
  split
  · rename_i hlength
    rw [bind_pure_eq_ok_iff, and_iff_right hlength]
  · rename_i hlength
    exact iff_of_false (fun h => by cases h) fun h => hlength h.1

theorem evaluateUnder_func_eq_value_iff :
    (func label arity args rule).evaluateUnder s = .ok (.value w) ↔ args.length = arity ∧
      ∃ values, evaluateArgs s (func label arity args rule) args = .ok values ∧ rule values = w := by
  rw [evaluateUnder]
  split
  · rename_i hlength
    rw [bind_pure_eq_ok_iff, and_iff_right hlength]
    simp only [Cell.value.injEq]
  · rename_i hlength
    exact iff_of_false (fun h => by cases h) fun h => hlength h.1

theorem evaluateAll_cons_eq_ok_iff : evaluateAll (t :: ts) = .ok values ↔
    ∃ v rest, t.evaluate = .ok v ∧ evaluateAll ts = .ok rest ∧ values = v :: rest := by
  rw [evaluateAll, bind_eq_ok_iff]
  constructor
  · rintro ⟨v, hv, h⟩
    obtain ⟨rest, hrest, h⟩ := bind_eq_ok_iff.mp h
    cases h
    exact ⟨v, rest, hv, hrest, rfl⟩
  · rintro ⟨v, rest, hv, hrest, rfl⟩
    exact ⟨v, hv, bind_eq_ok_iff.mpr ⟨rest, hrest, rfl⟩⟩

theorem evaluateArgs_cons_eq_ok_iff : evaluateArgs s node (t :: ts) = .ok values ↔
    ∃ v rest, t.evaluateUnder s = .ok (.value v) ∧ evaluateArgs s node ts = .ok rest ∧
      values = v :: rest := by
  rw [evaluateArgs, bind_eq_ok_iff]
  constructor
  · rintro ⟨c, hc, h⟩
    cases c with
    | ref y => cases h
    | value v =>
      obtain ⟨rest, hrest, h⟩ := bind_eq_ok_iff.mp h
      cases h
      exact ⟨v, rest, hc, hrest, rfl⟩
  · rintro ⟨v, rest, hv, hrest, rfl⟩
    exact ⟨.value v, hv, bind_eq_ok_iff.mpr ⟨rest, hrest, rfl⟩⟩

theorem exists_evaluate_of_evaluateAll (h : evaluateAll ts = .ok values) :
    ∀ t ∈ ts, ∃ v, t.evaluate = .ok v := by
  induction ts generalizing values with
  | nil => exact fun t ht => absurd ht List.not_mem_nil
  | cons t ts ih =>
    obtain ⟨v, rest, hv, hrest, _⟩ := evaluateAll_cons_eq_ok_iff.mp h
    exact List.forall_mem_cons.mpr ⟨⟨v, hv⟩, ih hrest⟩

end Success

/-! ## Instances -/

theorem evaluateArgs_eq_ok_iff_instantiateAll [ToString V] {s : Substitution V} {ts : List (Term V)}
    (h : ∀ t ∈ ts, ∀ w, t.evaluateUnder s = .ok (.value w) ↔ (t.instantiate s).evaluate = .ok w)
    (node : Term V) (values : List V) :
    evaluateArgs s node ts = .ok values ↔ evaluateAll (instantiateAll s ts) = .ok values := by
  induction ts generalizing values with
  | nil => exact Iff.rfl
  | cons t ts ih =>
    obtain ⟨hhead, htail⟩ := List.forall_mem_cons.mp h
    rw [instantiateAll, evaluateArgs_cons_eq_ok_iff, evaluateAll_cons_eq_ok_iff]
    simp only [hhead, ih htail]

/-- The value of a term under a substitution is the value of its instance. -/
theorem evaluateUnder_eq_value_iff [ToString V] (s : Substitution V) (t : Term V) (w : V) :
    t.evaluateUnder s = .ok (.value w) ↔ (t.instantiate s).evaluate = .ok w := by
  induction t using Term.ind generalizing w with
  | var x =>
    rw [evaluateUnder, instantiate]
    -- A variable that resolves to no value stays, and then neither side has a value.
    cases s.resolve x with
    | error e => exact iff_of_false (fun h => by cases h) fun h => by cases h
    | ok c =>
      cases c with
      | ref y => exact iff_of_false (fun h => by cases h) fun h => by cases h
      | value v =>
        show Except.ok (Cell.value v) = .ok (.value w) ↔ Except.ok v = .ok w
        rw [Except.ok.injEq, Except.ok.injEq, Cell.value.injEq]
  | func label arity args rule ih =>
    rw [instantiate, evaluateUnder_func_eq_value_iff, evaluate_func_eq_ok_iff, length_instantiateAll]
    simp only [evaluateArgs_eq_ok_iff_instantiateAll ih]

/-! ## Constant terms -/

theorem evaluateArgs_eq_evaluateAll {s : Substitution V} {ts : List (Term V)}
    (h : ∀ t ∈ ts, t.evaluateUnder s = t.evaluate.map .value) (node : Term V) :
    evaluateArgs s node ts = evaluateAll ts := by
  induction ts with
  | nil => rfl
  | cons t ts ih =>
    obtain ⟨hhead, htail⟩ := List.forall_mem_cons.mp h
    rw [evaluateArgs, evaluateAll, hhead]
    -- The first argument with a fault decides on both sides.
    cases t.evaluate with
    | error e => rfl
    | ok v =>
      show (evaluateArgs s node ts >>= _) = (evaluateAll ts >>= _)
      rw [ih htail]

/-- A substitution makes no difference to a constant term. -/
theorem evaluateUnder_of_isConstant {t : Term V} (h : t.isConstant) (s : Substitution V) :
    t.evaluateUnder s = t.evaluate.map .value := by
  induction t using Term.ind with
  | var x => cases h
  | func label arity args rule ih =>
    rw [isConstant, areConstant_eq_all, List.all_eq_true] at h
    have hargs : ∀ t ∈ args, t.evaluateUnder s = t.evaluate.map .value := fun t ht => ih t ht (h t ht)
    rw [evaluateUnder, evaluate]
    split
    · rw [evaluateArgs_eq_evaluateAll hargs]
      cases evaluateAll args <;> rfl
    · rfl

theorem isConstant_and_isSaturated_of_evaluate {t : Term V} {w : V} (h : t.evaluate = .ok w) :
    t.isConstant ∧ t.isSaturated := by
  induction t using Term.ind generalizing w with
  | var x => cases h
  | func label arity args rule ih =>
    obtain ⟨hlength, values, hvalues, _⟩ := evaluate_func_eq_ok_iff.mp h
    have hargs : ∀ t ∈ args, t.isConstant ∧ t.isSaturated := fun t ht =>
      (exists_evaluate_of_evaluateAll hvalues t ht).elim fun _ hv => ih t ht hv
    rw [isConstant, areConstant_eq_all, List.all_eq_true, isSaturated, areSaturated_eq_all,
      Bool.and_eq_true, List.all_eq_true, beq_iff_eq]
    exact ⟨fun t ht => (hargs t ht).1, hlength, fun t ht => (hargs t ht).2⟩

/-- A term has a value by itself exactly if it has no variables and no node lacks an argument. -/
theorem exists_evaluate_eq_ok_iff (t : Term V) :
    (∃ w, t.evaluate = .ok w) ↔ t.isConstant ∧ t.isSaturated := by
  refine ⟨fun ⟨w, hw⟩ => isConstant_and_isSaturated_of_evaluate hw, fun ⟨hconstant, hsaturated⟩ => ?_⟩
  -- Any substitution will do.
  obtain ⟨v, hv⟩ := exists_evaluateUnder_eq_value hconstant hsaturated .empty
  rw [evaluateUnder_of_isConstant hconstant] at hv
  cases hevaluate : t.evaluate with
  | ok w => exact ⟨w, rfl⟩
  | error e =>
    rw [hevaluate] at hv
    cases hv

/-- The two evaluators agree. A term has a value under a substitution exactly if its instance has that
value by itself; it has a value by itself exactly if it is constant and saturated; and on a constant term
the evaluators give the same, faults included. -/
theorem evaluators_agree [ToString V] (t : Term V) :
    (∀ s w, t.evaluateUnder s = .ok (.value w) ↔ (t.instantiate s).evaluate = .ok w) ∧
      ((∃ w, t.evaluate = .ok w) ↔ t.isConstant ∧ t.isSaturated) ∧
      (t.isConstant → ∀ s, t.evaluateUnder s = t.evaluate.map .value) :=
  ⟨fun s w => evaluateUnder_eq_value_iff s t w, exists_evaluate_eq_ok_iff t,
    evaluateUnder_of_isConstant⟩

/-- A node with a constant, a node that lacks an argument, and one that has too many. -/
def twoFaults : Term String :=
  apply "f" [constant "a", func "g" 1 [] String.join, func "h" 0 [constant "b"] String.join] String.join

/-- Of two faults the evaluators report the same. -/
theorem evaluators_agree_twoFaults :
    twoFaults.isConstant ∧ twoFaults.evaluate = .error (.arityMismatch "g" 1 0) ∧
      ∀ s, twoFaults.evaluateUnder s = .error (.arityMismatch "g" 1 0) := by
  have hconstant : twoFaults.isConstant := by decide
  have hfault : twoFaults.evaluate = .error (.arityMismatch "g" 1 0) := rfl
  obtain ⟨_, _, hsame⟩ := evaluators_agree twoFaults
  refine ⟨hconstant, hfault, fun s => ?_⟩
  rw [hsame hconstant s, hfault]
  rfl

end StackCalculus.Term
