import StackCalculus.Var

/-!
# Cells

What a stack position or a binding holds: a concrete value, or a reference to a variable that may
still be unbound. Two references are equal when they name the same variable.
-/

namespace StackCalculus

/-- The content of a stack position or of a binding. -/
inductive Cell (V : Type) where
  | value (v : V)
  | ref (x : Var)

namespace Cell

variable {V : Type}

/-- The concrete value of a cell. -/
def asValue? : Cell V → Option V
  | value v => some v
  | ref _ => none

/-- The variable a cell refers to. -/
def asVar? : Cell V → Option Var
  | value _ => none
  | ref x => some x

/-- Whether a cell is a reference. -/
def isRef : Cell V → Bool
  | value _ => false
  | ref _ => true

/-- Whether a cell refers to the variable `x`. -/
def refersTo (x : Var) : Cell V → Bool
  | value _ => false
  | ref y => y == x

/-- Puts `replacement` in place of a reference to `x`. -/
def replaceRef (x : Var) (replacement : Cell V) : Cell V → Cell V
  | value v => value v
  | ref y => if y == x then replacement else ref y

theorem replaceRef_of_refersTo_eq_false {x : Var} {c : Cell V} (h : c.refersTo x = false)
    (replacement : Cell V) : replaceRef x replacement c = c := by
  cases c with
  | value v => rfl
  | ref y => exact if_neg (Bool.eq_false_iff.mp h)

/-- Equality of cells, with references compared by name. -/
def same [DecidableEq V] : Cell V → Cell V → Bool
  | value v, value w => v == w
  | ref x, ref y => x == y
  | _, _ => false

instance [DecidableEq V] : BEq (Cell V) := ⟨same⟩

instance [ToString V] : ToString (Cell V) where
  toString
    | value v => toString v
    | ref x => toString x

section Equality

variable [DecidableEq V]

@[simp] theorem value_beq_value (v w : V) : ((value v : Cell V) == value w) = (v == w) := rfl

@[simp] theorem ref_beq_ref (x y : Var) : ((ref x : Cell V) == ref y) = (x == y) := rfl

@[simp] theorem value_beq_ref (v : V) (x : Var) : (value v == ref x) = false := rfl

@[simp] theorem ref_beq_value (v : V) (x : Var) : (ref x == value v) = false := rfl

instance : EquivBEq (Cell V) where
  rfl {a} := by cases a <;> simp
  symm {a b} h := by cases a <;> cases b <;> simp_all [BEq.comm]
  trans {a b c} h h' := by
    cases a <;> cases b <;> cases c <;> simp_all
    exact BEq.trans h h'

end Equality

end Cell

end StackCalculus
