import StackCalculus.Var

/-!
# Terms

A term is a variable or a function node: a label, a declared arity, arguments and the rule that
computes the node's value from the values of its arguments. The declared arity may disagree with the
number of arguments; evaluation reports that. Rules cannot be compared, so equality of terms looks
at labels, arities and arguments only.
-/

namespace StackCalculus

/-- A variable, or a function node with the rule that computes its value. -/
inductive Term (V : Type) where
  | var (x : Var)
  | func (label : String) (arity : Nat) (args : List (Term V)) (rule : List V → V)

namespace Term

variable {V : Type}

/-- Induction on terms, where the arguments of a node satisfy the statement one by one. -/
theorem ind {motive : Term V → Prop} (var : ∀ x, motive (.var x))
    (func : ∀ label arity args rule, (∀ t ∈ args, motive t) → motive (.func label arity args rule))
    (t : Term V) : motive t := by
  refine Term.rec (motive_2 := fun ts => ∀ t ∈ ts, motive t) var func
    (fun _ h => absurd h List.not_mem_nil) (fun head tail hhead htail t ht => ?_) t
  rcases List.mem_cons.mp ht with rfl | ht
  · exact hhead
  · exact htail t ht

/-- A function node whose arity is the number of its arguments. -/
def apply (label : String) (args : List (Term V)) (rule : List V → V) : Term V :=
  func label args.length args rule

/-- The node without arguments that stands for a value and is labelled by it. -/
def constant [ToString V] (v : V) : Term V := apply (toString v) [] fun _ => v

/-- The variable that a term consists of. -/
def asVar? : Term V → Option Var
  | var x => some x
  | func .. => none

/-- Whether a term is a variable. -/
def isVar (t : Term V) : Bool := t.asVar?.isSome

mutual

/-- Whether no variable occurs in a term. -/
def isConstant : Term V → Bool
  | var _ => false
  | func _ _ args _ => areConstant args

/-- Whether no variable occurs in any of the terms. -/
def areConstant : List (Term V) → Bool
  | [] => true
  | t :: ts => t.isConstant && areConstant ts

end

mutual

/-- The variables of a term. -/
def freeVars : Term V → VarSet
  | var x => .singleton x
  | func _ _ args _ => freeVarsOfAll args

/-- The variables of all the terms, those of earlier terms first. -/
def freeVarsOfAll : List (Term V) → VarSet
  | [] => .empty
  | t :: ts => t.freeVars.union (freeVarsOfAll ts)

end

mutual

/-- Puts the variable `new` in place of every occurrence of `old`. -/
def rename (old new : Var) : Term V → Term V
  | var x => if x == old then var new else var x
  | func label arity args rule => func label arity (renameAll old new args) rule

/-- Renames in each of the terms. -/
def renameAll (old new : Var) : List (Term V) → List (Term V)
  | [] => []
  | t :: ts => t.rename old new :: renameAll old new ts

end

mutual

/-- Equality of terms by variable names, labels, arities and arguments. -/
def same : Term V → Term V → Bool
  | var x, var y => x == y
  | func f m ss _, func g n ts _ => f == g && m == n && sameAll ss ts
  | _, _ => false

/-- Equality of lists of terms, position by position. -/
def sameAll : List (Term V) → List (Term V) → Bool
  | [], [] => true
  | s :: ss, t :: ts => s.same t && sameAll ss ts
  | _, _ => false

end

instance : BEq (Term V) := ⟨same⟩

mutual

/-- The text of a term: a bare name or label, or `label(argument, argument)`. -/
def render : Term V → String
  | var x => x.name
  | func label _ [] _ => label
  | func label _ (t :: ts) _ => label ++ "(" ++ t.render ++ renderRest ts ++ ")"

/-- The texts of the arguments after the first, each behind a comma. -/
def renderRest : List (Term V) → String
  | [] => ""
  | t :: ts => ", " ++ t.render ++ renderRest ts

end

instance : ToString (Term V) := ⟨render⟩

/-! ## Laws of the list companions -/

theorem areConstant_eq_all (ts : List (Term V)) : areConstant ts = ts.all isConstant := by
  induction ts with
  | nil => rfl
  | cons t ts ih => rw [areConstant, List.all_cons, ih]

theorem renameAll_eq_map (old new : Var) (ts : List (Term V)) :
    renameAll old new ts = ts.map (rename old new) := by
  induction ts with
  | nil => rfl
  | cons t ts ih => rw [renameAll, List.map_cons, ih]

@[simp] theorem length_renameAll (old new : Var) (ts : List (Term V)) :
    (renameAll old new ts).length = ts.length := by
  rw [renameAll_eq_map, List.length_map]

theorem contains_freeVarsOfAll (ts : List (Term V)) (x : Var) :
    (freeVarsOfAll ts).contains x = ts.any fun t => t.freeVars.contains x := by
  induction ts with
  | nil => rfl
  | cons t ts ih => rw [freeVarsOfAll, VarSet.contains_union, List.any_cons, ih]

end Term

end StackCalculus
