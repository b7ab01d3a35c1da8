import StackCalculus.Term.Basic

/-!
# Programs

Programs of the calculus: doing nothing, failing, sequence, branch, iteration, pushing and popping a
term at a location, and the scope of a new variable. A scope binds its variable by name; renaming
stops at a scope that binds the renamed variable and otherwise goes below binders unchanged.
-/

namespace StackCalculus

/-- A program over stacks of values in `V`. -/
inductive Program (V : Type) where
  | skip
  | fail
  | seq (first second : Program V)
  | branch (left right : Program V)
  | iterate (body : Program V)
  | push (term : Term V) (location : String)
  | pop (term : Term V) (location : String)
  | scope (x : Var) (body : Program V)

namespace Program

variable {V : Type}

/-- The outermost form of a program. -/
inductive Kind where
  | skip
  | fail
  | seq
  | branch
  | iterate
  | push
  | pop
  | scope
deriving DecidableEq

/-- The name of a form, as it is shown. -/
def Kind.name : Kind → String
  | skip => "Continue"
  | fail => "Fail"
  | seq => "Sequence"
  | branch => "Branch"
  | iterate => "Iterate"
  | push => "Push"
  | pop => "Pop"
  | scope => "NewVar"

/-- The form of a program. -/
def kind : Program V → Kind
  | skip => .skip
  | fail => .fail
  | seq .. => .seq
  | branch .. => .branch
  | iterate .. => .iterate
  | push .. => .push
  | pop .. => .pop
  | scope .. => .scope

/-- The number of nodes of a program. -/
def size : Program V → Nat
  | skip | fail | push .. | pop .. => 1
  | seq p q | branch p q => p.size + q.size + 1
  | iterate p | scope _ p => p.size + 1

/-- The variables that no scope of the program binds. -/
def freeVars : Program V → VarSet
  | skip | fail => .empty
  | seq p q | branch p q => p.freeVars.union q.freeVars
  | iterate p => p.freeVars
  | push t _ | pop t _ => t.freeVars
  | scope x p => p.freeVars.erase x

/-- Puts `new` in place of the free occurrences of `old`. -/
def rename (old new : Var) : Program V → Program V
  | skip => skip
  | fail => fail
  | seq p q => seq (p.rename old new) (q.rename old new)
  | branch p q => branch (p.rename old new) (q.rename old new)
  | iterate p => iterate (p.rename old new)
  | push t location => push (t.rename old new) location
  | pop t location => pop (t.rename old new) location
  | scope x p => if x == old then scope x p else scope x (p.rename old new)

/-- Programs one after the other, nested to the right. The empty sequence does nothing. -/
def sequence : List (Program V) → Program V
  | [] => skip
  | [p] => p
  | p :: ps => seq p (sequence ps)

/-- Pushes the variable of this name. -/
def pushVar (name location : String) : Program V := push (.var ⟨name, false⟩) location

/-- Pops into the variable of this name. -/
def popVar (name location : String) : Program V := pop (.var ⟨name, false⟩) location

/-- Equality of programs, where variables are compared by name and terms without their rules. -/
def same : Program V → Program V → Bool
  | skip, skip => true
  | fail, fail => true
  | seq p q, seq r s => p.same r && q.same s
  | branch p q, branch r s => p.same r && q.same s
  | iterate p, iterate r => p.same r
  | push t l, push u m => t == u && l == m
  | pop t l, pop u m => t == u && l == m
  | scope x p, scope y r => x == y && p.same r
  | _, _ => false

instance : BEq (Program V) := ⟨same⟩

@[simp] theorem size_rename (old new : Var) (p : Program V) : (p.rename old new).size = p.size := by
  induction p with
  | skip => rfl
  | fail => rfl
  | seq p q ihp ihq => simp [rename, size, ihp, ihq]
  | branch p q ihp ihq => simp [rename, size, ihp, ihq]
  | iterate p ih => simp [rename, size, ih]
  | push t location => rfl
  | pop t location => rfl
  | scope x p ih =>
    unfold rename
    split
    · rfl
    · simp [size, ih]

/-- Induction for programs whose scopes are entered: what holds of a scope may rest on its body with
another variable in place of its own. -/
@[elab_as_elim] theorem enter_induction {motive : Program V → Prop} (skip : motive .skip)
    (fail : motive .fail) (seq : ∀ p q, motive p → motive q → motive (.seq p q))
    (branch : ∀ p q, motive p → motive q → motive (.branch p q))
    (iterate : ∀ p, motive p → motive (.iterate p)) (push : ∀ t location, motive (.push t location))
    (pop : ∀ t location, motive (.pop t location))
    (scope : ∀ x p, (∀ y, motive (p.rename x y)) → motive (.scope x p)) (p : Program V) :
    motive p := by
  -- Renaming keeps the size of a program.
  induction hsize : p.size using Nat.strongRecOn generalizing p with
  | _ n ih =>
    subst hsize
    cases p with
    | skip => exact skip
    | fail => exact fail
    | seq p q =>
      have hp := ih p.size (by simp only [size]; omega) p rfl
      have hq := ih q.size (by simp only [size]; omega) q rfl
      exact seq p q hp hq
    | branch p q =>
      have hp := ih p.size (by simp only [size]; omega) p rfl
      have hq := ih q.size (by simp only [size]; omega) q rfl
      exact branch p q hp hq
    | iterate p => exact iterate p (ih p.size (by simp only [size]; omega) p rfl)
    | push t location => exact push t location
    | pop t location => exact pop t location
    | scope x p =>
      refine scope x p fun y => ih _ ?_ (p.rename x y) rfl
      rw [size_rename, size]
      omega

end Program

end StackCalculus
