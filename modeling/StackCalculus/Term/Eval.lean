import StackCalculus.Term.Basic
import StackCalculus.Substitution

/-!
# Evaluation of terms

Terms are evaluated bottom up. `Term.evaluate` takes a term without variables to its value;
`Term.evaluateUnder` takes a term to a cell under a substitution. Under a substitution a variable may
stay unresolved when it stands alone, but not below a function node. The arity of a node is checked
before its arguments, and the first argument with a fault decides.
-/

namespace StackCalculus.Term

variable {V : Type}

mutual

/-- The value of a term without variables. -/
def evaluate : Term V → Except Fault V
  | var x => .error (.nonConstantTerm x.name x.name)
  | func label arity args rule =>
    if args.length = arity then do
      let values ← evaluateAll args
      return rule values
    else .error (.arityMismatch (func label arity args rule).render arity args.length)

/-- The values of terms without variables, from left to right. -/
def evaluateAll : List (Term V) → Except Fault (List V)
  | [] => .ok []
  | t :: ts => do
    let value ← t.evaluate
    let values ← evaluateAll ts
    return value :: values

end

mutual

/-- The cell of a term under a substitution: a variable is resolved, and a function node needs a
value from each of its arguments. -/
def evaluateUnder (s : Substitution V) : Term V → Except Fault (Cell V)
  | var x => s.resolve x
  | func label arity args rule =>
    if args.length = arity then do
      let values ← evaluateArgs s (func label arity args rule) args
      return .value (rule values)
    else .error (.arityMismatch (func label arity args rule).render arity args.length)

/-- The values of the arguments of the term `node`, from left to right. An argument that stays a
variable is a fault of the whole node. -/
def evaluateArgs (s : Substitution V) (node : Term V) : List (Term V) → Except Fault (List V)
  | [] => .ok []
  | t :: ts => do
    match ← t.evaluateUnder s with
    | .value value =>
      let values ← evaluateArgs s node ts
      return value :: values
    | .ref y => .error (.nonConstantTerm node.render y.name)

end

end StackCalculus.Term
