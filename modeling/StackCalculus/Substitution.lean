import StackCalculus.Cell
import StackCalculus.Fault

/-!
# Substitutions

A substitution binds variables to cells, each variable at most once. A binding may be a reference to
another variable, so variables form chains; `resolve` follows a chain to the value or to the unbound
variable at its end. `bind` refuses a second binding and a binding that would close a cycle. A
substitution made by `ofList` is not checked and may hold cycles; resolving into one is a fault.
-/

namespace StackCalculus

/-- What is stored under a name: the flag of the variable as it was bound, and its cell. -/
structure Binding (V : Type) where
  isLocal : Bool
  cell : Cell V

instance {V : Type} [DecidableEq V] : BEq (Binding V) := ⟨fun a b => a.cell == b.cell⟩

/-- A binding environment. -/
structure Substitution (V : Type) where
  bindings : NameMap (Binding V)

namespace Substitution

variable {V : Type}

/-- The substitution without bindings. -/
def empty : Substitution V := ⟨.empty⟩

instance : EmptyCollection (Substitution V) := ⟨empty⟩
instance : Inhabited (Substitution V) := ⟨empty⟩

/-- The cell that a variable is bound to. -/
def get? (s : Substitution V) (x : Var) : Option (Cell V) := (s.bindings.get? x.name).map (·.cell)

/-- Whether a variable is bound. -/
def contains (s : Substitution V) (x : Var) : Bool := (s.get? x).isSome

/-- The number of bindings. -/
def size (s : Substitution V) : Nat := s.bindings.size

/-- The bindings in order of the variables. -/
def toList (s : Substitution V) : List (Var × Cell V) :=
  s.bindings.entries.map fun entry => (⟨entry.1, entry.2.isLocal⟩, entry.2.cell)

/-- Binds a variable without any check, in place of a binding that it has. -/
def set (s : Substitution V) (x : Var) (cell : Cell V) : Substitution V :=
  ⟨s.bindings.insert x.name ⟨x.isLocal, cell⟩⟩

/-- The substitution of a list of bindings, unchecked. Of two bindings of one variable the later
one counts. -/
def ofList (entries : List (Var × Cell V)) : Substitution V :=
  entries.foldl (fun s entry => s.set entry.1 entry.2) empty

/-- Whether a variable is bound, or some binding refers to it. -/
def mentions (s : Substitution V) (x : Var) : Bool :=
  s.contains x || s.bindings.entries.any fun entry => entry.2.cell.refersTo x

/-- Follows the bindings from `current` for at most `budget` look-ups. `start` is where the chain
began; a chain that does not end within the budget is reported by its name. -/
def follow (s : Substitution V) (start : Var) : (budget : Nat) → (current : Var) →
    Except Fault (Cell V)
  | 0, current => .error (.cyclicBinding start.name current.name)
  | budget + 1, current =>
    match s.get? current with
    | none => .ok (.ref current)
    | some (.value v) => .ok (.value v)
    | some (.ref next) => s.follow start budget next

/-- The end of the chain that starts at `x`: a value, or a reference to an unbound variable. A chain
with more look-ups than there are bindings has come back to a variable that it has passed. -/
def resolve (s : Substitution V) (x : Var) : Except Fault (Cell V) := s.follow x (s.size + 1) x

/-- Resolves a reference, and leaves a value alone. -/
def resolveCell (s : Substitution V) : Cell V → Except Fault (Cell V)
  | .value v => .ok (.value v)
  | .ref x => s.resolve x

variable [DecidableEq V]

/-- Binds `x` to a cell. The variable must be unbound, and the chain of the cell must not end in
it. -/
def bind (s : Substitution V) (x : Var) (cell : Cell V) : Except Fault (Substitution V) :=
  if s.contains x then .error (.alreadyBound x.name)
  else
    match cell with
    | .value _ => .ok (s.set x cell)
    | .ref y => do
      let last ← s.resolve y
      if last == .ref x then .error (.cyclicBinding x.name y.name) else .ok (s.set x cell)

omit [DecidableEq V] in
/-- Removes the binding of `x`. References to `x` in other bindings become what `x` was bound to. -/
def projectOut (s : Substitution V) (x : Var) : Substitution V :=
  match s.get? x with
  | none => s
  | some cell =>
    ⟨(s.bindings.erase x.name).map fun binding =>
      { binding with cell := Cell.replaceRef x cell binding.cell }⟩

/-- Matches an expected cell, which is a value or an unbound variable, against a popped one. A
variable takes the popped cell as its binding, except a reference to itself; a value has to be met
exactly. -/
def matchCell [ToString V] (s : Substitution V) (expected popped : Cell V) :
    Except Fault (Substitution V) :=
  match expected with
  | .ref x =>
    if popped == .ref x then .error (.mismatch (toString popped) (toString x)) else s.bind x popped
  | .value v =>
    if popped == .value v then .ok s else .error (.mismatch (toString popped) (toString v))

instance : BEq (Substitution V) := ⟨fun s t => s.bindings == t.bindings⟩

omit [DecidableEq V] in
/-- The text of a substitution: its bindings in order, between braces. -/
def render [ToString V] (s : Substitution V) : String :=
  "\x7b" ++ String.intercalate ", " (s.toList.map fun (x, cell) => s!"{x} ↦ {cell}") ++ "\x7d"

instance [ToString V] : ToString (Substitution V) := ⟨render⟩

/-! ## Look-ups -/

omit [DecidableEq V]

theorem get?_congr (s : Substitution V) {x y : Var} (h : x == y) : s.get? x = s.get? y := by
  unfold get?
  rw [Var.beq_iff.mp h]

@[simp] theorem get?_empty (x : Var) : (empty : Substitution V).get? x = none := rfl

theorem get?_set (s : Substitution V) (x y : Var) (cell : Cell V) :
    (s.set x cell).get? y = if y == x then some cell else s.get? y := by
  unfold get? set
  rw [NameMap.get?_insert]
  by_cases h : y.name = x.name
  · rw [if_pos h, if_pos (Var.beq_iff.mpr h)]
    rfl
  · rw [if_neg h, if_neg (mt Var.beq_iff.mp h)]

theorem projectOut_of_unbound (s : Substitution V) {x : Var} (h : s.get? x = none) :
    s.projectOut x = s := by
  unfold projectOut
  rw [h]

theorem get?_projectOut_of_bound (s : Substitution V) {x : Var} {cell : Cell V}
    (h : s.get? x = some cell) (y : Var) :
    (s.projectOut x).get? y = if y == x then none else (s.get? y).map (Cell.replaceRef x cell) := by
  unfold projectOut
  rw [h]
  show (((s.bindings.erase x.name).map _).get? y.name).map _ = _
  rw [NameMap.get?_map]
  by_cases hy : y.name = x.name
  · rw [if_pos (Var.beq_iff.mpr hy), hy, NameMap.get?_erase_self]
    rfl
  · rw [if_neg (mt Var.beq_iff.mp hy), NameMap.get?_erase_of_ne _ hy]
    unfold get?
    cases s.bindings.get? y.name <;> rfl

end Substitution

end StackCalculus
