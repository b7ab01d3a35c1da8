import StackCalculus.Cell

/-!
# Stacks

Stacks of cells. The number of cells is kept beside them, so that stacks of different heights are
told apart without looking at their cells.
-/

namespace StackCalculus

/-- A stack of cells, listed from the top. -/
structure Stack (V : Type) where
  cells : List (Cell V)
  size : Nat := cells.length
  size_eq : size = cells.length := by rfl

namespace Stack

variable {V : Type}

/-- The stack without cells. -/
def empty : Stack V := { cells := [] }

instance : EmptyCollection (Stack V) := ⟨empty⟩
instance : Inhabited (Stack V) := ⟨empty⟩

/-- Whether a stack has no cells. -/
def isEmpty (stack : Stack V) : Bool := stack.cells.isEmpty

/-- Puts a cell on top. -/
def push (stack : Stack V) (cell : Cell V) : Stack V where
  cells := cell :: stack.cells
  size := stack.size + 1
  size_eq := by rw [stack.size_eq, List.length_cons]

/-- The top cell and the stack below it. -/
def pop? : Stack V → Option (Cell V × Stack V)
  | ⟨[], _, _⟩ => none
  | ⟨top :: rest, size, h⟩ =>
    some (top, ⟨rest, size - 1, by rw [h, List.length_cons, Nat.add_sub_cancel]⟩)

/-- The top cell. -/
def top? (stack : Stack V) : Option (Cell V) := stack.cells.head?

/-- The cells from the bottom to the top. -/
def toList (stack : Stack V) : List (Cell V) := stack.cells.reverse

/-- The stack of a list of cells, given from the bottom to the top. -/
def ofList (cells : List (Cell V)) : Stack V := { cells := cells.reverse }

/-- Applies a function to every cell. -/
def map (f : Cell V → Cell V) (stack : Stack V) : Stack V where
  cells := stack.cells.map f
  size := stack.size
  size_eq := by rw [stack.size_eq, List.length_map]

/-- Whether some cell refers to the variable `x`. -/
def mentions (stack : Stack V) (x : Var) : Bool := stack.cells.any (Cell.refersTo x)

instance [DecidableEq V] : BEq (Stack V) :=
  ⟨fun s t => s.size == t.size && s.cells == t.cells⟩

/-- The text of a stack: its cells from the bottom to the top, with a blank between them. -/
def render [ToString V] (stack : Stack V) : String :=
  String.intercalate " " (stack.toList.map toString)

instance [ToString V] : ToString (Stack V) := ⟨render⟩

/-! ## The list of cells -/

@[ext] theorem ext {s t : Stack V} (h : s.cells = t.cells) : s = t := by
  obtain ⟨cells, size, hsize⟩ := s
  obtain ⟨cells', size', hsize'⟩ := t
  cases h
  rw [← hsize'] at hsize
  cases hsize
  rfl

@[simp] theorem toList_empty : (empty : Stack V).toList = [] := rfl

@[simp] theorem toList_push (stack : Stack V) (cell : Cell V) :
    (stack.push cell).toList = stack.toList ++ [cell] := List.reverse_cons

@[simp] theorem toList_ofList (cells : List (Cell V)) : (ofList cells).toList = cells :=
  List.reverse_reverse cells

theorem ofList_concat (cells : List (Cell V)) (cell : Cell V) :
    ofList (cells ++ [cell]) = (ofList cells).push cell :=
  ext (List.reverse_concat ..)

theorem pop?_push (stack : Stack V) (cell : Cell V) :
    (stack.push cell).pop? = some (cell, stack) := rfl

theorem pop?_eq_none_iff (stack : Stack V) : stack.pop? = none ↔ stack.toList = [] := by
  obtain ⟨cells, size, hsize⟩ := stack
  cases cells <;> simp [pop?, toList]

theorem eq_push_of_pop? {stack rest : Stack V} {cell : Cell V}
    (h : stack.pop? = some (cell, rest)) : stack = rest.push cell := by
  obtain ⟨cells, size, hsize⟩ := stack
  cases cells with
  | nil => simp [pop?] at h
  | cons top below =>
    simp only [pop?, Option.some.injEq, Prod.mk.injEq] at h
    obtain ⟨rfl, rfl⟩ := h
    exact ext rfl

theorem beq_eq [DecidableEq V] (s t : Stack V) : (s == t) = (s.cells == t.cells) := by
  show (s.size == t.size && s.cells == t.cells) = (s.cells == t.cells)
  by_cases h : s.size = t.size
  · simp [h]
  · have hlength : s.cells.length ≠ t.cells.length := fun heq => h (by rw [s.size_eq, t.size_eq, heq])
    have hcells : (s.cells == t.cells) = false := by
      rw [Bool.eq_false_iff]
      exact fun heq => hlength (List.length_eq_of_beq heq)
    rw [hcells, Bool.and_false]

end Stack

end StackCalculus
