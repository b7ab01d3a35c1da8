import StackCalculus.NameMap

/-!
# Variables

A variable is its name. The flag `isLocal` records that a scope introduced the variable; it is kept
and shown, but it takes no part in equality or order. Sets of variables are therefore keyed by name,
and a set keeps the variable that came first.
-/

namespace StackCalculus

/-- A symbolic variable. `isLocal` marks variables that a scope introduced. -/
structure Var where
  name : String
  isLocal : Bool := false

namespace Var

instance : BEq Var := ⟨fun x y => x.name == y.name⟩
instance : Ord Var := ⟨fun x y => compare x.name y.name⟩
instance : ToString Var := ⟨Var.name⟩

/-- The part of a name before its first `#`. -/
def stem (name : String) : String :=
  String.ofList (name.toList.takeWhile fun c => c != '#')

/-- The local variable `base#index`, where a base that already has an index loses it. -/
def indexed (base : String) (index : Nat) : Var :=
  ⟨stem base ++ "#" ++ toString index, true⟩

theorem beq_iff {x y : Var} : (x == y) = true ↔ x.name = y.name :=
  beq_iff_eq (a := x.name) (b := y.name)

theorem beq_eq_false_iff {x y : Var} : (x == y) = false ↔ x.name ≠ y.name := by
  rw [← Bool.not_eq_true, beq_iff]

instance : EquivBEq Var where
  rfl := beq_iff.mpr rfl
  symm h := beq_iff.mpr (beq_iff.mp h).symm
  trans h h' := beq_iff.mpr ((beq_iff.mp h).trans (beq_iff.mp h'))

end Var

/-- A finite set of variables, listed in order of their names. -/
structure VarSet where
  flags : NameMap Bool

namespace VarSet

/-- The set without variables. -/
def empty : VarSet := ⟨.empty⟩

instance : EmptyCollection VarSet := ⟨empty⟩

/-- Whether a variable of this name is in the set. -/
def contains (set : VarSet) (x : Var) : Bool := set.flags.contains x.name

/-- Adds a variable, unless one of the same name is there. -/
def insert (set : VarSet) (x : Var) : VarSet :=
  if set.contains x then set else ⟨set.flags.insert x.name x.isLocal⟩

/-- Removes the variable of this name. -/
def erase (set : VarSet) (x : Var) : VarSet := ⟨set.flags.erase x.name⟩

/-- The variables in order of their names. -/
def toList (set : VarSet) : List Var := set.flags.entries.map fun entry => ⟨entry.1, entry.2⟩

/-- The number of variables. -/
def size (set : VarSet) : Nat := set.flags.size

/-- The set of one variable. -/
def singleton (x : Var) : VarSet := ⟨NameMap.empty.insert x.name x.isLocal⟩

/-- Both sets together. Of two variables with one name the left one stays. -/
def union (left right : VarSet) : VarSet := right.toList.foldl insert left

/-! ## Membership -/

@[simp] theorem contains_empty (x : Var) : empty.contains x = false := rfl

@[simp] theorem contains_singleton (x y : Var) : (singleton x).contains y = (y == x) := by
  simp only [contains, singleton, NameMap.contains, NameMap.get?_insert]
  by_cases h : y.name = x.name
  · simp [h, Var.beq_iff.mpr h]
  · simp [h, Var.beq_eq_false_iff.mpr h]

@[simp] theorem contains_insert (set : VarSet) (x y : Var) :
    (set.insert x).contains y = (y == x || set.contains y) := by
  by_cases h : y.name = x.name
  · rw [Var.beq_iff.mpr h, Bool.true_or, insert]
    split
    · rename_i hx
      rwa [contains, h]
    · simp [contains, NameMap.contains, h]
  · rw [Var.beq_eq_false_iff.mpr h, Bool.false_or, insert]
    split
    · rfl
    · simp [contains, NameMap.contains, NameMap.get?_insert_of_ne _ h]

@[simp] theorem contains_erase (set : VarSet) (x y : Var) :
    (set.erase x).contains y = (!(y == x) && set.contains y) := by
  simp only [contains, erase, NameMap.contains]
  by_cases h : y.name = x.name
  · simp [h, Var.beq_iff.mpr h]
  · simp [Var.beq_eq_false_iff.mpr h, NameMap.get?_erase_of_ne _ h]

theorem contains_foldl_insert (xs : List Var) (set : VarSet) (y : Var) :
    (xs.foldl insert set).contains y = (set.contains y || xs.any fun x => y == x) := by
  induction xs generalizing set with
  | nil => simp
  | cons x xs ih =>
    rw [List.foldl_cons, ih, contains_insert, List.any_cons, ← Bool.or_assoc,
      Bool.or_comm (y == x)]

theorem any_toList (set : VarSet) (y : Var) :
    (set.toList.any fun x => y == x) = set.contains y := by
  rw [Bool.eq_iff_iff, List.any_eq_true, contains, NameMap.contains, Option.isSome_iff_exists]
  constructor
  · rintro ⟨x, hx, heq⟩
    obtain ⟨⟨name, flag⟩, hmem, rfl⟩ := List.mem_map.mp hx
    exact ⟨flag, Var.beq_iff.mp heq ▸ NameMap.mem_entries_iff.mp hmem⟩
  · rintro ⟨flag, hget⟩
    exact ⟨⟨y.name, flag⟩, List.mem_map.mpr ⟨(y.name, flag), NameMap.mem_entries_iff.mpr hget, rfl⟩,
      Var.beq_iff.mpr rfl⟩

@[simp] theorem contains_union (left right : VarSet) (y : Var) :
    (left.union right).contains y = (left.contains y || right.contains y) := by
  rw [union, contains_foldl_insert, any_toList]

end VarSet

end StackCalculus
