import Mathlib
import StackCalculus.Proofs.Covering
import StackCalculus.Proofs.Steps

/-!
# Values beneath the stacks

A base assigns a list of values to each location, and `State.onBase` places these values beneath the
stacks. A step on such a state is the step on the state without the values, except for a pop that
reaches into the base: without the base it fails, and its branch is lost. The base therefore only adds
outcomes. What a program reaches from a state, it reaches from the state on a base at least as often
(`Machine.run_onBase`).
-/

namespace StackCalculus

variable {V : Type}

/-! ## Bases -/

/-- Applies a function that may look at the name to every item. -/
def NameMap.mapNamed {β γ : Type} (f : String → β → γ) (map : NameMap β) : NameMap γ :=
  ⟨map.entries.map fun entry => (entry.1, f entry.1 entry.2), map.ordered.map _ fun _ _ h => h⟩

@[simp] theorem NameMap.get?_mapNamed {β γ : Type} (f : String → β → γ) (map : NameMap β)
    (name : String) : (map.mapNamed f).get? name = (map.get? name).map (f name) := by
  simp only [get?, mapNamed]
  induction map.entries with
  | nil => rfl
  | cons head rest ih =>
    rw [List.map_cons, List.lookup_cons, List.lookup_cons]
    by_cases h : name = head.1
    · simp [h]
    · simp [beq_false_of_ne h, ih]

namespace Stack

variable (base : List V)

/-- The stack with values beneath its bottom, listed from the bottom. -/
def onBase (stack : Stack V) : Stack V := { cells := stack.cells ++ (base.map Cell.value).reverse }

/-- From the bottom to the top, the base comes first. -/
theorem toList_onBase (stack : Stack V) :
    (stack.onBase base).toList = base.map Cell.value ++ stack.toList := by
  simp [toList, onBase]

theorem onBase_push (stack : Stack V) (c : Cell V) :
    (stack.push c).onBase base = (stack.onBase base).push c := Stack.ext rfl

/-- Values stay what they are when references are replaced. -/
theorem onBase_map_replaceRef (stack : Stack V) (x : Var) (c : Cell V) :
    (stack.map (Cell.replaceRef x c)).onBase base = (stack.onBase base).map (Cell.replaceRef x c) := by
  apply Stack.ext
  simp [onBase, Stack.map, Cell.replaceRef]

theorem mentions_onBase (stack : Stack V) (x : Var) :
    (stack.onBase base).mentions x = stack.mentions x := by
  simp [mentions, onBase, Cell.refersTo]

theorem related_onBase_iff (s s' : Stack V) :
    (s.onBase base).Related (Cell.Renamed 1) (s'.onBase base) ↔ s.Related (Cell.Renamed 1) s' := by
  unfold Related onBase
  simp only [Cell.forall₂_renamed_one_iff, List.map_append, List.append_left_inj]

end Stack

namespace Memory

variable (base : String → List V)

/-- The memory with values beneath each of its stacks. -/
def onBase (m : Memory V) : Memory V :=
  ⟨m.table.mapNamed fun location stack => stack.onBase (base location)⟩

theorem get?_onBase (m : Memory V) (location : String) :
    (m.onBase base).table.get? location = (m.table.get? location).map (Stack.onBase (base location)) :=
  NameMap.get?_mapNamed ..

theorem onBase_insert (m : Memory V) (location : String) (stack : Stack V) :
    onBase base ⟨m.table.insert location stack⟩ =
      ⟨(m.onBase base).table.insert location (stack.onBase (base location))⟩ := by
  have htable : (onBase base ⟨m.table.insert location stack⟩).table =
      (m.onBase base).table.insert location (stack.onBase (base location)) := by
    refine NameMap.ext_get? fun other => ?_
    rw [get?_onBase, NameMap.get?_insert, NameMap.get?_insert, get?_onBase]
    split
    · next heq => rw [heq, Option.map_some]
    · rfl
  exact congrArg Memory.mk htable

theorem onBase_replaceRefs (m : Memory V) (x : Var) (c : Cell V) :
    (m.replaceRefs x c).onBase base = (m.onBase base).replaceRefs x c := by
  have htable : ((m.replaceRefs x c).onBase base).table = ((m.onBase base).replaceRefs x c).table := by
    refine NameMap.ext_get? fun location => ?_
    rw [get?_onBase, replaceRefs, replaceRefs, NameMap.get?_map, NameMap.get?_map, get?_onBase,
      Option.map_map, Option.map_map]
    congr 1
    funext stack
    exact stack.onBase_map_replaceRef (base location) x c
  exact congrArg Memory.mk htable

theorem mentions_onBase (m : Memory V) (x : Var) : (m.onBase base).mentions x = m.mentions x := by
  show (List.map _ _).any _ = _
  rw [List.any_map]
  congr 1
  funext entry
  exact entry.2.mentions_onBase (base entry.1) x

theorem related_onBase_iff (m m' : Memory V) :
    (m.onBase base).Related (Cell.Renamed 1) (m'.onBase base) ↔ m.Related (Cell.Renamed 1) m' := by
  refine forall_congr' fun location => ?_
  rw [get?_onBase, get?_onBase]
  cases m.table.get? location with
  | none =>
    cases m'.table.get? location with
    | none => exact ⟨fun _ => .none, fun _ => .none⟩
    | some stack' => exact ⟨nofun, nofun⟩
  | some stack =>
    cases m'.table.get? location with
    | none => exact ⟨nofun, nofun⟩
    | some stack' =>
      rw [Option.map_some, Option.map_some, Option.rel_some_some, Option.rel_some_some]
      exact Stack.related_onBase_iff (base location) stack stack'

end Memory

namespace State

variable (base : String → List V)

/-- The state with values beneath each of its stacks. -/
def onBase (s : State V) : State V := ⟨s.memory.onBase base, s.substitution⟩

theorem mentions_onBase (s : State V) (x : Var) : (s.onBase base).mentions x = s.mentions x := by
  rw [mentions, mentions, onBase, Memory.mentions_onBase]

theorem onBase_beq [DecidableEq V] (s s' : State V) :
    (s.onBase base == s'.onBase base) = (s == s') := by
  rw [Bool.eq_iff_iff, ← renamed_one_iff, ← renamed_one_iff]
  constructor
  · exact fun h => ⟨(Memory.related_onBase_iff base _ _).mp h.memory, h.substitution⟩
  · exact fun h => ⟨(Memory.related_onBase_iff base _ _).mpr h.memory, h.substitution⟩

/-! ## Steps -/

theorem onBase_insert (m : Memory V) (location : String) (stack : Stack V)
    (substitution : Substitution V) :
    onBase base ⟨⟨m.table.insert location stack⟩, substitution⟩ =
      ⟨⟨(m.onBase base).table.insert location (stack.onBase (base location))⟩, substitution⟩ :=
  congrArg (State.mk · substitution) (m.onBase_insert base location stack)

theorem project_onBase (s : State V) (x : Var) :
    (s.onBase base).project x = (s.project x).onBase base := by
  unfold State.project onBase
  cases hget : s.substitution.get? x with
  | none => rfl
  | some c => simp only [Memory.onBase_replaceRefs]

theorem push_onBase (s : State V) (t : Term V) (location : String) :
    (s.onBase base).push t location = (s.push t location).map (onBase base) := by
  unfold State.push Memory.push Memory.stackAt onBase
  rw [Memory.get?_onBase]
  cases hterm : t.evaluateUnder s.substitution with
  | error e => rfl
  | ok c =>
    cases hstack : s.memory.table.get? location with
    | none => rfl
    | some stack =>
      have hstate := onBase_insert base s.memory location (stack.push c) s.substitution
      exact congrArg Except.ok hstate.symm

variable [DecidableEq V] [ToString V]

/-- A pop that finds a cell does not look at the base. -/
theorem pop_onBase (s : State V) (t : Term V) (location : String) :
    s.pop t location = .error (.stackUnderflow location) ∨
      (s.onBase base).pop t location = (s.pop t location).map (onBase base) := by
  have hbase := s.memory.get?_onBase base location
  cases hget : s.memory.table.get? location with
  | none =>
    rw [hget, Option.map_none] at hbase
    rw [pop_of_get?_eq_none hget, pop_of_get?_eq_none (s := s.onBase base) hbase]
    exact .inr rfl
  | some stack =>
    cases hpop : stack.pop? with
    | none => exact .inl (pop_of_get?_of_pop?_eq_none hget hpop t)
    | some popped =>
      obtain ⟨top, rest⟩ := popped
      rw [Stack.eq_push_of_pop? hpop] at hget
      rw [hget, Option.map_some, Stack.onBase_push] at hbase
      have hstate := onBase_insert base s.memory location rest
      right
      rw [pop_of_get? hget, pop_of_get? (s := s.onBase base) hbase]
      show s.substitution.resolveCell top >>= _ = _
      cases s.substitution.resolveCell top with
      | error e => rfl
      | ok popped =>
        show t.evaluateUnder s.substitution >>= _ = Except.map _ (t.evaluateUnder s.substitution >>= _)
        cases t.evaluateUnder s.substitution with
        | error e => rfl
        | ok expected =>
          show s.substitution.matchCell expected popped >>= _ =
            Except.map _ (s.substitution.matchCell expected popped >>= _)
          cases s.substitution.matchCell expected popped with
          | error e => rfl
          | ok substitution => exact congrArg Except.ok (hstate substitution).symm

/-! ## Runs -/

variable {base}

omit [ToString V] in
/-- A step that ends like the one on the base, up to local flags, is covered by it. -/
theorem stepCovered_of_alike {x y : Except Fault (State V)}
    (h : Alike SameFate (State.Renamed 1) (x.map (onBase base)) y) :
    StepCovered (onBase base) x y := by
  refine .of_alike ?_
  cases x with
  | ok u =>
    obtain ⟨u', rfl, hu⟩ := h.exists_right
    exact .ok ((renamed_one_iff _ _).mp hu)
  | error e =>
    cases h with
    | error hfate => exact .error hfate

omit [ToString V] in
theorem push_covered {s s' : State V} (hs : s.onBase base == s') (t : Term V) (location : String) :
    StepCovered (onBase base) (s.push t location) (s'.push t location) := by
  have hpush := ((renamed_one_iff _ _).mpr hs).push t.renamed_one location
  rw [push_onBase] at hpush
  exact stepCovered_of_alike hpush

theorem pop_covered {s s' : State V} (hs : s.onBase base == s') (t : Term V) (location : String) :
    StepCovered (onBase base) (s.pop t location) (s'.pop t location) := by
  rcases s.pop_onBase base t location with hunderflow | hsame
  · rw [hunderflow]
    exact .failed rfl
  · have hpop := ((renamed_one_iff _ _).mpr hs).pop t.renamed_one location
    rw [hsame] at hpop
    exact stepCovered_of_alike hpop

omit [ToString V] in
theorem freshFor_onBase {s s' : State V} (hs : s.onBase base == s') (x : Var) (p : Program V)
    (reserved : List Var) : freshFor x p s reserved = freshFor x p s' reserved := by
  refine freshFor_congr rfl fun y => ?_
  have hy : y.Renamed 1 y := rfl
  rw [inUse, inUse, ← s.mentions_onBase base, ((renamed_one_iff _ _).mpr hs).mentions_eq hy]

end State

/-- A program that succeeds from a state on a base also does so without the base, and reaches every
state at most as often as the first run reaches that state on the base. -/
theorem Machine.run_onBase [DecidableEq V] [ToString V] (machine : Machine)
    (hlimit : machine.config.timeLimit = none) (base : String → List V) (program : Program V)
    (s : State V) {r' : Configuration V} (h : machine.run program (s.onBase base) = .ok r') :
    ∃ r, machine.run program s = .ok r ∧ ∀ t, r.count t ≤ r'.count (t.onBase base) := by
  let P : List Var → List Var → Program V → Program V → Prop := fun r r' p p' => r = r' ∧ p = p'
  have hstep : ∀ r r' p p', P r r' p p' → StepsCovered (State.onBase base) P r r' p p' := by
    rintro r _ p _ ⟨rfl, rfl⟩
    cases p with
    | skip => exact .skip
    | fail => exact .fail
    | seq p q => exact .seq ⟨rfl, rfl⟩ ⟨rfl, rfl⟩
    | branch p q => exact .branch ⟨rfl, rfl⟩ ⟨rfl, rfl⟩
    | iterate p => exact .iterate ⟨rfl, rfl⟩
    | push t location => exact .push fun s s' hs => State.push_covered hs t location
    | pop t location => exact .pop fun s s' hs => State.pop_covered hs t location
    | scope x p =>
      refine .scope fun s s' hs => ?_
      rw [← State.freshFor_onBase hs]
      refine ⟨⟨rfl, rfl⟩, fun u u' hu => ?_⟩
      rw [← State.project_onBase]
      exact State.project_beq hu _
  have hstart : (Bag.singleton s).Under (State.onBase base) (.singleton (s.onBase base)) :=
    Bag.under_singleton (State.onBase_beq base) (BEq.refl _)
  rw [run_eq_step] at h ⊢
  exact machine.exec_covered hlimit (State.onBase_beq base) hstep ⟨rfl, rfl⟩ hstart r' h

/-- The loop that pops equal values goes on into the base. The states that it reaches before are
reached on the base as well. -/
theorem Machine.run_onBase_popVar :
    ∃ r r', run {} (.iterate (.popVar "x" "l")) (oneValue.onBase fun _ => ["v"]) = .ok r' ∧
      run {} (.iterate (.popVar "x" "l")) oneValue = .ok r ∧ r.size = 2 ∧ r'.size = 3 ∧
      ∀ t, r.count t ≤ r'.count (t.onBase fun _ => ["v"]) := by
  have hbase : (run {} (.iterate (.popVar "x" "l")) (oneValue.onBase fun _ => ["v"])).toOption.any
      fun r' => r'.size == 3 := by decide +kernel
  obtain ⟨r', hr', hsize'⟩ := exists_ok_of_any hbase
  have hsize : (run {} (.iterate (.popVar "x" "l")) oneValue).toOption.any fun r => r.size == 2 := by
    decide +kernel
  obtain ⟨r, hr, hcount⟩ := run_onBase {} rfl (fun _ => ["v"]) (.iterate (.popVar "x" "l")) oneValue hr'
  rw [hr] at hsize
  exact ⟨r, r', hr', hr, beq_iff_eq.mp hsize, beq_iff_eq.mp hsize', hcount⟩

end StackCalculus
