import Mathlib
import StackCalculus.Proofs.Fresh
import StackCalculus.Proofs.Invariant.Acyclic

/-!
# Closing scopes

A projection takes a variable out of a state: references to it become its binding as it stands, which
may itself be a reference. Chains that pass through the variable lose a link and keep their ends, so
the state means what it did (`State.project_meaning`). Two projections rewrite the bindings that each
other puts in place; without cycles of bindings the results are the same in both orders
(`State.project_project_comm`).
-/

namespace StackCalculus

variable {V : Type}

/-! ## Replacing references -/

namespace Cell

theorem replaceRef_congr {x y : Var} (h : x == y) (c d : Cell V) :
    replaceRef x c d = replaceRef y c d := by
  cases d with
  | value v => rfl
  | ref z =>
    show (if z == x then c else .ref z) = if z == y then c else .ref z
    rw [BEq.congr_right h]

/-- A variable that the replacement does not refer to is gone. -/
theorem refersTo_replaceRef {x : Var} {c : Cell V} (hc : c.refersTo x = false) (d : Cell V) :
    (replaceRef x c d).refersTo x = false := by
  cases d with
  | value v => rfl
  | ref z =>
    show (if z == x then c else .ref z).refersTo x = false
    split
    · exact hc
    · next hz => exact Bool.eq_false_iff.mpr hz

/-- Two replacements in either order. Each is also made in the cell that the other puts in place; the
cells may refer to one of the two variables, but not to each other in a circle. -/
theorem replaceRef_comm {x y : Var} {c d : Cell V} (hxy : ¬ x == y) (hc : c.refersTo x = false)
    (hd : d.refersTo y = false) (hcircle : c.refersTo y → d.refersTo x = false) (e : Cell V) :
    replaceRef y (replaceRef x c d) (replaceRef x c e) =
      replaceRef x (replaceRef y d c) (replaceRef y d e) := by
  -- What stands for `x` in the end, and by symmetry for `y`.
  have hstands : ∀ {x y : Var} {c d : Cell V}, d.refersTo y = false →
      (c.refersTo y → d.refersTo x = false) →
      replaceRef y (replaceRef x c d) c = replaceRef y d c := by
    intro x y c d hd hcircle
    cases hcy : c.refersTo y with
    | true => rw [replaceRef_of_refersTo_eq_false (hcircle hcy)]
    | false => rw [replaceRef_of_refersTo_eq_false hcy, replaceRef_of_refersTo_eq_false hcy]
  cases e with
  | value v => rfl
  | ref z =>
    by_cases hzx : z == x
    · have hzy : ¬ z == y := fun h => hxy (BEq.trans (BEq.symm hzx) h)
      simp only [replaceRef, if_pos hzx, if_neg hzy]
      exact hstands hd hcircle
    · by_cases hzy : z == y
      · simp only [replaceRef, if_neg hzx, if_pos hzy]
        refine (hstands hc fun hdx => ?_).symm
        rw [← Bool.not_eq_true]
        exact fun hcy => Bool.false_ne_true ((hcircle hcy).symm.trans hdx)
      · simp only [replaceRef, if_neg hzx, if_neg hzy]

end Cell

/-! ## Substitutions -/

namespace Substitution

variable {s : Substitution V} {x y : Var} {c d : Cell V}

/-- No variable is bound to itself. -/
theorem Acyclic.refersTo_self (h : s.Acyclic) (hx : s.get? x = some c) : c.refersTo x = false := by
  cases c with
  | value v => rfl
  | ref y =>
    obtain ⟨e, he⟩ := h x
    have hne := he.ne_of_get? hx
    exact Bool.eq_false_iff.mpr fun hyx => hne (Var.beq_iff.mp hyx).symm

theorem get?_projectOut_of_get? (hx : s.get? x = some c) (hy : s.get? y = some d) (hxy : ¬ x == y) :
    (s.projectOut x).get? y = some (Cell.replaceRef x c d) := by
  have hyx : ¬ y == x := fun heq => hxy (BEq.symm heq)
  rw [s.get?_projectOut_of_bound hx, if_neg hyx, hy, Option.map_some]

/-- No two variables are bound to each other: without the first, the second would be bound to
itself. -/
theorem Acyclic.refersTo_of_refersTo (h : s.Acyclic) (hxy : ¬ x == y) (hx : s.get? x = some c)
    (hy : s.get? y = some d) (hcy : c.refersTo y) : d.refersTo x = false := by
  have hself := (h.projectOut x).refersTo_self (get?_projectOut_of_get? hx hy hxy)
  rw [← Bool.not_eq_true]
  intro hdx
  cases d with
  | value v => cases hdx
  | ref z =>
    rw [Cell.replaceRef, if_pos (show z == x from hdx), hcy] at hself
    cases hself

/-- The bindings of two variables rewrite each other, and a third cell does not notice the order. -/
theorem Acyclic.replaceRef_comm (h : s.Acyclic) (hxy : ¬ x == y) (hx : s.get? x = some c)
    (hy : s.get? y = some d) (e : Cell V) :
    Cell.replaceRef y (Cell.replaceRef x c d) (Cell.replaceRef x c e) =
      Cell.replaceRef x (Cell.replaceRef y d c) (Cell.replaceRef y d e) :=
  Cell.replaceRef_comm hxy (h.refersTo_self hx) (h.refersTo_self hy)
    (h.refersTo_of_refersTo hxy hx hy) e

theorem get?_bindings_projectOut (hx : s.get? x = some c) (name : String) :
    (s.projectOut x).bindings.get? name =
      if name = x.name then none
      else (s.bindings.get? name).map fun b => { b with cell := Cell.replaceRef x c b.cell } := by
  unfold projectOut
  rw [hx]
  show ((s.bindings.erase x.name).map _).get? name = _
  rw [NameMap.get?_map]
  split
  · next hname => rw [hname, NameMap.get?_erase_self, Option.map_none]
  · next hname => rw [NameMap.get?_erase_of_ne _ hname]

theorem ext_get?_bindings {s s' : Substitution V}
    (h : ∀ name, s.bindings.get? name = s'.bindings.get? name) : s = s' :=
  congrArg Substitution.mk (NameMap.ext_get? h)

theorem projectOut_congr (s : Substitution V) (hxy : x == y) : s.projectOut x = s.projectOut y := by
  cases hx : s.get? x with
  | none => rw [s.projectOut_of_unbound hx, s.projectOut_of_unbound ((s.get?_congr hxy).symm.trans hx)]
  | some c =>
    have hy : s.get? y = some c := (s.get?_congr hxy).symm.trans hx
    refine ext_get?_bindings fun name => ?_
    rw [get?_bindings_projectOut hx, get?_bindings_projectOut hy, Var.beq_iff.mp hxy]
    simp only [Cell.replaceRef_congr hxy]

/-- What an unbound variable is bound to after another projection: still nothing. -/
theorem get?_projectOut_eq_none (hy : s.get? y = none) (x : Var) : (s.projectOut x).get? y = none := by
  cases hx : s.get? x with
  | none => rwa [s.projectOut_of_unbound hx]
  | some c =>
    rw [s.get?_projectOut_of_bound hx, hy, Option.map_none, ite_self]

/-- Resolving does not notice that a variable has left the chains. -/
theorem Acyclic.resolveCell_projectOut (h : s.Acyclic) (hx : s.get? x = some c) (d : Cell V) :
    (s.projectOut x).resolveCell (Cell.replaceRef x c d) = s.resolveCell d := by
  obtain ⟨e, he⟩ := h.exists_cellEnds d
  rw [(s.resolveCell_eq_ok_iff d e).mpr he, resolveCell_eq_ok_iff]
  exact he.projectOut hx

theorem Acyclic.resolve_projectOut (h : s.Acyclic) (x : Var) (hyx : ¬ y == x) :
    (s.projectOut x).resolve y = s.resolve y := by
  cases hx : s.get? x with
  | none => rw [s.projectOut_of_unbound hx]
  | some c =>
    have hcell := h.resolveCell_projectOut hx (.ref y)
    rwa [Cell.replaceRef, if_neg hyx] at hcell

/-- No binding refers to a variable that is projected out. -/
theorem Acyclic.mentions_projectOut (h : s.Acyclic) (hx : s.get? x = some c) :
    (s.projectOut x).mentions x = false := by
  rw [← Bool.not_eq_true, mentions_iff]
  rintro (⟨d, hd⟩ | ⟨z, d, hd, hdx⟩)
  · rw [get?_projectOut_self] at hd
    cases hd
  · rw [s.get?_projectOut_of_bound hx] at hd
    split at hd
    · cases hd
    · obtain ⟨e, _, rfl⟩ := Option.map_eq_some_iff.mp hd
      rw [Cell.refersTo_replaceRef (h.refersTo_self hx)] at hdx
      cases hdx

/-- Two bound variables are projected out in either order. -/
theorem Acyclic.projectOut_comm (h : s.Acyclic) (hxy : ¬ x == y) (hx : s.get? x = some c)
    (hy : s.get? y = some d) : (s.projectOut x).projectOut y = (s.projectOut y).projectOut x := by
  have hy' := get?_projectOut_of_get? hx hy hxy
  have hx' := get?_projectOut_of_get? hy hx fun heq => hxy (BEq.symm heq)
  refine ext_get?_bindings fun name => ?_
  rw [get?_bindings_projectOut hy', get?_bindings_projectOut hx, get?_bindings_projectOut hx',
    get?_bindings_projectOut hy]
  by_cases hnx : name = x.name
  · rw [if_pos hnx, if_pos hnx, Option.map_none, ite_self]
  · by_cases hny : name = y.name
    · rw [if_pos hny, if_pos hny, Option.map_none, ite_self]
    · rw [if_neg hnx, if_neg hnx, if_neg hny, if_neg hny, Option.map_map, Option.map_map]
      congr 1
      funext b
      exact congrArg (Binding.mk b.isLocal) (h.replaceRef_comm hxy hx hy b.cell)

end Substitution

/-! ## Memories -/

namespace Memory

theorem ext_get?_table {m m' : Memory V} (h : ∀ location, m.table.get? location = m'.table.get? location) :
    m = m' :=
  congrArg Memory.mk (NameMap.ext_get? h)

theorem get?_replaceRefs (m : Memory V) (x : Var) (c : Cell V) (location : String) :
    (m.replaceRefs x c).table.get? location =
      (m.table.get? location).map (Stack.map (Cell.replaceRef x c)) :=
  NameMap.get?_map ..

theorem mentions_replaceRefs {x : Var} {c : Cell V} (hc : c.refersTo x = false) (m : Memory V) :
    (m.replaceRefs x c).mentions x = false := by
  rw [← Bool.not_eq_true, mentions_iff]
  rintro ⟨location, stack, hget, hmentions⟩
  rw [get?_replaceRefs] at hget
  obtain ⟨stack, _, rfl⟩ := Option.map_eq_some_iff.mp hget
  obtain ⟨d, hd, hdx⟩ := List.any_eq_true.mp hmentions
  obtain ⟨e, _, rfl⟩ := List.mem_map.mp hd
  rw [Cell.refersTo_replaceRef hc] at hdx
  cases hdx

/-- Two replacements in all stacks are made cell by cell. -/
theorem replaceRefs_comm {x y : Var} {c c' d d' : Cell V}
    (h : ∀ e, Cell.replaceRef y d' (Cell.replaceRef x c e) = Cell.replaceRef x c' (Cell.replaceRef y d e))
    (m : Memory V) : (m.replaceRefs x c).replaceRefs y d' = (m.replaceRefs y d).replaceRefs x c' := by
  refine ext_get?_table fun location => ?_
  simp only [get?_replaceRefs, Option.map_map]
  congr 1
  funext stack
  refine Stack.ext ?_
  show (stack.cells.map _).map _ = (stack.cells.map _).map _
  rw [List.map_map, List.map_map]
  exact List.map_congr_left fun e _ => h e

end Memory

/-! ## States -/

namespace State

variable {s : State V} {x y : Var} {c : Cell V}

theorem project_of_bound (hx : s.substitution.get? x = some c) :
    s.project x = ⟨s.memory.replaceRefs x c, s.substitution.projectOut x⟩ := by
  unfold project
  rw [hx]

theorem project_congr (s : State V) (hxy : x == y) : s.project x = s.project y := by
  cases hx : s.substitution.get? x with
  | none =>
    have hy := (s.substitution.get?_congr hxy).symm.trans hx
    rw [project_of_unbound hx, project_of_unbound hy]
  | some c =>
    have hy := (s.substitution.get?_congr hxy).symm.trans hx
    have hcells : Cell.replaceRef x c = Cell.replaceRef y c := funext (Cell.replaceRef_congr hxy c)
    rw [project_of_bound hx, project_of_bound hy, s.substitution.projectOut_congr hxy,
      Memory.replaceRefs, Memory.replaceRefs, hcells]

/-- The cells at a location resolve as before, one by one. -/
theorem values_project (h : s.substitution.Acyclic) (x : Var) (location : String) :
    (s.project x).values location = s.values location := by
  cases hx : s.substitution.get? x with
  | none => rw [project_of_unbound hx]
  | some c =>
    rw [project_of_bound hx]
    unfold values Memory.stackAt
    rw [Memory.get?_replaceRefs]
    cases s.memory.table.get? location with
    | none => rfl
    | some stack =>
      show (stack.map (Cell.replaceRef x c)).toList.mapM (s.substitution.projectOut x).resolveCell =
        stack.toList.mapM s.substitution.resolveCell
      have hlist : (stack.map (Cell.replaceRef x c)).toList = stack.toList.map (Cell.replaceRef x c) :=
        List.map_reverse.symm
      rw [hlist, List.mapM_map]
      congr 1
      funext d
      exact h.resolveCell_projectOut hx d

/-- Closing the scope of a variable keeps the meaning of a state without cycles. The stacks have the
same values, every other variable resolves to the same cell, and the variable is unbound; if it was
bound it is no longer mentioned, and if it was not, nothing has changed. -/
theorem project_meaning (h : s.substitution.Acyclic) (x : Var) :
    (∀ location, (s.project x).values location = s.values location) ∧
      (∀ y, ¬ y == x → (s.project x).substitution.resolve y = s.substitution.resolve y) ∧
      (s.project x).substitution.contains x = false ∧
      (s.project x).substitution.Acyclic ∧
      (s.substitution.contains x = true →
        (s.project x).substitution.mentions x = false ∧ (s.project x).memory.mentions x = false) ∧
      (s.substitution.contains x = false → s.project x = s) := by
  refine ⟨values_project h x, fun y hyx => h.resolve_projectOut x hyx, ?_, h.projectOut x, ?_, ?_⟩
  · exact Substitution.contains_eq_false_iff.mpr (s.substitution.get?_projectOut_self x)
  · intro hbound
    obtain ⟨c, hx⟩ := Option.isSome_iff_exists.mp hbound
    rw [project_of_bound hx]
    exact ⟨h.mentions_projectOut hx, Memory.mentions_replaceRefs (h.refersTo_self hx) s.memory⟩
  · exact fun hunbound => project_of_unbound (Substitution.contains_eq_false_iff.mp hunbound)

/-- Chains that pass through `x`: `w` is bound to it, and it is bound to `y`, which has a value. The
stack has a reference to each of them. -/
def linkedThrough : State String :=
  ⟨⟨.ofList [("l", .ofList (["w", "x", "y", "z"].map fun name => .ref ⟨name, false⟩))]⟩,
    .ofList [(⟨"w", false⟩, .ref ⟨"x", true⟩), (⟨"x", true⟩, .ref ⟨"y", false⟩),
      (⟨"y", false⟩, .value "v")]⟩

/-- The middle of the chains is taken out: before it is mentioned, afterwards it is not, and the
values on the stack are the same. -/
theorem project_meaning_linkedThrough :
    linkedThrough.substitution.Acyclic ∧ linkedThrough.memory.mentions ⟨"x", false⟩ = true ∧
      (linkedThrough.project ⟨"x", false⟩).values "l" = linkedThrough.values "l" ∧
      (linkedThrough.project ⟨"x", false⟩).substitution.resolve ⟨"w", false⟩ =
        linkedThrough.substitution.resolve ⟨"w", false⟩ ∧
      (linkedThrough.project ⟨"x", false⟩).memory.mentions ⟨"x", false⟩ = false := by
  have hacyclic : linkedThrough.substitution.Acyclic := by decide +kernel
  obtain ⟨hvalues, hresolve, _, _, hgone, _⟩ := project_meaning hacyclic ⟨"x", false⟩
  exact ⟨hacyclic, by decide +kernel, hvalues "l", hresolve ⟨"w", false⟩ (by decide),
    (hgone (by decide +kernel)).2⟩

theorem project_project_of_unbound (hy : s.substitution.get? y = none) (x : Var) :
    (s.project x).project y = s.project x :=
  project_of_unbound (Substitution.get?_projectOut_eq_none hy x)

theorem project_project_of_bound {d : Cell V} (h : s.substitution.Acyclic) (hxy : ¬ x == y)
    (hx : s.substitution.get? x = some c) (hy : s.substitution.get? y = some d) :
    (s.project x).project y = (s.project y).project x := by
  have hy' : (s.project x).substitution.get? y = some (Cell.replaceRef x c d) :=
    Substitution.get?_projectOut_of_get? hx hy hxy
  have hx' : (s.project y).substitution.get? x = some (Cell.replaceRef y d c) :=
    Substitution.get?_projectOut_of_get? hy hx fun heq => hxy (BEq.symm heq)
  rw [project_of_bound hy', project_of_bound hx', project_of_bound hx, project_of_bound hy]
  show State.mk _ _ = State.mk _ _
  rw [Memory.replaceRefs_comm (h.replaceRef_comm hxy hx hy), h.projectOut_comm hxy hx hy]

/-- Scopes can be closed in any order, and closing one twice is closing it once. The results are
identical, bindings and stacks cell by cell. -/
theorem project_project_comm (h : s.substitution.Acyclic) (x y : Var) :
    (s.project x).project y = (s.project y).project x ∧ (s.project x).project x = s.project x := by
  refine ⟨?_, project_of_unbound (s.substitution.get?_projectOut_self x)⟩
  by_cases hxy : x == y
  · rw [s.project_congr hxy, project_congr _ hxy]
  cases hx : s.substitution.get? x with
  | none => rw [project_of_unbound hx, project_project_of_unbound hx]
  | some c =>
    cases hy : s.substitution.get? y with
    | none => rw [project_of_unbound hy, project_project_of_unbound hy]
    | some d => exact project_project_of_bound h hxy hx hy

/-- The variable `x` is bound to `y`, so either projection rewrites the binding of the other one. -/
theorem project_project_comm_linkedThrough :
    linkedThrough.substitution.Acyclic ∧
      (linkedThrough.project ⟨"x", false⟩).project ⟨"y", false⟩ =
        (linkedThrough.project ⟨"y", false⟩).project ⟨"x", false⟩ ∧
      (linkedThrough.project ⟨"x", false⟩).project ⟨"x", false⟩ =
        linkedThrough.project ⟨"x", false⟩ := by
  have hacyclic : linkedThrough.substitution.Acyclic := by decide +kernel
  exact ⟨hacyclic, project_project_comm hacyclic ⟨"x", false⟩ ⟨"y", false⟩⟩

/-- On a cycle the order shows: the variable that is taken out last stays on the stack. -/
example :
    let cycle : State String :=
      ⟨⟨.ofList [("l", .ofList [.ref ⟨"x", false⟩])]⟩,
        .ofList [(⟨"x", false⟩, .ref ⟨"y", false⟩), (⟨"y", false⟩, .ref ⟨"x", false⟩)]⟩
    ((cycle.project ⟨"x", false⟩).project ⟨"y", false⟩ ==
      (cycle.project ⟨"y", false⟩).project ⟨"x", false⟩) = false := by
  decide +kernel

end State

end StackCalculus
