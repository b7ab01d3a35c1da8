import Mathlib
import StackCalculus.Term.Eval
import StackCalculus.Proofs.Result

/-!
# Chains of bindings

`Substitution.Ends s x c` says that the chain of bindings from `x` ends in the cell `c`. It is the
meaning of `Substitution.resolve` without a budget: `resolve_eq_ok_iff`. The budget never cuts a
chain short, because the bound names along a chain that ends are different from each other
(`Trail.nodup`). A new binding and a projection change what cells stand for as `CellEnds.set` and
`CellEnds.projectOut` say.
-/

namespace StackCalculus

variable {V : Type}

namespace Substitution

/-- The chain of bindings from `x` ends in a value or in an unbound variable. -/
inductive Ends (s : Substitution V) : Var → Cell V → Prop where
  | unbound {x : Var} (hget : s.get? x = none) : Ends s x (.ref x)
  | value {x : Var} {v : V} (hget : s.get? x = some (.value v)) : Ends s x (.value v)
  | step {x y : Var} {c : Cell V} (hget : s.get? x = some (.ref y)) (hrest : Ends s y c) : Ends s x c

/-- Every chain of bindings ends. -/
def Acyclic (s : Substitution V) : Prop := ∀ x, ∃ c, s.Ends x c

/-! ## The trail of a chain

`Trail s x names c` also lists the names of the bound variables along the chain. -/

inductive Trail (s : Substitution V) : Var → List String → Cell V → Prop where
  | unbound {x : Var} (hget : s.get? x = none) : Trail s x [] (.ref x)
  | value {x : Var} {v : V} (hget : s.get? x = some (.value v)) : Trail s x [x.name] (.value v)
  | step {x y : Var} {names : List String} {c : Cell V} (hget : s.get? x = some (.ref y))
      (hrest : Trail s y names c) : Trail s x (x.name :: names) c

theorem Ends.trail {s : Substitution V} {x : Var} {c : Cell V} (h : s.Ends x c) :
    ∃ names, s.Trail x names c := by
  induction h with
  | unbound hget => exact ⟨[], .unbound hget⟩
  | value hget => exact ⟨_, .value hget⟩
  | step hget _ ih =>
    obtain ⟨names, hnames⟩ := ih
    exact ⟨_, .step hget hnames⟩

/-- A name has one trail: the bindings leave no choice. -/
theorem Trail.unique {s : Substitution V} {x x' : Var} {names names' : List String} {c c' : Cell V}
    (h : s.Trail x names c) (h' : s.Trail x' names' c') (hname : x.name = x'.name) :
    names = names' := by
  have hsame : ∀ {y y' : Var}, y.name = y'.name → s.get? y = s.get? y' := fun hy =>
    s.get?_congr (Var.beq_iff.mpr hy)
  induction h generalizing x' names' with
  | unbound hget =>
    rw [hsame hname] at hget
    cases h' with
    | unbound _ => rfl
    | value hget' => rw [hget] at hget'; cases hget'
    | step hget' _ => rw [hget] at hget'; cases hget'
  | value hget =>
    rw [hsame hname] at hget
    cases h' with
    | unbound hget' => rw [hget] at hget'; cases hget'
    | value _ => rw [hname]
    | step hget' _ => rw [hget] at hget'; cases hget'
  | step hget _ ih =>
    rw [hsame hname] at hget
    cases h' with
    | unbound hget' => rw [hget] at hget'; cases hget'
    | value hget' => rw [hget] at hget'; cases hget'
    | step hget' hrest' =>
      rw [hget] at hget'
      cases hget'
      rw [hname, ih hrest' rfl]

theorem Trail.mem {s : Substitution V} {x : Var} {names : List String} {c : Cell V}
    (h : s.Trail x names c) {name : String} (hmem : name ∈ names) :
    ∃ (z : Var) (tail : List String), z.name = name ∧ s.Trail z tail c ∧
      tail.length ≤ names.length := by
  induction h with
  | unbound _ => exact absurd hmem List.not_mem_nil
  | value hget => exact ⟨_, _, (List.mem_singleton.mp hmem).symm, .value hget, le_refl _⟩
  | step hget hrest ih =>
    rcases List.mem_cons.mp hmem with heq | hmem
    · exact ⟨_, _, heq.symm, .step hget hrest, le_refl _⟩
    · obtain ⟨z, tail, hz, htail, hlength⟩ := ih hmem
      exact ⟨z, tail, hz, htail, hlength.trans (Nat.le_succ _)⟩

/-- The bound names along a chain that ends are different from each other: from a name that came
back, the trail would be as long as the trail behind it. -/
theorem Trail.nodup {s : Substitution V} {x : Var} {names : List String} {c : Cell V}
    (h : s.Trail x names c) : names.Nodup := by
  induction h with
  | unbound _ => exact List.nodup_nil
  | value _ => exact List.nodup_singleton _
  | step hget hrest ih =>
    refine List.nodup_cons.mpr ⟨fun hmem => ?_, ih⟩
    obtain ⟨z, tail, hz, htail, hlength⟩ := hrest.mem hmem
    -- `tail` is part of the trail behind `x`, and yet it is the whole trail of `x` again.
    have heq := (Trail.step hget hrest).unique htail hz.symm
    rw [← heq, List.length_cons] at hlength
    omega

theorem Trail.subset {s : Substitution V} {x : Var} {names : List String} {c : Cell V}
    (h : s.Trail x names c) : names ⊆ s.bindings.names := by
  have hbound : ∀ {y : Var} {d : Cell V}, s.get? y = some d → y.name ∈ s.bindings.names := by
    intro y d hget
    obtain ⟨binding, hbinding, _⟩ := Option.map_eq_some_iff.mp hget
    exact NameMap.mem_names_iff.mpr ⟨binding, hbinding⟩
  induction h with
  | unbound _ => exact List.nil_subset _
  | value hget => exact List.cons_subset.mpr ⟨hbound hget, List.nil_subset _⟩
  | step hget _ ih => exact List.cons_subset.mpr ⟨hbound hget, ih⟩

theorem Trail.length_le {s : Substitution V} {x : Var} {names : List String} {c : Cell V}
    (h : s.Trail x names c) : names.length ≤ s.size := by
  have hle := (h.nodup.subperm h.subset).length_le
  rwa [NameMap.names, List.length_map] at hle

/-! ## Resolving -/

theorem Trail.follow {s : Substitution V} {x : Var} {names : List String} {c : Cell V}
    (h : s.Trail x names c) (start : Var) {budget : Nat} (hbudget : names.length < budget) :
    s.follow start budget x = .ok c := by
  induction h generalizing budget with
  | unbound hget =>
    obtain ⟨budget, rfl⟩ := Nat.exists_eq_add_one_of_ne_zero (Nat.ne_of_gt hbudget)
    rw [Substitution.follow, hget]
  | value hget =>
    obtain ⟨budget, rfl⟩ := Nat.exists_eq_add_one_of_ne_zero (Nat.ne_zero_of_lt hbudget)
    rw [Substitution.follow, hget]
  | step hget _ ih =>
    obtain ⟨budget, rfl⟩ := Nat.exists_eq_add_one_of_ne_zero (Nat.ne_zero_of_lt hbudget)
    rw [Substitution.follow, hget]
    rw [List.length_cons] at hbudget
    exact ih (by omega)

theorem ends_of_follow {s : Substitution V} {start x : Var} {budget : Nat} {c : Cell V}
    (h : s.follow start budget x = .ok c) : s.Ends x c := by
  induction budget generalizing x with
  | zero => cases h
  | succ budget ih =>
    rw [Substitution.follow] at h
    split at h
    · rename_i hget
      cases h
      exact .unbound hget
    · rename_i v hget
      cases h
      exact .value hget
    · rename_i y hget
      exact .step hget (ih h)

/-- Resolving gives exactly the end of the chain; the budget is always enough for a chain that
ends. -/
theorem resolve_eq_ok_iff (s : Substitution V) (x : Var) (c : Cell V) :
    s.resolve x = .ok c ↔ s.Ends x c := by
  constructor
  · exact ends_of_follow
  · intro h
    obtain ⟨names, hnames⟩ := h.trail
    exact hnames.follow x (Nat.lt_succ_of_le hnames.length_le)

/-- Resolving fails only by a cycle, which is reported by the name of the variable. -/
theorem eq_cyclicBinding_of_resolve {s : Substitution V} {x : Var} {e : Fault}
    (h : s.resolve x = .error e) : ∃ target, e = .cyclicBinding x.name target := by
  have hfollow : ∀ (budget : Nat) (y : Var), s.follow x budget y = .error e →
      ∃ target, e = .cyclicBinding x.name target := by
    intro budget
    induction budget with
    | zero =>
      intro y hy
      cases hy
      exact ⟨y.name, rfl⟩
    | succ budget ih =>
      intro y hy
      rw [Substitution.follow] at hy
      split at hy
      · cases hy
      · cases hy
      · exact ih _ hy
  exact hfollow _ x h

/-- What a cell stands for: a value for itself, a reference for the end of its chain. -/
def CellEnds (s : Substitution V) : Cell V → Cell V → Prop
  | .value v, c => c = .value v
  | .ref x, c => s.Ends x c

theorem resolveCell_eq_ok_iff (s : Substitution V) (d c : Cell V) :
    s.resolveCell d = .ok c ↔ s.CellEnds d c := by
  cases d with
  | value v => exact ⟨fun h => by cases h; rfl, fun h => by rw [h]; rfl⟩
  | ref x => exact s.resolve_eq_ok_iff x c

/-! ## Ends of chains -/

theorem Ends.unique {s : Substitution V} {x : Var} {c c' : Cell V} (h : s.Ends x c)
    (h' : s.Ends x c') : c = c' := by
  have hok := (s.resolve_eq_ok_iff x c).mpr h
  rw [(s.resolve_eq_ok_iff x c').mpr h'] at hok
  cases hok
  rfl

/-- A chain that ends in a variable ends in an unbound one. -/
theorem Ends.get?_eq_none {s : Substitution V} {x y : Var} (h : s.Ends x (.ref y)) :
    s.get? y = none := by
  generalize hc : (.ref y : Cell V) = c at h
  induction h with
  | unbound hget =>
    cases hc
    exact hget
  | value _ => cases hc
  | step _ _ ih => exact ih hc

theorem Ends.of_get? {s : Substitution V} {x : Var} {d c : Cell V} (h : s.Ends x c)
    (hget : s.get? x = some d) : s.CellEnds d c := by
  cases h with
  | unbound hget' => rw [hget] at hget'; cases hget'
  | value hget' =>
    rw [hget] at hget'
    cases hget'
    rfl
  | step hget' hrest =>
    rw [hget] at hget'
    cases hget'
    exact hrest

theorem CellEnds.ends {s : Substitution V} {x : Var} {d c : Cell V} (h : s.CellEnds d c)
    (hget : s.get? x = some d) : s.Ends x c := by
  cases d with
  | value v =>
    rw [show c = .value v from h]
    exact .value hget
  | ref y => exact .step hget h

theorem CellEnds.unique {s : Substitution V} {d c c' : Cell V} (h : s.CellEnds d c)
    (h' : s.CellEnds d c') : c = c' := by
  cases d with
  | value v =>
    have hc : c = .value v := h
    have hc' : c' = .value v := h'
    rw [hc, hc']
  | ref x => exact Ends.unique h h'

/-- What a cell stands for stands for itself. -/
theorem CellEnds.self {s : Substitution V} {d c : Cell V} (h : s.CellEnds d c) : s.CellEnds c c := by
  cases c with
  | value v => rfl
  | ref y =>
    cases d with
    | value v => cases h
    | ref x => exact .unbound (Ends.get?_eq_none h)

/-- A variable that is bound to itself has no end. -/
theorem Ends.ne_of_get? {s : Substitution V} {x y : Var} {c : Cell V} (h : s.Ends x c)
    (hget : s.get? x = some (.ref y)) : x.name ≠ y.name := by
  intro hname
  obtain ⟨names, hnames⟩ := h.trail
  cases hnames with
  | unbound hget' => rw [hget] at hget'; cases hget'
  | value hget' => rw [hget] at hget'; cases hget'
  | step hget' hrest =>
    rw [hget] at hget'
    cases hget'
    have heq := hrest.unique (Trail.step hget hrest) hname.symm
    exact absurd (congrArg List.length heq) (by simp)

/-- A bound variable is not an unbound one. -/
theorem not_beq_of_get? {s : Substitution V} {x y : Var} {d : Cell V} (hy : s.get? y = some d)
    (hx : s.get? x = none) : ¬ y == x := by
  intro heq
  rw [s.get?_congr heq, hx] at hy
  cases hy

/-! ## A new binding -/

/-- A chain that does not end in `x` does not notice a new binding of `x`. -/
theorem Ends.set_of_ne {s : Substitution V} {x z : Var} {d : Cell V} (h : s.Ends z d)
    (hx : s.get? x = none) (hd : d.refersTo x = false) (c : Cell V) : (s.set x c).Ends z d := by
  have hbound : ∀ {y : Var} {e : Cell V}, s.get? y = some e → (s.set x c).get? y = some e := by
    intro y e hget
    rw [get?_set, if_neg (not_beq_of_get? hget hx), hget]
  induction h with
  | @unbound y hget =>
    have hne : ¬ y == x := fun heq => Bool.noConfusion (hd.symm.trans heq)
    refine .unbound ?_
    rw [get?_set, if_neg hne, hget]
  | value hget => exact .value (hbound hget)
  | step hget _ ih => exact .step (hbound hget) (ih hd)

/-- A chain that ends in `x` goes on to the end of the cell that `x` is bound to. -/
theorem Ends.set_of_refersTo {s : Substitution V} {x z : Var} {d c e : Cell V} (h : s.Ends z d)
    (hx : s.get? x = none) (hd : d.refersTo x = true) (hc : s.CellEnds c e)
    (he : e.refersTo x = false) : (s.set x c).Ends z e := by
  induction h with
  | @unbound y hget =>
    -- The chain ended here, in `x`; now it goes on with the new binding.
    have hy : y == x := hd
    have hset : (s.set x c).get? y = some c := by
      rw [get?_set, if_pos hy]
    refine CellEnds.ends ?_ hset
    cases c with
    | value v => exact hc
    | ref w => exact Ends.set_of_ne hc hx he (.ref w)
  | value _ => exact absurd hd (by simp [Cell.refersTo])
  | @step y w d hget _ ih =>
    refine .step ?_ (ih hd)
    rw [get?_set, if_neg (not_beq_of_get? hget hx), hget]

/-- A new binding of `x` puts what the bound cell stands for in place of `x` at the ends of all
chains. -/
theorem CellEnds.set {s : Substitution V} {x : Var} {d e c f : Cell V} (h : s.CellEnds d e)
    (hx : s.get? x = none) (hc : s.CellEnds c f) (hfx : f.refersTo x = false) :
    (s.set x c).CellEnds d (Cell.replaceRef x f e) := by
  cases d with
  | value v =>
    have he : e = .value v := h
    rw [he]
    rfl
  | ref z =>
    cases e with
    | value v => exact Ends.set_of_ne h hx rfl c
    | ref y =>
      show (s.set x c).Ends z (if y == x then f else .ref y)
      split
      · rename_i hyx
        exact Ends.set_of_refersTo h hx hyx hc hfx
      · rename_i hyx
        exact Ends.set_of_ne h hx (Bool.eq_false_iff.mpr hyx) c

theorem contains_eq_false_iff {s : Substitution V} {x : Var} : s.contains x = false ↔ s.get? x = none := by
  rw [contains, Option.isSome_eq_false_iff, Option.isNone_iff_eq_none]

/-- A binding of an unbound variable to a reference is decided by the end of its chain. -/
theorem bind_ref [DecidableEq V] {σ : Substitution V} {x y : Var} {e : Cell V}
    (hget : σ.get? x = none) (hy : σ.Ends y e) :
    σ.bind x (.ref y) =
      if e.refersTo x then .error (.cyclicBinding x.name y.name) else .ok (σ.set x (.ref y)) := by
  have hself : (e == .ref x) = e.refersTo x := by cases e <;> rfl
  unfold Substitution.bind
  rw [contains_eq_false_iff.mpr hget, ← hself]
  show (σ.resolve y >>= _) = _
  rw [(σ.resolve_eq_ok_iff y e).mpr hy]
  rfl

/-- Binding an unbound variable to a cell that stands for something else always succeeds. -/
theorem bind_eq_ok [DecidableEq V] {σ : Substitution V} {x : Var} {c e : Cell V}
    (hget : σ.get? x = none) (hc : σ.CellEnds c e) (hex : e.refersTo x = false) :
    σ.bind x c = .ok (σ.set x c) := by
  cases c with
  | value v =>
    unfold Substitution.bind
    rw [contains_eq_false_iff.mpr hget]
    rfl
  | ref y =>
    rw [bind_ref hget hc, hex]
    rfl

/-! ## A projection -/

/-- Chains that start elsewhere end where they did after `x` is projected out. -/
theorem Ends.projectOut {s : Substitution V} {x z : Var} {cell d : Cell V} (h : s.Ends z d)
    (hx : s.get? x = some cell) (hz : ¬ z == x) : (s.projectOut x).Ends z d := by
  have hget' := s.get?_projectOut_of_bound hx
  -- The induction also covers chains that start in `x`: there the binding of `x` has the same end.
  have hboth : if z == x then (s.projectOut x).CellEnds cell d else (s.projectOut x).Ends z d := by
    clear hz
    induction h with
    | @unbound y hget =>
      have hne : ¬ y == x := fun heq => not_beq_of_get? hx hget (BEq.symm heq)
      rw [if_neg hne]
      refine .unbound ?_
      rw [hget', if_neg hne, hget]
      rfl
    | @value y v hget =>
      split
      · rename_i heq
        rw [s.get?_congr heq, hx] at hget
        cases hget
        rfl
      · rename_i hne
        refine .value ?_
        rw [hget', if_neg hne, hget]
        rfl
    | @step y w d hget hrest ih =>
      have hloop := Ends.ne_of_get? (.step hget hrest) hget
      split
      · rename_i heq
        -- The chain starts in `x`. It does not come back, so the rest of it is the other case.
        have hw : ¬ w == x := fun h => hloop ((Var.beq_iff.mp heq).trans (Var.beq_iff.mp h).symm)
        rw [if_neg hw] at ih
        rw [s.get?_congr heq, hx] at hget
        cases hget
        exact ih
      · rename_i hne
        have hnew : (s.projectOut x).get? y = some (Cell.replaceRef x cell (.ref w)) := by
          rw [hget', if_neg hne, hget]
          rfl
        -- A link to `x` has become a link to the cell that `x` was bound to.
        refine CellEnds.ends ?_ hnew
        show (s.projectOut x).CellEnds (if w == x then cell else .ref w) d
        split
        · rename_i hw
          rwa [if_pos hw] at ih
        · rename_i hw
          rwa [if_neg hw] at ih
  rwa [if_neg hz] at hboth

/-- Cells stand for what they did, if the binding of `x` is put in place of `x`. -/
theorem CellEnds.projectOut {s : Substitution V} {x : Var} {cell d e : Cell V} (h : s.CellEnds d e)
    (hx : s.get? x = some cell) : (s.projectOut x).CellEnds (Cell.replaceRef x cell d) e := by
  cases d with
  | value v => exact h
  | ref z =>
    have hends : s.Ends z e := h
    show (s.projectOut x).CellEnds (if z == x then cell else .ref z) e
    split
    · rename_i hzx
      have hz : s.get? z = some cell := (s.get?_congr hzx).trans hx
      cases cell with
      | value v => exact hends.of_get? hz
      | ref w =>
        -- A variable bound to itself would have no end.
        have hwx : ¬ w == x := fun hwx => hends.ne_of_get? hz
          ((Var.beq_iff.mp hzx).trans (Var.beq_iff.mp hwx).symm)
        exact Ends.projectOut (hends.of_get? hz) hx hwx
    · rename_i hzx
      exact hends.projectOut hx hzx

theorem get?_projectOut_self (s : Substitution V) (x : Var) : (s.projectOut x).get? x = none := by
  cases hx : s.get? x with
  | none => rw [s.projectOut_of_unbound hx, hx]
  | some cell => rw [s.get?_projectOut_of_bound hx, if_pos (BEq.refl x)]

end Substitution

/-- A term evaluates to a value or to an unbound variable. -/
theorem Term.cellEnds_of_evaluateUnder {s : Substitution V} {t : Term V} {c : Cell V}
    (h : t.evaluateUnder s = .ok c) : s.CellEnds c c := by
  cases t with
  | var x =>
    rw [Term.evaluateUnder, Substitution.resolve_eq_ok_iff] at h
    exact Substitution.CellEnds.self (show s.CellEnds (.ref x) c from h)
  | func label arity args rule =>
    rw [Term.evaluateUnder] at h
    split at h
    · obtain ⟨values, _, h⟩ := bind_eq_ok_iff.mp h
      cases h
      rfl
    · cases h

end StackCalculus
