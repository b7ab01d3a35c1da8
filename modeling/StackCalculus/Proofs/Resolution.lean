import Mathlib
import StackCalculus.Proofs.Invariant.Acyclic

/-!
# Resolving and binding

`behind?` walks along a chain of bindings one link at a time and keeps no budget, so a chain can be
followed for ever. Resolving looks at as many variables as there are bindings and one more; this is
enough for every chain that ends, and a chain that outlasts it never ends
(`Substitution.resolve_exact`). A new binding makes the chains that ended in its variable go on to the
end of the bound cell and leaves all others alone; it is refused exactly when the variable is bound
already or when the cell leads back to it (`Substitution.bind_extends`).
-/

namespace StackCalculus.Substitution

variable {V : Type} {s : Substitution V} {x y : Var} {c d : Cell V} {n : Nat}

/-! ## Walking along a chain -/

/-- The variable that `x` is bound to, if its binding is a reference. -/
def link? (s : Substitution V) (x : Var) : Option Var := (s.get? x).bind Cell.asVar?

/-- The variable that stands `n` links behind another one, if the chain is that long. -/
def behind? (s : Substitution V) : (n : Nat) → Var → Option Var
  | 0, x => some x
  | n + 1, x => (s.link? x).bind (s.behind? n)

/-- A chain ends in `x`, and `c` is what it ends with: the value of `x`, or `x` itself if it is
unbound. -/
def Closes (s : Substitution V) (x : Var) (c : Cell V) : Prop :=
  match s.get? x with
  | none => c = .ref x
  | some (.value v) => c = .value v
  | some (.ref _) => False

/-- After `n` links the chain from `x` ends, with the cell `c`. -/
def EndsAfter (s : Substitution V) (x : Var) (n : Nat) (c : Cell V) : Prop :=
  ∃ y, s.behind? n x = some y ∧ s.Closes y c

theorem link?_eq_some_iff : s.link? x = some y ↔ s.get? x = some (.ref y) := by
  unfold link?
  cases s.get? x with
  | none => simp
  | some d => cases d <;> simp [Cell.asVar?]

/-- From a variable there is a link, or the chain ends there. -/
theorem closes_iff : (∃ c, s.Closes x c) ↔ s.link? x = none := by
  unfold Closes link?
  cases s.get? x with
  | none => simp
  | some d => cases d <;> simp [Cell.asVar?]

theorem behind?_succ (s : Substitution V) (n : Nat) (x : Var) :
    s.behind? (n + 1) x = (s.behind? n x).bind s.link? := by
  induction n generalizing x with
  | zero => exact (Option.bind_fun_some _).trans (Option.bind_some ..).symm
  | succ n ih =>
    rw [behind?, behind?, Option.bind_assoc]
    exact congrArg _ (funext ih)

theorem endsAfter_zero : s.EndsAfter x 0 c ↔ s.Closes x c := by
  simp [EndsAfter, behind?]

theorem endsAfter_succ : s.EndsAfter x (n + 1) c ↔ ∃ y, s.link? x = some y ∧ s.EndsAfter y n c := by
  unfold EndsAfter
  simp only [behind?, Option.bind_eq_some_iff]
  grind

theorem EndsAfter.unique {m : Nat} (h : s.EndsAfter x n c) (h' : s.EndsAfter x m d) : n = m := by
  have hlast : ∀ {x y : Var} {c : Cell V}, s.Closes x c → s.link? x ≠ some y := by
    intro x y c hcloses hlink
    rw [closes_iff.mp ⟨c, hcloses⟩] at hlink
    cases hlink
  induction n generalizing x m with
  | zero =>
    cases m with
    | zero => rfl
    | succ m =>
      obtain ⟨y, hlink, _⟩ := endsAfter_succ.mp h'
      exact absurd hlink (hlast (endsAfter_zero.mp h))
  | succ n ih =>
    obtain ⟨y, hlink, hrest⟩ := endsAfter_succ.mp h
    cases m with
    | zero => exact absurd hlink (hlast (endsAfter_zero.mp h'))
    | succ m =>
      obtain ⟨y', hlink', hrest'⟩ := endsAfter_succ.mp h'
      obtain rfl := Option.some.inj (hlink.symm.trans hlink')
      rw [ih hrest hrest']

/-- The walk comes to the end of a chain that ends. -/
theorem ends_iff_endsAfter : s.Ends x c ↔ ∃ n, s.EndsAfter x n c := by
  constructor
  · intro h
    induction h with
    | unbound hget => exact ⟨0, endsAfter_zero.mpr (by rw [Closes, hget])⟩
    | value hget => exact ⟨0, endsAfter_zero.mpr (by rw [Closes, hget])⟩
    | step hget _ ih =>
      obtain ⟨n, hn⟩ := ih
      exact ⟨n + 1, endsAfter_succ.mpr ⟨_, link?_eq_some_iff.mpr hget, hn⟩⟩
  · rintro ⟨n, hn⟩
    induction n generalizing x with
    | zero =>
      have hcloses := endsAfter_zero.mp hn
      unfold Closes at hcloses
      split at hcloses
      · next hget => exact hcloses ▸ .unbound hget
      · next hget => exact hcloses ▸ .value hget
      · exact hcloses.elim
    | succ n ih =>
      obtain ⟨y, hlink, hrest⟩ := endsAfter_succ.mp hn
      exact .step (link?_eq_some_iff.mp hlink) (ih hrest)

/-- A chain without an end has a variable behind every number of links. -/
theorem isSome_behind?_iff : (∀ n, (s.behind? n x).isSome) ↔ ¬ ∃ n c, s.EndsAfter x n c := by
  constructor
  · rintro h ⟨n, c, y, hy, hcloses⟩
    have hnext := h (n + 1)
    rw [behind?_succ, hy, Option.bind_some, closes_iff.mp ⟨c, hcloses⟩] at hnext
    cases hnext
  · intro h n
    induction n with
    | zero => rfl
    | succ n ih =>
      obtain ⟨y, hy⟩ := Option.isSome_iff_exists.mp ih
      rw [behind?_succ, hy, Option.bind_some, Option.isSome_iff_ne_none]
      intro hlink
      obtain ⟨c, hcloses⟩ := closes_iff.mpr hlink
      exact h ⟨n, c, y, hy, hcloses⟩

/-! ## Following with a budget -/

/-- A budget is enough for the chains with fewer links. -/
theorem follow_eq_ok_iff {start : Var} {budget : Nat} :
    s.follow start budget x = .ok c ↔ ∃ n < budget, s.EndsAfter x n c := by
  induction budget generalizing x with
  | zero => simp [follow]
  | succ budget ih =>
    simp only [Nat.exists_lt_succ_left, endsAfter_zero, endsAfter_succ]
    rw [follow, link?, Closes]
    split
    · next hget => simp [hget, eq_comm]
    · next hget => simp [hget, Cell.asVar?, eq_comm]
    · next hget => simpa [hget, Cell.asVar?] using ih

/-- A budget is used up on the chains with as many links, and the fault names the start and the
variable that comes next. -/
theorem follow_eq_error_iff {start : Var} {budget : Nat} {e : Fault} :
    s.follow start budget x = .error e ↔
      ∃ y, s.behind? budget x = some y ∧ e = .cyclicBinding start.name y.name := by
  induction budget generalizing x with
  | zero => simp [follow, behind?, eq_comm]
  | succ budget ih =>
    rw [follow, behind?, link?]
    split
    · next hget => simp [hget]
    · next hget => simp [hget, Cell.asVar?]
    · next hget => simpa [hget, Cell.asVar?] using ih

/-- Resolving is exact on every substitution, cyclic or not. It succeeds exactly when the chain ends,
with the value or the unbound variable at its end, and it reports a cycle under the name of `x`
exactly when the chain goes on for ever. No chain that ends has more links than there are bindings, so
it is found within the budget. -/
theorem resolve_exact (s : Substitution V) (x : Var) :
    (∀ c, s.resolve x = .ok c ↔ ∃ n, s.EndsAfter x n c) ∧
      ((∃ target, s.resolve x = .error (.cyclicBinding x.name target)) ↔
        ∀ n, (s.behind? n x).isSome) ∧
      ∀ n c, s.EndsAfter x n c → n ≤ s.size := by
  have hok : ∀ c, s.resolve x = .ok c ↔ ∃ n, s.EndsAfter x n c := fun c =>
    (s.resolve_eq_ok_iff x c).trans ends_iff_endsAfter
  refine ⟨hok, ⟨?_, fun hlong => ?_⟩, fun n c hn => ?_⟩
  · rintro ⟨target, herror⟩
    refine isSome_behind?_iff.mpr ?_
    rintro ⟨n, c, hn⟩
    rw [(hok c).mpr ⟨n, hn⟩] at herror
    cases herror
  · obtain ⟨y, hy⟩ := Option.isSome_iff_exists.mp (hlong (s.size + 1))
    exact ⟨y.name, follow_eq_error_iff.mpr ⟨y, hy, rfl⟩⟩
  · obtain ⟨m, hm, hends⟩ := follow_eq_ok_iff.mp ((hok c).mpr ⟨n, hn⟩)
    rw [hn.unique hends]
    exact Nat.le_of_lt_succ hm

/-- Two bindings on one chain to an unbound variable take three look-ups, all that there are. Behind
`d` the chain runs into a cycle, which is reported by the name of `d`. -/
example :
    let chain : Substitution String :=
      .ofList [(⟨"a", false⟩, .ref ⟨"b", false⟩), (⟨"b", false⟩, .ref ⟨"c", false⟩)]
    let tailed : Substitution String :=
      .ofList [(⟨"d", false⟩, .ref ⟨"a", false⟩), (⟨"a", false⟩, .ref ⟨"b", false⟩),
        (⟨"b", false⟩, .ref ⟨"a", false⟩)]
    chain.resolve ⟨"a", false⟩ = .ok (.ref ⟨"c", false⟩) ∧
      tailed.resolve ⟨"d", false⟩ = .error (.cyclicBinding "d" "b") := by
  exact ⟨by cbv, by cbv⟩

/-! ## A new binding -/

/-- What a cell stands for is the unbound variable `x`. -/
def LeadsTo (s : Substitution V) (c : Cell V) (x : Var) : Prop :=
  ∃ y, s.resolveCell c = .ok (.ref y) ∧ y == x

theorem leadsTo_iff (h : s.CellEnds c d) : s.LeadsTo c x ↔ d.refersTo x = true := by
  unfold LeadsTo
  rw [(s.resolveCell_eq_ok_iff c d).mpr h]
  cases d <;> simp [Cell.refersTo]

/-- `s'` is `s` with a binding of `x` to a cell. Chains that ended in `x` go on to the end of the cell,
and all others end where they did. -/
structure BoundTo (s : Substitution V) (x : Var) (cell : Cell V) (s' : Substitution V) : Prop where
  acyclic : s'.Acyclic
  get?_self : s'.get? x = some cell
  get?_other : ∀ z, ¬ z == x → s'.get? z = s.get? z
  resolve_through : ∀ z, s.LeadsTo (.ref z) x → s'.resolve z = s.resolveCell cell
  resolve_beside : ∀ z, ¬ s.LeadsTo (.ref z) x → s'.resolve z = s.resolve z

/-- An unbound variable may be bound to every cell that does not lead back to it. -/
theorem Acyclic.boundTo_set (h : s.Acyclic) (hx : s.get? x = none) (hc : s.CellEnds c d)
    (hdx : d.refersTo x = false) : s.BoundTo x c (s.set x c) := by
  have hset : ∀ {z : Var} {e : Cell V}, s.Ends z e → (s.set x c).Ends z (Cell.replaceRef x d e) :=
    fun hz => CellEnds.set (show s.CellEnds (.ref _) _ from hz) hx hc hdx
  constructor
  case acyclic => exact h.set hx hc hdx
  case get?_self => rw [get?_set, if_pos (BEq.refl x)]
  case get?_other =>
    intro z hzx
    rw [get?_set, if_neg hzx]
  case resolve_through =>
    rintro z ⟨y, hy, hyx⟩
    have hnew := hset ((s.resolve_eq_ok_iff z _).mp hy)
    rw [Cell.replaceRef, if_pos hyx] at hnew
    rw [(s.resolveCell_eq_ok_iff c d).mpr hc, resolve_eq_ok_iff]
    exact hnew
  case resolve_beside =>
    intro z hz
    obtain ⟨e, he⟩ := h z
    have hex : e.refersTo x = false := Bool.eq_false_iff.mpr fun hex =>
      hz ((leadsTo_iff (show s.CellEnds (.ref z) e from he)).mpr hex)
    have hnew := hset he
    rw [Cell.replaceRef_of_refersTo_eq_false hex] at hnew
    rw [(s.resolve_eq_ok_iff z e).mpr he, resolve_eq_ok_iff]
    exact hnew

section Bind

variable [DecidableEq V]

theorem bind_of_contains (h : s.contains x = true) (cell : Cell V) :
    s.bind x cell = .error (.alreadyBound x.name) := by
  unfold Substitution.bind
  exact if_pos h

theorem bind_of_leadsTo (hx : s.get? x = none) {cell : Cell V} (hcell : s.LeadsTo cell x) :
    ∃ y, cell = .ref y ∧ s.bind x cell = .error (.cyclicBinding x.name y.name) := by
  obtain ⟨z, hz, hzx⟩ := hcell
  cases cell with
  | value v => cases hz
  | ref y =>
    have hy : s.Ends y (.ref z) := (s.resolve_eq_ok_iff y _).mp hz
    exact ⟨y, rfl, (bind_ref hx hy).trans (if_pos hzx)⟩

/-- Binding without cycles. A variable that is bound is refused, and so is a cell that leads back to
the variable; every other binding is made, and changes the ends of just those chains that ended in the
variable. -/
theorem bind_extends (h : s.Acyclic) (x : Var) (cell : Cell V) :
    (s.bind x cell = .error (.alreadyBound x.name) ↔ s.contains x = true) ∧
      ((∃ y, cell = .ref y ∧ s.bind x cell = .error (.cyclicBinding x.name y.name)) ↔
        s.contains x = false ∧ s.LeadsTo cell x) ∧
      (s.contains x = false → ¬ s.LeadsTo cell x →
        ∃ s', s.bind x cell = .ok s' ∧ s.BoundTo x cell s') := by
  obtain ⟨e, he⟩ := h.exists_cellEnds cell
  cases hx : s.contains x with
  | true =>
    rw [bind_of_contains hx]
    simp
  | false =>
    have hget : s.get? x = none := contains_eq_false_iff.mp hx
    rw [leadsTo_iff he]
    cases hex : e.refersTo x with
    | true =>
      obtain ⟨y, rfl, hbind⟩ := bind_of_leadsTo hget ((leadsTo_iff he).mpr hex)
      rw [hbind]
      simp
    | false =>
      rw [bind_eq_ok hget he hex]
      simp [h.boundTo_set hget he hex]

/-- A chain from `z` by way of `y` to `x`, and one from `a` to `b`. -/
def twoBranches : Substitution String :=
  .ofList [(⟨"a", false⟩, .ref ⟨"b", true⟩), (⟨"y", false⟩, .ref ⟨"x", true⟩),
    (⟨"z", false⟩, .ref ⟨"y", false⟩)]

/-- A binding of `x` to `a` takes `z` on to `b`. The variable `y` is bound already, and a binding of
`x` to `z` would close a cycle of three links. -/
theorem bind_extends_twoBranches :
    twoBranches.Acyclic ∧
      twoBranches.bind ⟨"y", false⟩ (.value "v") = .error (.alreadyBound "y") ∧
      (∃ y, Cell.ref ⟨"z", false⟩ = (.ref y : Cell String) ∧
        twoBranches.bind ⟨"x", false⟩ (.ref ⟨"z", false⟩) = .error (.cyclicBinding "x" y.name)) ∧
      ∃ s', twoBranches.bind ⟨"x", false⟩ (.ref ⟨"a", false⟩) = .ok s' ∧
        twoBranches.BoundTo ⟨"x", false⟩ (.ref ⟨"a", false⟩) s' ∧
        s'.resolve ⟨"z", false⟩ = .ok (.ref ⟨"b", true⟩) := by
  have hacyclic : twoBranches.Acyclic := by decide +kernel
  have hz : twoBranches.resolveCell (.ref ⟨"z", false⟩) = .ok (.ref ⟨"x", true⟩) := by cbv
  have ha : twoBranches.resolveCell (.ref ⟨"a", false⟩) = .ok (.ref ⟨"b", true⟩) := by cbv
  have hleads : twoBranches.LeadsTo (.ref ⟨"z", false⟩) ⟨"x", false⟩ := ⟨_, hz, by decide⟩
  have hbeside : ¬ twoBranches.LeadsTo (.ref ⟨"a", false⟩) ⟨"x", false⟩ := by
    rintro ⟨y, hy, hyx⟩
    cases ha.symm.trans hy
    exact absurd hyx (by decide)
  obtain ⟨hbound, _, _⟩ := bind_extends hacyclic ⟨"y", false⟩ (.value "v")
  obtain ⟨_, hcycle, _⟩ := bind_extends hacyclic ⟨"x", false⟩ (.ref ⟨"z", false⟩)
  obtain ⟨_, _, hok⟩ := bind_extends hacyclic ⟨"x", false⟩ (.ref ⟨"a", false⟩)
  obtain ⟨s', hbind, hs'⟩ := hok (by decide +kernel) hbeside
  refine ⟨hacyclic, hbound.mpr (by decide +kernel), hcycle.mpr ⟨by decide +kernel, hleads⟩, s', hbind,
    hs', ?_⟩
  rw [hs'.resolve_through _ hleads, ha]

end Bind

end StackCalculus.Substitution
