import Mathlib
import StackCalculus.Equality
import StackCalculus.Proofs.Chain
import StackCalculus.Proofs.Fresh
import StackCalculus.Proofs.Memory
import StackCalculus.Proofs.Result

/-!
# Renaming the names of a state

A bijection `π` of names acts on everything that mentions variables. `Renamed π` relates a cell, a
substitution, a memory or a state with its image under `π`, where the local flags of variables do not
matter. Every operation takes images to images: this is the equivariance of the calculus. With the
identity in place of `π` the relation is the equality of states (`State.renamed_one_iff`), so the same
lemmas say that no operation looks at a local flag.
-/

namespace StackCalculus

variable {V : Type} (π : Equiv.Perm String)

/-! ## Variables and cells -/

/-- `y` has the name that `π` gives to the name of `x`. -/
def Var.Renamed (x y : Var) : Prop := π x.name = y.name

/-- The same value, or references to corresponding variables. -/
inductive Cell.Renamed : Cell V → Cell V → Prop where
  | value (v : V) : Cell.Renamed (.value v) (.value v)
  | ref {x y : Var} (h : x.Renamed π y) : Cell.Renamed (.ref x) (.ref y)

variable {π}

theorem Var.Renamed.beq_eq {x x' y y' : Var} (hx : x.Renamed π x') (hy : y.Renamed π y') :
    (x == y) = (x' == y') := by
  rw [Bool.eq_iff_iff, Var.beq_iff, Var.beq_iff, ← hx, ← hy, π.injective.eq_iff]

theorem Var.exists_renamed (π : Equiv.Perm String) (y : Var) : ∃ x : Var, x.Renamed π y :=
  ⟨⟨π.symm y.name, y.isLocal⟩, π.apply_symm_apply y.name⟩

namespace Cell.Renamed

theorem refersTo_eq {c c' : Cell V} {x x' : Var} (hc : c.Renamed π c') (hx : x.Renamed π x') :
    c.refersTo x = c'.refersTo x' := by
  cases hc with
  | value v => rfl
  | ref hy => exact hy.beq_eq hx

theorem replaceRef {c c' r r' : Cell V} {x x' : Var} (hc : c.Renamed π c') (hx : x.Renamed π x')
    (hr : r.Renamed π r') : (Cell.replaceRef x r c).Renamed π (Cell.replaceRef x' r' c') := by
  cases hc with
  | value v => exact .value v
  | @ref y y' hy =>
    show Cell.Renamed π (if y == x then r else .ref y) (if y' == x' then r' else .ref y')
    rw [hy.beq_eq hx]
    split
    · exact hr
    · exact .ref hy

theorem beq_ref_eq [DecidableEq V] {c c' : Cell V} {x x' : Var} (hc : c.Renamed π c')
    (hx : x.Renamed π x') : (c == .ref x) = (c' == .ref x') := by
  cases hc with
  | value v => rfl
  | ref hy => exact hy.beq_eq hx

theorem beq_value_eq [DecidableEq V] {c c' : Cell V} (hc : c.Renamed π c') (v : V) :
    (c == .value v) = (c' == .value v) := by
  cases hc <;> rfl

end Cell.Renamed

/-! ## Substitutions -/

/-- Corresponding variables are bound to corresponding cells, or unbound. -/
def Substitution.Renamed (π : Equiv.Perm String) (s s' : Substitution V) : Prop :=
  ∀ x x', x.Renamed π x' → Option.Rel (Cell.Renamed π) (s.get? x) (s'.get? x')

namespace Substitution.Renamed

variable {s s' : Substitution V} {x x' : Var}

theorem get?_eq_none (h : s.Renamed π s') (hx : x.Renamed π x') (hget : s.get? x = none) :
    s'.get? x' = none := by
  have hrel := h x x' hx
  rw [hget] at hrel
  generalize s'.get? x' = o at hrel
  cases hrel
  rfl

theorem get?_eq_some (h : s.Renamed π s') (hx : x.Renamed π x') {c : Cell V}
    (hget : s.get? x = some c) : ∃ c', s'.get? x' = some c' ∧ c.Renamed π c' := by
  have hrel := h x x' hx
  rw [hget] at hrel
  generalize s'.get? x' = o at hrel ⊢
  cases hrel with
  | some hc => exact ⟨_, rfl, hc⟩

theorem contains_eq (h : s.Renamed π s') (hx : x.Renamed π x') :
    s.contains x = s'.contains x' := by
  cases hget : s.get? x with
  | none => simp only [Substitution.contains, hget, h.get?_eq_none hx hget]
  | some c =>
    obtain ⟨c', hget', _⟩ := h.get?_eq_some hx hget
    simp only [Substitution.contains, hget, hget', Option.isSome_some]

theorem ends (h : s.Renamed π s') (hx : x.Renamed π x') {c : Cell V} (hends : s.Ends x c) :
    ∃ c', s'.Ends x' c' ∧ c.Renamed π c' := by
  induction hends generalizing x' with
  | unbound hget => exact ⟨.ref x', .unbound (h.get?_eq_none hx hget), .ref hx⟩
  | value hget =>
    obtain ⟨c', hget', hc⟩ := h.get?_eq_some hx hget
    cases hc
    exact ⟨_, .value hget', .value _⟩
  | step hget _ ih =>
    obtain ⟨c', hget', hc⟩ := h.get?_eq_some hx hget
    cases hc with
    | ref hy =>
      obtain ⟨d, hd, hcd⟩ := ih hy
      exact ⟨d, .step hget' hd, hcd⟩

theorem exists_ends (h : s.Renamed π s') (hx : x.Renamed π x') {c' : Cell V}
    (hends : s'.Ends x' c') : ∃ c, s.Ends x c := by
  induction hends generalizing x with
  | @unbound x' hget' =>
    cases hget : s.get? x with
    | none => exact ⟨_, .unbound hget⟩
    | some c =>
      obtain ⟨c', hsome, _⟩ := h.get?_eq_some hx hget
      rw [hget'] at hsome
      cases hsome
  | @value x' v hget' =>
    cases hget : s.get? x with
    | none => exact ⟨_, .unbound hget⟩
    | some c =>
      obtain ⟨c', hsome, hc⟩ := h.get?_eq_some hx hget
      rw [hget'] at hsome
      cases hsome
      cases hc
      exact ⟨_, .value hget⟩
  | @step x' y' c' hget' _ ih =>
    cases hget : s.get? x with
    | none => exact ⟨_, .unbound hget⟩
    | some c =>
      obtain ⟨c', hsome, hc⟩ := h.get?_eq_some hx hget
      rw [hget'] at hsome
      cases hsome
      cases hc with
      | ref hy =>
        obtain ⟨d, hd⟩ := ih hy
        exact ⟨d, .step hget hd⟩

end Substitution.Renamed

/-- A fault of resolving is a cycle, which ends the run. -/
theorem Substitution.isBranchFailure_of_resolve {s : Substitution V} {x : Var} {e : Fault}
    (h : s.resolve x = .error e) : e.isBranchFailure = false := by
  obtain ⟨target, rfl⟩ := eq_cyclicBinding_of_resolve h
  rfl

namespace Substitution.Renamed

variable {s s' : Substitution V} {x x' : Var}

theorem resolve (h : s.Renamed π s') (hx : x.Renamed π x') :
    Alike SameFate (Cell.Renamed π) (s.resolve x) (s'.resolve x') := by
  refine Alike.of_exists (fun c hc => ?_) (fun c' hc' => ?_) fun e e' he he' => ?_
  · obtain ⟨c', hc', hrel⟩ := h.ends hx ((s.resolve_eq_ok_iff x c).mp hc)
    exact ⟨c', (s'.resolve_eq_ok_iff x' c').mpr hc', hrel⟩
  · obtain ⟨c, hc⟩ := h.exists_ends hx ((s'.resolve_eq_ok_iff x' c').mp hc')
    exact ⟨c, (s.resolve_eq_ok_iff x c).mpr hc⟩
  · exact (isBranchFailure_of_resolve he).trans (isBranchFailure_of_resolve he').symm

theorem resolveCell (h : s.Renamed π s') {c c' : Cell V} (hc : c.Renamed π c') :
    Alike SameFate (Cell.Renamed π) (s.resolveCell c) (s'.resolveCell c') := by
  cases hc with
  | value v => exact .ok (.value v)
  | ref hx => exact h.resolve hx

theorem set (h : s.Renamed π s') (hx : x.Renamed π x') {c c' : Cell V} (hc : c.Renamed π c') :
    (s.set x c).Renamed π (s'.set x' c') := by
  intro y y' hy
  rw [get?_set, get?_set, hy.beq_eq hx]
  split
  · exact .some hc
  · exact h y y' hy

theorem bind [DecidableEq V] (h : s.Renamed π s') (hx : x.Renamed π x') {c c' : Cell V}
    (hc : c.Renamed π c') :
    Alike SameFate (Substitution.Renamed π) (s.bind x c) (s'.bind x' c') := by
  unfold Substitution.bind
  rw [h.contains_eq hx]
  split
  · exact .error rfl
  · cases hc with
    | value v => exact .ok (h.set hx (.value v))
    | ref hy =>
      refine (h.resolve hy).bind fun last last' hlast => ?_
      rw [hlast.beq_ref_eq hx]
      split
      · exact .error rfl
      · exact .ok (h.set hx (.ref hy))

theorem matchCell [DecidableEq V] [ToString V] (h : s.Renamed π s')
    {expected expected' popped popped' : Cell V} (hexpected : expected.Renamed π expected')
    (hpopped : popped.Renamed π popped') :
    Alike SameFate (Substitution.Renamed π) (s.matchCell expected popped)
      (s'.matchCell expected' popped') := by
  unfold Substitution.matchCell
  cases hexpected with
  | value v =>
    simp only [hpopped.beq_value_eq v]
    split
    · exact .ok h
    · exact .error rfl
  | ref hx =>
    simp only [hpopped.beq_ref_eq hx]
    split
    · exact .error rfl
    · exact h.bind hx hpopped

theorem projectOut (h : s.Renamed π s') (hx : x.Renamed π x') :
    (s.projectOut x).Renamed π (s'.projectOut x') := by
  cases hget : s.get? x with
  | none =>
    rw [s.projectOut_of_unbound hget, s'.projectOut_of_unbound (h.get?_eq_none hx hget)]
    exact h
  | some c =>
    obtain ⟨c', hget', hc⟩ := h.get?_eq_some hx hget
    intro y y' hy
    rw [get?_projectOut_of_bound _ hget, get?_projectOut_of_bound _ hget', hy.beq_eq hx]
    split
    · exact .none
    · have hrel := h y y' hy
      generalize s.get? y = o at hrel ⊢
      generalize s'.get? y' = o' at hrel ⊢
      cases hrel with
      | none => exact .none
      | some hd => exact .some (hd.replaceRef hx hc)

theorem mentions_eq (h : s.Renamed π s') (hx : x.Renamed π x') :
    s.mentions x = s'.mentions x' := by
  rw [Bool.eq_iff_iff, Substitution.mentions_iff, Substitution.mentions_iff]
  constructor
  · rintro (⟨c, hget⟩ | ⟨z, c, hget, href⟩)
    · obtain ⟨c', hget', _⟩ := h.get?_eq_some hx hget
      exact Or.inl ⟨c', hget'⟩
    · let z' : Var := ⟨π z.name, false⟩
      have hz : z.Renamed π z' := rfl
      obtain ⟨c', hget', hc⟩ := h.get?_eq_some hz hget
      exact Or.inr ⟨z', c', hget', (hc.refersTo_eq hx).symm.trans href⟩
  · rintro (⟨c', hget'⟩ | ⟨z', c', hget', href⟩)
    · cases hget : s.get? x with
      | none =>
        rw [h.get?_eq_none hx hget] at hget'
        cases hget'
      | some c => exact Or.inl ⟨c, rfl⟩
    · obtain ⟨z, hz⟩ := Var.exists_renamed π z'
      cases hget : s.get? z with
      | none =>
        rw [h.get?_eq_none hz hget] at hget'
        cases hget'
      | some c =>
        obtain ⟨d, hd, hc⟩ := h.get?_eq_some hz hget
        rw [hget'] at hd
        cases hd
        exact Or.inr ⟨z, c, hget, (hc.refersTo_eq hx).trans href⟩

end Substitution.Renamed

/-! ## Memories -/

theorem Stack.mentions_eq_of_related {s s' : Stack V} {x x' : Var}
    (h : s.Related (Cell.Renamed π) s') (hx : x.Renamed π x') : s.mentions x = s'.mentions x' := by
  have hcells : ∀ {cs cs' : List (Cell V)}, List.Forall₂ (Cell.Renamed π) cs cs' →
      cs.any (Cell.refersTo x) = cs'.any (Cell.refersTo x') := by
    intro cs cs' hcs
    induction hcs with
    | nil => rfl
    | cons hc _ ih => rw [List.any_cons, List.any_cons, hc.refersTo_eq hx, ih]
  exact hcells h

theorem Memory.mentions_eq_of_related {m m' : Memory V} {x x' : Var}
    (h : m.Related (Cell.Renamed π) m') (hx : x.Renamed π x') : m.mentions x = m'.mentions x' := by
  rw [Bool.eq_iff_iff, Memory.mentions_iff, Memory.mentions_iff]
  constructor
  · rintro ⟨location, s, hs, hmentions⟩
    obtain ⟨s', hs', hstack⟩ := h.exists_right hs
    exact ⟨location, s', hs', (Stack.mentions_eq_of_related hstack hx).symm.trans hmentions⟩
  · rintro ⟨location, s', hs', hmentions⟩
    obtain ⟨s, hs, hstack⟩ := (h.symm fun _ _ hc => hc).exists_right hs'
    have hstack : s.Related (Cell.Renamed π) s' := List.Forall₂.flip hstack
    exact ⟨location, s, hs, (Stack.mentions_eq_of_related hstack hx).trans hmentions⟩

/-! ## Terms -/

/-- The same term over corresponding variables, rules included. -/
inductive Term.Renamed (π : Equiv.Perm String) : Term V → Term V → Prop where
  | var {x x' : Var} (h : x.Renamed π x') : Term.Renamed π (.var x) (.var x')
  | func (label : String) (arity : Nat) {args args' : List (Term V)} (rule : List V → V)
      (h : List.Forall₂ (Term.Renamed π) args args') :
      Term.Renamed π (.func label arity args rule) (.func label arity args' rule)

/-- Evaluation looks at a substitution by resolving variables only. -/
theorem Term.Renamed.evaluateUnder {s s' : Substitution V} {t t' : Term V} (ht : t.Renamed π t')
    (hs : ∀ x x' : Var, x.Renamed π x' →
      Alike SameFate (Cell.Renamed π) (s.resolve x) (s'.resolve x')) :
    Alike SameFate (Cell.Renamed π) (t.evaluateUnder s) (t'.evaluateUnder s') := by
  induction t using Term.ind generalizing t' with
  | var x =>
    cases ht with
    | var hx => exact hs _ _ hx
  | func label arity args rule ih =>
    cases ht with
    | func _ _ _ hargs =>
      have hvalues : ∀ (node node' : Term V) {ts ts' : List (Term V)}, (∀ t ∈ ts, t ∈ args) →
          List.Forall₂ (Term.Renamed π) ts ts' →
          Alike SameFate Eq (Term.evaluateArgs s node ts) (Term.evaluateArgs s' node' ts') := by
        intro node node' ts ts' hmem hts
        induction hts with
        | nil => exact .ok rfl
        | @cons t t' ts ts' ht _ ihts =>
          obtain ⟨hhead, htail⟩ := List.forall_mem_cons.mp hmem
          rw [Term.evaluateArgs, Term.evaluateArgs]
          refine (ih t hhead ht).bind fun c c' hc => ?_
          cases hc with
          | ref _ => exact .error rfl
          | value v =>
            refine (ihts htail).bind fun values values' hvalues => ?_
            rw [hvalues]
            exact .ok rfl
      rw [Term.evaluateUnder, Term.evaluateUnder, hargs.length_eq]
      split
      · refine (hvalues _ _ (fun _ h => h) hargs).bind fun values values' hvalues => ?_
        rw [hvalues]
        exact .ok (.value _)
      · exact .error rfl

/-! ## States -/

/-- The image of a state: corresponding stacks and corresponding bindings. -/
structure State.Renamed (π : Equiv.Perm String) (s s' : State V) : Prop where
  memory : s.memory.Related (Cell.Renamed π) s'.memory
  substitution : s.substitution.Renamed π s'.substitution

namespace State.Renamed

variable {s s' : State V}

theorem push (h : s.Renamed π s') {t t' : Term V} (ht : t.Renamed π t') (location : String) :
    Alike SameFate (State.Renamed π) (s.push t location) (s'.push t' location) := by
  refine (ht.evaluateUnder fun _ _ => h.substitution.resolve).bind fun c c' hc => ?_
  exact (h.memory.push location hc).sameFate.bind fun _ _ hmemory => .ok ⟨hmemory, h.substitution⟩

theorem pop [DecidableEq V] [ToString V] (h : s.Renamed π s') {t t' : Term V}
    (ht : t.Renamed π t') (location : String) :
    Alike SameFate (State.Renamed π) (s.pop t location) (s'.pop t' location) := by
  refine (h.memory.pop location).sameFate.bind fun top top' htop => ?_
  refine (h.substitution.resolveCell htop.1).bind fun popped popped' hpopped => ?_
  refine (ht.evaluateUnder fun _ _ => h.substitution.resolve).bind fun expected expected' hexpected => ?_
  exact (h.substitution.matchCell hexpected hpopped).bind fun _ _ hs => .ok ⟨htop.2, hs⟩

theorem project (h : s.Renamed π s') {x x' : Var} (hx : x.Renamed π x') :
    State.Renamed π (s.project x) (s'.project x') := by
  refine ⟨?_, h.substitution.projectOut hx⟩
  unfold State.project
  cases hget : s.substitution.get? x with
  | none =>
    simp only [h.substitution.get?_eq_none hx hget]
    exact h.memory
  | some c =>
    obtain ⟨c', hget', hc⟩ := h.substitution.get?_eq_some hx hget
    simp only [hget']
    exact h.memory.replaceRefs fun _ _ hd => hd.replaceRef hx hc

theorem mentions_eq (h : s.Renamed π s') {x x' : Var} (hx : x.Renamed π x') :
    s.mentions x = s'.mentions x' := by
  rw [State.mentions, State.mentions, h.substitution.mentions_eq hx,
    Memory.mentions_eq_of_related h.memory hx]

end State.Renamed

/-! ## The identity

Two states are images of each other under the identity exactly when they are equal. Equality is
traced to cells without flags: there it is identity, and maps with equal look-ups are equal. -/

/-- A cell with the flag of its variable left out. -/
def Cell.withoutFlag : Cell V → Cell V
  | .value v => .value v
  | .ref x => .ref ⟨x.name, false⟩

theorem Cell.renamed_one_iff (c c' : Cell V) :
    c.Renamed 1 c' ↔ c.withoutFlag = c'.withoutFlag := by
  constructor
  · intro h
    cases h with
    | value v => rfl
    | @ref x y h =>
      have hname : x.name = y.name := h
      rw [Cell.withoutFlag, Cell.withoutFlag, hname]
  · intro h
    cases c with
    | value v =>
      cases c' with
      | value v' =>
        cases h
        exact .value v
      | ref y => cases h
    | ref x =>
      cases c' with
      | value v' => cases h
      | ref y =>
        have hname : x.name = y.name := congrArg (fun c : Cell V => (c.asVar?.map Var.name).getD "") h
        exact .ref hname

theorem list_beq_iff_map {α β : Type} [BEq α] {view : α → β}
    (hview : ∀ a b, a == b ↔ view a = view b) (xs ys : List α) :
    xs == ys ↔ xs.map view = ys.map view := by
  induction xs generalizing ys with
  | nil => cases ys <;> simp
  | cons x xs ih =>
    cases ys with
    | nil => simp
    | cons y ys => rw [List.cons_beq_cons, Bool.and_eq_true, hview, ih, List.map_cons, List.map_cons,
        List.cons.injEq]

theorem NameMap.beq_iff_map_eq {α β : Type} [BEq α] {view : α → β}
    (hview : ∀ a b, a == b ↔ view a = view b) (m n : NameMap α) : m == n ↔ m.map view = n.map view := by
  have hentry : ∀ a b : String × α, a == b ↔ (a.1, view a.2) = (b.1, view b.2) := by
    intro a b
    rw [pair_beq, Bool.and_eq_true, beq_iff_eq, hview, Prod.mk.injEq]
  have hentries : m == n ↔ (m.map view).entries = (n.map view).entries :=
    list_beq_iff_map hentry m.entries n.entries
  rw [hentries]
  exact ⟨NameMap.ext, congrArg NameMap.entries⟩

theorem NameMap.beq_iff_map {α β : Type} [BEq α] {view : α → β}
    (hview : ∀ a b, a == b ↔ view a = view b) (m n : NameMap α) :
    m == n ↔ ∀ name, (m.get? name).map view = (n.get? name).map view := by
  rw [NameMap.beq_iff_map_eq hview]
  constructor
  · intro h name
    rw [← NameMap.get?_map, ← NameMap.get?_map, h]
  · intro h
    exact NameMap.ext_get? fun name => by rw [NameMap.get?_map, NameMap.get?_map, h name]

theorem optionRel_iff_map {α β : Type} {R : α → α → Prop} {view : α → β}
    (hview : ∀ a b, R a b ↔ view a = view b) (o o' : Option α) :
    Option.Rel R o o' ↔ o.map view = o'.map view := by
  cases o with
  | none =>
    cases o' with
    | none => exact ⟨fun _ => rfl, fun _ => .none⟩
    | some b => exact ⟨nofun, nofun⟩
  | some a =>
    cases o' with
    | none => exact ⟨nofun, nofun⟩
    | some b =>
      rw [Option.map_some, Option.map_some, Option.some.injEq, ← hview, Option.rel_some_some]

theorem Cell.forall₂_renamed_one_iff (cs cs' : List (Cell V)) :
    List.Forall₂ (Cell.Renamed 1) cs cs' ↔ cs.map Cell.withoutFlag = cs'.map Cell.withoutFlag := by
  rw [← List.forall₂_eq_eq_eq, List.forall₂_map_left_iff, List.forall₂_map_right_iff]
  constructor
  · exact List.Forall₂.imp fun c c' => (Cell.renamed_one_iff c c').mp
  · exact List.Forall₂.imp fun c c' => (Cell.renamed_one_iff c c').mpr

section Equality

variable [DecidableEq V]

theorem Cell.beq_iff_withoutFlag (c c' : Cell V) :
    c == c' ↔ c.withoutFlag = c'.withoutFlag := by
  rw [← Cell.renamed_one_iff]
  constructor
  · intro h
    cases c with
    | value v =>
      cases c' with
      | value v' =>
        rw [Cell.value_beq_value, beq_iff_eq] at h
        rw [h]
        exact .value v'
      | ref y => cases h
    | ref x =>
      cases c' with
      | value v' => cases h
      | ref y => exact .ref (Var.beq_iff.mp h)
  · intro h
    cases h with
    | value v => exact BEq.refl _
    | @ref x y h => exact Var.beq_iff.mpr h

theorem Memory.renamed_one_iff (m m' : Memory V) : m.Related (Cell.Renamed 1) m' ↔ m == m' := by
  have hstack : ∀ s s' : Stack V, s == s' ↔
      s.cells.map Cell.withoutFlag = s'.cells.map Cell.withoutFlag := fun s s' => by
    rw [Stack.beq_eq, list_beq_iff_map Cell.beq_iff_withoutFlag]
  have htable : m == m' ↔ m.table == m'.table := Iff.rfl
  rw [htable, NameMap.beq_iff_map hstack]
  have hrelated : ∀ s s' : Stack V, s.Related (Cell.Renamed 1) s' ↔
      s.cells.map Cell.withoutFlag = s'.cells.map Cell.withoutFlag := fun s s' =>
    Cell.forall₂_renamed_one_iff s.cells s'.cells
  exact forall_congr' fun location => optionRel_iff_map hrelated _ _

theorem Substitution.renamed_one_iff (s s' : Substitution V) : s.Renamed 1 s' ↔ s == s' := by
  have hbinding : ∀ b b' : Binding V, b == b' ↔ b.cell.withoutFlag = b'.cell.withoutFlag :=
    fun b b' => Cell.beq_iff_withoutFlag b.cell b'.cell
  have hbindings : s == s' ↔ s.bindings == s'.bindings := Iff.rfl
  have hget : ∀ (s : Substitution V) (x : Var), (s.get? x).map Cell.withoutFlag =
      (s.bindings.get? x.name).map fun b => b.cell.withoutFlag := fun s x => by
    rw [Substitution.get?, Option.map_map]
    rfl
  rw [hbindings, NameMap.beq_iff_map hbinding]
  constructor
  · intro h name
    have hrel := (optionRel_iff_map Cell.renamed_one_iff _ _).mp (h ⟨name, false⟩ ⟨name, false⟩ rfl)
    rwa [hget, hget] at hrel
  · intro h x x' hx
    have hname : x.name = x'.name := hx
    rw [optionRel_iff_map Cell.renamed_one_iff, hget, hget, hname]
    exact h x'.name

/-- The images of a state under the identity are the states equal to it. -/
theorem State.renamed_one_iff (s s' : State V) : s.Renamed 1 s' ↔ s == s' := by
  have hparts : s == s' ↔ s.memory == s'.memory ∧ s.substitution == s'.substitution :=
    Bool.and_eq_true_iff
  rw [hparts, ← Memory.renamed_one_iff, ← Substitution.renamed_one_iff]
  exact ⟨fun h => ⟨h.memory, h.substitution⟩, fun h => ⟨h.1, h.2⟩⟩

theorem State.project_beq {s s' : State V} (h : s == s') (x : Var) : s.project x == s'.project x := by
  rw [← State.renamed_one_iff] at h ⊢
  exact h.project rfl

end Equality

end StackCalculus
