import Mathlib
import StackCalculus.Proofs.Chain
import StackCalculus.Proofs.Memory
import StackCalculus.Proofs.Renaming.Program

/-!
# States with the same view

Two states have the same view if every variable stands for the same in both, and so does every cell of
their stacks. How long the chains of bindings are, and where along its chain a stack cell points, does
not matter. Every step of the calculus sees a state through its view only: pushes and pops resolve
what they work with, a projection moves cells along their chains, and the variables that a state
mentions can be told from where its chains end (`SameView.mentions_eq`).
-/

namespace StackCalculus

variable {V : Type}

/-! ## Cells that stand for the same -/

/-- Two cells stand for the same value or the same unbound variable, each under its substitution. -/
def SameEnd (s s' : Substitution V) (d d' : Cell V) : Prop :=
  ∃ c c', s.CellEnds d c ∧ s'.CellEnds d' c' ∧ c.Renamed 1 c'

namespace SameEnd

variable {s s' s'' : Substitution V} {d d' d'' : Cell V}

theorem symm (h : SameEnd s s' d d') : SameEnd s' s d' d := by
  obtain ⟨c, c', hc, hc', hsame⟩ := h
  refine ⟨c', c, hc', hc, ?_⟩
  rw [Cell.renamed_one_iff] at hsame ⊢
  exact hsame.symm

theorem trans (h : SameEnd s s' d d') (h' : SameEnd s' s'' d' d'') : SameEnd s s'' d d'' := by
  obtain ⟨c, c', hc, hc', hsame⟩ := h
  obtain ⟨b, b', hb, hb', hsame'⟩ := h'
  obtain rfl := hc'.unique hb
  refine ⟨c, b', hc, hb', ?_⟩
  rw [Cell.renamed_one_iff] at hsame hsame' ⊢
  exact hsame.trans hsame'

theorem resolveCell (h : SameEnd s s' d d') :
    ∃ c c', s.resolveCell d = .ok c ∧ s'.resolveCell d' = .ok c' ∧ c.Renamed 1 c' ∧
      s.CellEnds c c ∧ s'.CellEnds c' c' := by
  obtain ⟨c, c', hc, hc', hsame⟩ := h
  exact ⟨c, c', (s.resolveCell_eq_ok_iff d c).mpr hc, (s'.resolveCell_eq_ok_iff d' c').mpr hc', hsame,
    hc.self, hc'.self⟩

theorem set {x x' : Var} {c c' : Cell V} (h : SameEnd s s' d d') (hx : x.Renamed 1 x')
    (hget : s.get? x = none) (hget' : s'.get? x' = none) (hc : s.CellEnds c c)
    (hc' : s'.CellEnds c' c') (hsame : c.Renamed 1 c') (hcx : c.refersTo x = false) :
    SameEnd (s.set x c) (s'.set x' c') d d' := by
  obtain ⟨e, e', he, he', hee'⟩ := h
  have hcx' : c'.refersTo x' = false := (hsame.refersTo_eq hx).symm.trans hcx
  exact ⟨_, _, he.set hget hc hcx, he'.set hget' hc' hcx', hee'.replaceRef hx hsame⟩

theorem projectOut {x x' : Var} {c c' : Cell V} (h : SameEnd s s' d d') (hget : s.get? x = some c)
    (hget' : s'.get? x' = some c') :
    SameEnd (s.projectOut x) (s'.projectOut x') (Cell.replaceRef x c d) (Cell.replaceRef x' c' d') := by
  obtain ⟨e, e', he, he', hee'⟩ := h
  exact ⟨e, e', he.projectOut hget, he'.projectOut hget', hee'⟩

/-- A variable is bound if a variable of the same name and with the same end is. -/
theorem get?_eq_none {x x' : Var} (h : SameEnd s s' (.ref x) (.ref x')) (hx : x.Renamed 1 x')
    (hget : s.get? x = none) : s'.get? x' = none := by
  obtain ⟨c, c', hc, hc', hsame⟩ := h
  have hcx : c = .ref x := hc.unique (show s.CellEnds (.ref x) (.ref x) from .unbound hget)
  subst hcx
  cases hsame with
  | @ref _ y hy =>
    have hyx : x' == y := Var.beq_iff.mpr (hx.symm.trans hy)
    rw [s'.get?_congr hyx]
    exact Substitution.Ends.get?_eq_none hc'

end SameEnd

/-! ## States -/

/-- All variables and all stack cells stand for the same in both states. -/
structure SameView (s s' : State V) : Prop where
  ends : ∀ x x' : Var, x.Renamed 1 x' →
    SameEnd s.substitution s'.substitution (.ref x) (.ref x')
  cells : s.memory.Related (SameEnd s.substitution s'.substitution) s'.memory

namespace SameView

variable {s s' s'' : State V}

theorem symm (h : SameView s s') : SameView s' s where
  ends x x' hx := (h.ends x' x (Eq.symm hx)).symm
  cells := h.cells.symm fun _ _ => SameEnd.symm

theorem trans (h : SameView s s') (h' : SameView s' s'') : SameView s s'' where
  ends x x' hx := (h.ends x x rfl).trans (h'.ends x x' hx)
  cells := h.cells.trans h'.cells fun _ _ _ => SameEnd.trans

theorem of_renamed (h : s.Renamed 1 s') (hacyclic : s.substitution.Acyclic) : SameView s s' := by
  have hends : ∀ d d' : Cell V, d.Renamed 1 d' → SameEnd s.substitution s'.substitution d d' := by
    intro d d' hd
    cases hd with
    | value v => exact ⟨.value v, .value v, rfl, rfl, .value v⟩
    | @ref x x' hx =>
      obtain ⟨c, hc⟩ := hacyclic x
      obtain ⟨c', hc', hsame⟩ := h.substitution.ends hx hc
      exact ⟨c, c', hc, hc', hsame⟩
  exact ⟨fun x x' hx => hends _ _ (.ref hx), h.memory.mono hends⟩

theorem resolve (h : SameView s s') {x x' : Var} (hx : x.Renamed 1 x') :
    Alike SameFate (Cell.Renamed 1) (s.substitution.resolve x) (s'.substitution.resolve x') := by
  obtain ⟨c, c', hc, hc', hsame, _⟩ := (h.ends x x' hx).resolveCell
  show Alike SameFate _ (s.substitution.resolveCell (.ref x)) (s'.substitution.resolveCell (.ref x'))
  rw [hc, hc']
  exact .ok hsame

theorem evaluateUnder (h : SameView s s') (t : Term V) :
    Alike SameFate (fun c c' => c.Renamed 1 c' ∧ s.substitution.CellEnds c c ∧
        s'.substitution.CellEnds c' c')
      (t.evaluateUnder s.substitution) (t.evaluateUnder s'.substitution) := by
  have hcells := t.renamed_one.evaluateUnder fun _ _ => h.resolve
  refine hcells.with_ok.mono (fun _ _ h => h) ?_
  rintro c c' ⟨hsame, hc, hc'⟩
  exact ⟨hsame, Term.cellEnds_of_evaluateUnder hc, Term.cellEnds_of_evaluateUnder hc'⟩

/-! ## Pushes and pops -/

theorem push (h : SameView s s') (t : Term V) (location : String) :
    Alike SameFate SameView (s.push t location) (s'.push t location) := by
  refine (h.evaluateUnder t).bind ?_
  rintro c c' ⟨hsame, hc, hc'⟩
  refine (h.cells.push location ⟨c, c', hc, hc', hsame⟩).sameFate.bind fun m m' hm => ?_
  exact .ok ⟨h.ends, hm⟩

section Match

variable [DecidableEq V]

/-- Matching alike cells binds a variable to alike cells, or nothing, or fails in both states. -/
theorem matchCell [ToString V] {σ σ' : Substitution V} {m m' : Memory V}
    (h : SameView ⟨m, σ⟩ ⟨m', σ'⟩) {expected expected' popped popped' : Cell V}
    (hexpected : expected.Renamed 1 expected') (hend : σ.CellEnds expected expected)
    (hend' : σ'.CellEnds expected' expected') (hpopped : popped.Renamed 1 popped')
    (hpop : σ.CellEnds popped popped) (hpop' : σ'.CellEnds popped' popped') :
    Alike SameFate (fun τ τ' => SameView ⟨m, τ⟩ ⟨m', τ'⟩) (σ.matchCell expected popped)
      (σ'.matchCell expected' popped') := by
  unfold Substitution.matchCell
  cases hexpected with
  | value v =>
    simp only [hpopped.beq_value_eq v]
    split
    · exact .ok h
    · exact .error rfl
  | @ref x x' hx =>
    simp only [hpopped.beq_ref_eq hx]
    split
    · exact .error rfl
    · rename_i hne
      -- A resolved term is not bound, and no chain leads back to it: both bindings go through.
      have hget : σ.get? x = none := Substitution.Ends.get?_eq_none hend
      have hget' : σ'.get? x' = none := Substitution.Ends.get?_eq_none hend'
      have hfree' : popped'.refersTo x' = false := by
        cases popped' with
        | value v => rfl
        | ref y => exact Bool.eq_false_iff.mpr hne
      have hfree : popped.refersTo x = false := (hpopped.refersTo_eq hx).trans hfree'
      rw [Substitution.bind_eq_ok hget hpop hfree, Substitution.bind_eq_ok hget' hpop' hfree']
      have hset : ∀ d d', SameEnd σ σ' d d' → SameEnd (σ.set x popped) (σ'.set x' popped') d d' :=
        fun d d' hd => hd.set hx hget hget' hpop hpop' hpopped hfree
      exact .ok ⟨fun y y' hy => hset _ _ (h.ends y y' hy), h.cells.mono hset⟩

theorem pop [ToString V] (h : SameView s s') (t : Term V) (location : String) :
    Alike SameFate SameView (s.pop t location) (s'.pop t location) := by
  refine (h.cells.pop location).sameFate.bind ?_
  rintro ⟨top, m⟩ ⟨top', m'⟩ ⟨htop, hm⟩
  obtain ⟨c, c', hc, hc', hsame, hend, hend'⟩ := htop.resolveCell
  simp only [hc, hc']
  refine (h.evaluateUnder t).bind ?_
  rintro e e' ⟨he, hee, hee'⟩
  have hview : SameView ⟨m, s.substitution⟩ ⟨m', s'.substitution⟩ := ⟨h.ends, hm⟩
  exact (hview.matchCell he hee hee' hsame hend hend').bind fun τ τ' hτ => .ok hτ

end Match

/-! ## Projections -/

theorem project (h : SameView s s') (x : Var) : SameView (s.project x) (s'.project x) := by
  cases hget : s.substitution.get? x with
  | none =>
    have hget' := (h.ends x x rfl).get?_eq_none rfl hget
    rw [State.project_of_unbound hget, State.project_of_unbound hget']
    exact h
  | some c =>
    cases hget' : s'.substitution.get? x with
    | none =>
      -- Not possible: `x` would stand for itself in one of the states only.
      rw [(h.ends x x rfl).symm.get?_eq_none rfl hget'] at hget
      cases hget
    | some c' =>
      refine ⟨fun y y' hy => ?_, ?_⟩
      · by_cases hyx : y == x
        -- `x` itself is unbound afterwards.
        · have hyx' : y' == x := Var.beq_iff.mpr (hy.symm.trans (Var.beq_iff.mp hyx))
          refine ⟨.ref y, .ref y', .unbound ?_, .unbound ?_, .ref hy⟩
          · exact (Substitution.get?_congr _ hyx).trans (Substitution.get?_projectOut_self _ x)
          · exact (Substitution.get?_congr _ hyx').trans (Substitution.get?_projectOut_self _ x)
        · have hyx' : ¬ y' == x := fun h' =>
            hyx (Var.beq_iff.mpr (Eq.trans hy (Var.beq_iff.mp h')))
          have hends := (h.ends y y' hy).projectOut hget hget'
          rwa [Cell.replaceRef, if_neg hyx, Cell.replaceRef, if_neg hyx'] at hends
      · have hmemory := h.cells.replaceRefs fun d d' hd => hd.projectOut hget hget'
        simp only [State.project, hget, hget']
        exact hmemory

end SameView

/-! ## Mentioned variables -/

/-- A chain that comes to `y` from elsewhere has a link to `y`. -/
theorem Substitution.Ends.exists_link {s : Substitution V} {y z : Var} {c : Cell V}
    (h : s.Ends z c) (hc : c.refersTo y) (hz : ¬ z == y) :
    ∃ w d, s.get? w = some d ∧ d.refersTo y := by
  induction h with
  | unbound _ => exact absurd hc hz
  | value _ => cases hc
  | @step x w c hget _ ih =>
    by_cases hw : w == y
    · exact ⟨x, .ref w, hget, hw⟩
    · exact ih hc hw

/-- A state mentions a variable that does not stand for itself, that another variable stands for, or
that a stack cell stands for. -/
theorem State.mentions_iff_ends {s : State V} (hacyclic : s.substitution.Acyclic) (y : Var) :
    s.mentions y ↔ (∃ c, s.substitution.Ends y c ∧ c.refersTo y = false) ∨
      (∃ z c, ¬ z == y ∧ s.substitution.Ends z c ∧ c.refersTo y) ∨
      ∃ location stack, s.memory.table.get? location = some stack ∧
        ∃ d ∈ stack.cells, ∃ c, s.substitution.CellEnds d c ∧ c.refersTo y := by
  rw [State.mentions, Bool.or_eq_true, Substitution.mentions_iff, Memory.mentions_iff]
  cases hget : s.substitution.get? y with
  | some e =>
    -- A bound variable is mentioned, and its chain does not come back to it.
    obtain ⟨c, hc⟩ := hacyclic y
    have hfree : c.refersTo y = false := by
      cases c with
      | value v => rfl
      | ref w =>
        rw [← Bool.not_eq_true]
        exact fun hw => Substitution.not_beq_of_get? hget hc.get?_eq_none (BEq.symm hw)
    exact ⟨fun _ => .inl ⟨c, hc, hfree⟩, fun _ => .inl (.inl ⟨e, rfl⟩)⟩
  | none =>
    -- An unbound variable stands for itself, so a link to it is an end.
    have hself : ∀ w : Var, w == y → s.substitution.Ends w (.ref w) := fun w hw =>
      .unbound ((s.substitution.get?_congr hw).trans hget)
    constructor
    · rintro ((⟨c, hc⟩ | ⟨z, d, hz, href⟩) | ⟨location, stack, hstack, hmentions⟩)
      · cases hc
      · have hzy := Substitution.not_beq_of_get? hz hget
        cases d with
        | value v => cases href
        | ref w => exact .inr (.inl ⟨z, .ref w, hzy, .step hz (hself w href), href⟩)
      · obtain ⟨d, hd, href⟩ := List.any_eq_true.mp hmentions
        cases d with
        | value v => cases href
        | ref w => exact .inr (.inr ⟨location, stack, hstack, .ref w, hd, .ref w, hself w href, href⟩)
    · rintro (⟨c, hc, hfree⟩ | ⟨z, c, hzy, hc, href⟩ | ⟨location, stack, hstack, d, hd, c, hc, href⟩)
      · rw [hc.unique (hself y (BEq.refl y))] at hfree
        exact absurd (BEq.refl y) (Bool.eq_false_iff.mp hfree)
      · exact .inl (.inr (hc.exists_link href hzy))
      · cases d with
        | value v =>
          rw [show c = .value v from hc] at href
          cases href
        | ref z =>
          by_cases hzy : z == y
          · exact .inr ⟨location, stack, hstack, List.any_eq_true.mpr ⟨.ref z, hd, hzy⟩⟩
          · exact .inl (.inr (Substitution.Ends.exists_link hc href hzy))

namespace SameView

variable {s s' : State V}

theorem acyclic (h : SameView s s') : s.substitution.Acyclic := by
  intro x
  obtain ⟨c, _, hc, _, _⟩ := h.ends x x rfl
  exact ⟨c, hc⟩

theorem mentions_of_mentions (h : SameView s s') {y : Var} (hy : s.mentions y) : s'.mentions y := by
  have hends : ∀ {x : Var} {c : Cell V}, s.substitution.Ends x c →
      ∃ c', s'.substitution.Ends x c' ∧ c.refersTo y = c'.refersTo y := by
    intro x c hc
    obtain ⟨d, d', hd, hd', hsame⟩ := h.ends x x rfl
    obtain rfl := hc.unique hd
    exact ⟨d', hd', hsame.refersTo_eq rfl⟩
  rw [State.mentions_iff_ends h.acyclic] at hy
  rw [State.mentions_iff_ends h.symm.acyclic]
  rcases hy with ⟨c, hc, hfree⟩ | ⟨z, c, hzy, hc, href⟩ | ⟨location, stack, hstack, d, hd, c, hc, href⟩
  · obtain ⟨c', hc', hsame⟩ := hends hc
    exact .inl ⟨c', hc', hsame.symm.trans hfree⟩
  · obtain ⟨c', hc', hsame⟩ := hends hc
    exact .inr (.inl ⟨z, c', hzy, hc', hsame.symm.trans href⟩)
  · obtain ⟨stack', hstack', hcells⟩ := h.cells.exists_right hstack
    obtain ⟨d', hd', e, e', he, he', hsame⟩ := forall₂_exists_right hcells hd
    obtain rfl := hc.unique he
    have href' : e'.refersTo y := (hsame.refersTo_eq rfl).symm.trans href
    exact .inr (.inr ⟨location, stack', hstack', d', hd', e', he', href'⟩)

/-- States with the same view mention the same variables. -/
theorem mentions_eq (h : SameView s s') (y : Var) : s.mentions y = s'.mentions y :=
  Bool.eq_iff_iff.mpr ⟨h.mentions_of_mentions, h.symm.mentions_of_mentions⟩

end SameView

end StackCalculus
