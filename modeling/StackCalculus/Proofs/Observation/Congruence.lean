import Mathlib
import StackCalculus.Proofs.Adequacy
import StackCalculus.Proofs.Observation.View

/-!
# Observational congruence

What can be observed of a state are its locations, the resolved cells of its stacks and the ends of
its chains of bindings. Observationally equal states have the same view, and runs of a program from
them have the same outcomes, up to observation again (`run_obsEq`). So shortening the chains of a state
or resolving its stack cells before a run does not change what the run computes.
-/

namespace StackCalculus

variable {V : Type} [DecidableEq V]

/-- Two states without cycles of bindings that cannot be told apart: they have the same locations,
the same resolved cells at each of them, and every variable resolves to the same cell. -/
structure State.ObsEq (s s' : State V) : Prop where
  acyclic_left : s.substitution.Acyclic
  acyclic_right : s'.substitution.Acyclic
  locations : s.memory.locations = s'.memory.locations
  values : ∀ location, Alike Eq (fun cells cells' => cells == cells') (s.values location)
    (s'.values location)
  resolve : ∀ x, Alike Eq (fun c c' => c == c') (s.substitution.resolve x)
    (s'.substitution.resolve x)

/-! ## Resolved stacks -/

section Resolved

omit [DecidableEq V]

theorem mapM_eq_ok_iff {α β : Type} (f : α → Except Fault β) (xs : List α) (ys : List β) :
    xs.mapM f = .ok ys ↔ List.Forall₂ (fun x y => f x = .ok y) xs ys := by
  induction xs generalizing ys with
  | nil =>
    constructor
    · intro h
      cases h
      exact .nil
    · intro h
      cases h
      rfl
  | cons x xs ih =>
    rw [List.mapM_cons, bind_eq_ok_iff]
    constructor
    · rintro ⟨y, hy, h⟩
      obtain ⟨ys', hys, h⟩ := bind_eq_ok_iff.mp h
      cases h
      exact .cons hy ((ih ys').mp hys)
    · intro h
      cases h with
      | cons hy hys => exact ⟨_, hy, bind_eq_ok_iff.mpr ⟨_, (ih _).mpr hys, rfl⟩⟩

/-- The values at a location are what the cells there stand for, from the bottom to the top. -/
theorem State.values_eq_ok_iff (s : State V) (location : String) (cells : List (Cell V)) :
    s.values location = .ok cells ↔ ∃ stack, s.memory.table.get? location = some stack ∧
      List.Forall₂ s.substitution.CellEnds stack.toList cells := by
  have hcells : ∀ stack : Stack V, stack.toList.mapM s.substitution.resolveCell = .ok cells ↔
      List.Forall₂ s.substitution.CellEnds stack.toList cells := by
    intro stack
    rw [mapM_eq_ok_iff]
    simp only [Substitution.resolveCell_eq_ok_iff]
  rw [State.values, bind_eq_ok_iff]
  simp only [hcells, Memory.stackAt_eq_ok_iff]

/-- Stacks of cells that stand for the same resolve to the same cells. -/
theorem exists_resolved {s s' : Substitution V} {ds ds' : List (Cell V)}
    (h : List.Forall₂ (SameEnd s s') ds ds') :
    ∃ cs cs', List.Forall₂ s.CellEnds ds cs ∧ List.Forall₂ s'.CellEnds ds' cs' ∧
      List.Forall₂ (Cell.Renamed 1) cs cs' := by
  induction h with
  | nil => exact ⟨[], [], .nil, .nil, .nil⟩
  | cons hhead _ ih =>
    obtain ⟨c, c', hc, hc', hsame⟩ := hhead
    obtain ⟨cs, cs', hcs, hcs', hsames⟩ := ih
    exact ⟨c :: cs, c' :: cs', .cons hc hcs, .cons hc' hcs', .cons hsame hsames⟩

end Resolved

/-! ## Observations and views -/

theorem Cell.list_beq_iff_renamed (cs cs' : List (Cell V)) :
    cs == cs' ↔ List.Forall₂ (Cell.Renamed 1) cs cs' := by
  rw [list_beq_iff_map Cell.beq_iff_withoutFlag, Cell.forall₂_renamed_one_iff]

namespace State.ObsEq

variable {s s' s'' : State V}

theorem sameView (h : s.ObsEq s') : SameView s s' := by
  refine ⟨fun x x' hx => ?_, fun location => ?_⟩
  · obtain ⟨c, hc⟩ := h.acyclic_left x
    have hresolve := h.resolve x
    rw [(s.substitution.resolve_eq_ok_iff x c).mpr hc] at hresolve
    obtain ⟨c', hc', hsame⟩ := hresolve.exists_right
    -- The flags of `x` and `x'` may differ, which nothing depends on.
    have hself := (Substitution.renamed_one_iff s'.substitution s'.substitution).mpr (BEq.refl _)
    obtain ⟨c'', hc'', hsame'⟩ := hself.ends hx ((s'.substitution.resolve_eq_ok_iff x c').mp hc')
    refine ⟨c, c'', hc, hc'', ?_⟩
    rw [Cell.beq_iff_withoutFlag] at hsame
    rw [Cell.renamed_one_iff] at hsame' ⊢
    exact hsame.trans hsame'
  · have hlocation := (Memory.locations_eq_iff s.memory s'.memory).mp h.locations location
    cases hget : s.memory.table.get? location with
    | none =>
      rw [hget] at hlocation
      rw [Option.not_isSome_iff_eq_none.mp (Bool.eq_false_iff.mp hlocation.symm)]
      exact .none
    | some stack =>
      have hends : ∀ d, ∃ c, s.substitution.CellEnds d c := by
        intro d
        cases d with
        | value v => exact ⟨.value v, rfl⟩
        | ref x => exact h.acyclic_left x
      obtain ⟨cells, hcells⟩ := exists_forall₂ fun cell (_ : cell ∈ stack.toList) => hends cell
      have hvalues := h.values location
      rw [(s.values_eq_ok_iff location cells).mpr ⟨stack, hget, hcells⟩] at hvalues
      obtain ⟨cells', hvalues', hsame⟩ := hvalues.exists_right
      obtain ⟨stack', hget', hcells'⟩ := (s'.values_eq_ok_iff location cells').mp hvalues'
      rw [Cell.list_beq_iff_renamed] at hsame
      rw [hget']
      refine .some ?_
      -- From the cells to what they stand for, across, and back to the other cells.
      have hto : List.Forall₂ (fun d c' => ∃ c, s.substitution.CellEnds d c ∧ c.Renamed 1 c')
          stack.toList cells' := forall₂_comp (fun _ c _ hc hsame => ⟨c, hc, hsame⟩) hcells hsame
      have hfrom : List.Forall₂ (fun c' d' => s'.substitution.CellEnds d' c') cells' stack'.toList :=
        List.Forall₂.flip hcells'
      have hboth : List.Forall₂ (SameEnd s.substitution s'.substitution) stack.toList stack'.toList :=
        forall₂_comp (fun _ c' _ ⟨c, hc, hsame⟩ hc' => ⟨c, c', hc, hc', hsame⟩) hto hfrom
      exact List.forall₂_reverse_iff.mp hboth

theorem of_sameView (h : SameView s s') : s.ObsEq s' where
  acyclic_left := h.acyclic
  acyclic_right := h.symm.acyclic
  locations := by
    rw [Memory.locations_eq_iff]
    intro location
    have hrel := h.cells location
    generalize s.memory.table.get? location = o at hrel ⊢
    generalize s'.memory.table.get? location = o' at hrel ⊢
    cases hrel <;> rfl
  values location := by
    cases hget : s.memory.table.get? location with
    | none =>
      have hget' : s'.memory.table.get? location = none := by
        have hrel := h.cells location
        rw [hget] at hrel
        generalize s'.memory.table.get? location = o at hrel ⊢
        cases hrel
        rfl
      rw [State.values, State.values, Memory.stackAt, Memory.stackAt, hget, hget']
      exact .error rfl
    | some stack =>
      obtain ⟨stack', hget', hcells⟩ := h.cells.exists_right hget
      obtain ⟨cs, cs', hcs, hcs', hsame⟩ := exists_resolved (List.forall₂_reverse_iff.mpr hcells)
      rw [(s.values_eq_ok_iff location cs).mpr ⟨stack, hget, hcs⟩,
        (s'.values_eq_ok_iff location cs').mpr ⟨stack', hget', hcs'⟩]
      exact .ok ((Cell.list_beq_iff_renamed cs cs').mpr hsame)
  resolve x := by
    obtain ⟨c, c', hc, hc', hsame⟩ := h.ends x x rfl
    rw [(s.substitution.resolve_eq_ok_iff x c).mpr hc, (s'.substitution.resolve_eq_ok_iff x c').mpr hc']
    refine .ok ?_
    rwa [Cell.beq_iff_withoutFlag, ← Cell.renamed_one_iff]

theorem symm (h : s.ObsEq s') : s'.ObsEq s := of_sameView h.sameView.symm

theorem trans (h : s.ObsEq s') (h' : s'.ObsEq s'') : s.ObsEq s'' :=
  of_sameView (h.sameView.trans h'.sameView)

/-- Equal states are in the same class. -/
theorem congr_left {u : State V} (h : s == s') : s.ObsEq u ↔ s'.ObsEq u := by
  have hforth : ∀ {s s' : State V}, s == s' → s.ObsEq u → s'.ObsEq u := fun {s s'} h hu =>
    (of_sameView (.of_renamed ((State.renamed_one_iff s s').mpr h) hu.acyclic_left)).symm.trans hu
  exact ⟨hforth h, hforth (BEq.symm h)⟩

end State.ObsEq

/-! ## Runs -/

namespace Machine

variable [ToString V] (machine : Machine)

theorem paths_sameView (reserved : List Var) (program : Program V) {s s' : State V}
    (h : SameView s s') :
    Alike AnyFault (List.Forall₂ SameView) (machine.paths reserved program s)
      (machine.paths reserved program s') := by
  let P : Unit → List Var → List Var → Program V → Program V → Prop := fun _ r r' p p' =>
    r = r' ∧ p = p'
  refine machine.paths_alike (S := fun _ : Unit => SameView) (P := P) ?_ (w := ()) ⟨rfl, rfl⟩ h
  rintro w r _ p _ ⟨rfl, rfl⟩
  cases p with
  | skip => exact .skip
  | fail => exact .fail
  | seq p q => exact .seq ⟨rfl, rfl⟩ ⟨rfl, rfl⟩
  | branch p q => exact .branch ⟨rfl, rfl⟩ ⟨rfl, rfl⟩
  | iterate p => exact .iterate ⟨rfl, rfl⟩
  | push t location => exact .push fun s s' hs => hs.push t location
  | pop t location => exact .pop fun s s' hs => hs.pop t location
  | scope x p =>
    refine .scope fun s s' hs => ?_
    -- The states mention the same variables, so the scopes choose the same name.
    have hfresh : freshFor x p s r = freshFor x p s' r := by
      refine freshFor_congr rfl fun y => ?_
      rw [inUse, inUse, hs.mentions_eq]
    rw [← hfresh]
    exact ⟨(), hs, ⟨rfl, rfl⟩, fun u u' hu => hu.project _⟩

/-- Runs of a program from observationally equal states have outcomes with the same mass in every
class of observationally equal states; if one of the runs succeeds, only an overflow can prevent the
other. -/
theorem run_obsEq (hlimit : machine.config.timeLimit = none) (program : Program V)
    {s s' : State V} (h : s.ObsEq s') :
    (∀ r r', machine.run program s = .ok r → machine.run program s' = .ok r' →
      ∀ u : State V, r.mass (fun t => t.ObsEq u) = r'.mass (fun t => t.ObsEq u)) ∧
    ((∃ r, machine.run program s = .ok r) → (∃ r', machine.run program s' = .ok r') ∨
      machine.run program s' = .error .multiplicityOverflow) ∧
    ((∃ r', machine.run program s' = .ok r') → (∃ r, machine.run program s = .ok r) ∨
      machine.run program s = .error .multiplicityOverflow) := by
  have hpaths := machine.paths_sameView [] program h.sameView
  have hpaths' := machine.paths_sameView [] program h.symm.sameView
  refine ⟨fun r r' hr hr' u => ?_, ok_or_overflow_of_paths hlimit hpaths,
    ok_or_overflow_of_paths hlimit hpaths'⟩
  refine mass_eq_of_paths hlimit hpaths (fun _ _ => State.ObsEq.congr_left) (fun t t' ht => ?_) hr hr'
  have ht := State.ObsEq.of_sameView ht
  exact ⟨ht.symm.trans, ht.trans⟩

/-- A stack cell refers to a variable that is bound through another one. -/
def chained : State String :=
  ⟨⟨.ofList [("l", .ofList [.ref ⟨"x", false⟩])]⟩,
    (Substitution.empty.set ⟨"x", false⟩ (.ref ⟨"y", false⟩)).set ⟨"y", false⟩ (.value "v")⟩

/-- The same state with its chain shortened and its stack cell resolved. -/
def shortened : State String :=
  ⟨⟨.ofList [("l", .ofList [.value "v"])]⟩,
    (Substitution.empty.set ⟨"x", false⟩ (.value "v")).set ⟨"y", false⟩ (.value "v")⟩

theorem sameView_shortened : SameView chained shortened := by
  have hget : ∀ z, chained.substitution.get? z =
      if z == ⟨"y", false⟩ then some (.value "v")
      else if z == ⟨"x", false⟩ then some (.ref ⟨"y", false⟩) else none := by
    intro z
    rw [chained, Substitution.get?_set, Substitution.get?_set, Substitution.get?_empty]
  have hget' : ∀ z, shortened.substitution.get? z =
      if z == ⟨"y", false⟩ then some (.value "v")
      else if z == ⟨"x", false⟩ then some (.value "v") else none := by
    intro z
    rw [shortened, Substitution.get?_set, Substitution.get?_set, Substitution.get?_empty]
  have hy : chained.substitution.Ends ⟨"y", false⟩ (.value "v") := .value (hget _)
  have hends : ∀ z z' : Var, z.Renamed 1 z' →
      SameEnd chained.substitution shortened.substitution (.ref z) (.ref z') := by
    intro z z' hz
    have hzy : (z == ⟨"y", false⟩) = (z' == ⟨"y", false⟩) := hz.beq_eq rfl
    have hzx : (z == ⟨"x", false⟩) = (z' == ⟨"x", false⟩) := hz.beq_eq rfl
    have hz₁ := hget z
    have hz₂ := hget' z'
    rw [hzy, hzx] at hz₁
    split at hz₁
    · rename_i h
      rw [if_pos h] at hz₂
      exact ⟨_, _, .value hz₁, .value hz₂, .value "v"⟩
    · rename_i h
      rw [if_neg h] at hz₂
      split at hz₁
      · rename_i h
        rw [if_pos h] at hz₂
        exact ⟨_, _, .step hz₁ hy, .value hz₂, .value "v"⟩
      · rename_i h
        rw [if_neg h] at hz₂
        exact ⟨_, _, .unbound hz₁, .unbound hz₂, .ref hz⟩
  refine ⟨hends, fun location => ?_⟩
  have htable : chained.memory.table = NameMap.empty.insert "l" (.ofList [.ref ⟨"x", false⟩]) := rfl
  have htable' : shortened.memory.table = NameMap.empty.insert "l" (.ofList [.value "v"]) := rfl
  rw [htable, htable', NameMap.get?_insert, NameMap.get?_insert]
  split
  · have hx : chained.substitution.Ends ⟨"x", false⟩ (.value "v") := .step (hget _) hy
    exact .some (.cons ⟨_, _, hx, rfl, .value "v"⟩ .nil)
  · exact .none

/-- A cell is popped and pushed back: a reference in one run, the value at its end in the other. -/
theorem run_obsEq_shortened :
    ∃ r r', run {} (.seq (.popVar "z" "l") (.pushVar "z" "l")) chained = .ok r ∧
      run {} (.seq (.popVar "z" "l") (.pushVar "z" "l")) shortened = .ok r' ∧
      ∀ u : State String, r.mass (fun t => t.ObsEq u) = r'.mass (fun t => t.ObsEq u) := by
  have hrun : (run {} (.seq (.popVar "z" "l") (.pushVar "z" "l")) chained).isOk := by decide +kernel
  have hrun' : (run {} (.seq (.popVar "z" "l") (.pushVar "z" "l")) shortened).isOk := by decide +kernel
  obtain ⟨r, hr⟩ := exists_ok_of_isOk hrun
  obtain ⟨r', hr'⟩ := exists_ok_of_isOk hrun'
  have hobs := State.ObsEq.of_sameView sameView_shortened
  exact ⟨r, r', hr, hr', (run_obsEq {} rfl _ hobs).1 r r' hr hr'⟩

end Machine

end StackCalculus
