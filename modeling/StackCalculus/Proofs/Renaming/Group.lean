import Mathlib
import StackCalculus.Proofs.Renaming.State

/-!
# Renamings form a group

Images of states compose and can be undone, so the states that are images of each other under the
bijections that fix certain names form classes (`State.SameUpTo`). The image of a state depends on
what the bijection does to the names that the state mentions only; a bijection can therefore be changed
to take a fresh name to any other fresh name (`State.Renamed.extend`).
-/

namespace StackCalculus

variable {V : Type} {π ρ : Equiv.Perm String}

/-! ## Inverses and compositions -/

theorem Var.Renamed.inv {x y : Var} (h : x.Renamed π y) : y.Renamed π.symm x :=
  (Equiv.symm_apply_eq π).mpr (Eq.symm h)

theorem Cell.Renamed.symm {c c' : Cell V} (h : c.Renamed π c') : c'.Renamed π.symm c := by
  cases h with
  | value v => exact .value v
  | ref hx => exact .ref hx.inv

theorem Cell.Renamed.trans {c c' c'' : Cell V} (h : c.Renamed π c') (h' : c'.Renamed ρ c'') :
    c.Renamed (π.trans ρ) c'' := by
  cases h with
  | value v =>
    cases h'
    exact .value v
  | @ref x y hx =>
    cases h' with
    | @ref _ z hy =>
      have hx : π x.name = y.name := hx
      have hy : ρ y.name = z.name := hy
      refine .ref (show ρ (π x.name) = z.name from ?_)
      rw [hx, hy]

namespace Substitution.Renamed

variable {s s' s'' : Substitution V}

theorem symm (h : s.Renamed π s') : s'.Renamed π.symm s := by
  intro x x' hx
  have hrel := h x' x ((Equiv.symm_apply_eq π).mp hx).symm
  generalize s.get? x' = o at hrel ⊢
  generalize s'.get? x = o' at hrel ⊢
  cases hrel with
  | none => exact .none
  | some hc => exact .some hc.symm

theorem trans (h : s.Renamed π s') (h' : s'.Renamed ρ s'') : s.Renamed (π.trans ρ) s'' := by
  intro x x'' hx
  let x' : Var := ⟨π x.name, false⟩
  have hrel := h x x' rfl
  have hrel' := h' x' x'' hx
  generalize s.get? x = o at hrel ⊢
  generalize s'.get? x' = o' at hrel hrel'
  generalize s''.get? x'' = o'' at hrel' ⊢
  cases hrel with
  | none =>
    cases hrel'
    exact .none
  | some hc =>
    cases hrel' with
    | some hc' => exact .some (hc.trans hc')

end Substitution.Renamed

namespace State.Renamed

variable {s s' s'' : State V}

theorem symm (h : s.Renamed π s') : s'.Renamed π.symm s :=
  ⟨h.memory.symm fun _ _ => Cell.Renamed.symm, h.substitution.symm⟩

theorem trans (h : s.Renamed π s') (h' : s'.Renamed ρ s'') : s.Renamed (π.trans ρ) s'' :=
  ⟨h.memory.trans h'.memory fun _ _ _ => Cell.Renamed.trans, h.substitution.trans h'.substitution⟩

end State.Renamed

/-! ## Classes -/

/-- One state is the image of the other under a bijection of names that fixes certain names. -/
def State.SameUpTo (fixed : String → Prop) (s s' : State V) : Prop :=
  ∃ π : Equiv.Perm String, (∀ name, fixed name → π name = name) ∧ s.Renamed π s'

namespace State.SameUpTo

variable {fixed : String → Prop} {s s' s'' : State V}

theorem symm (h : s.SameUpTo fixed s') : s'.SameUpTo fixed s := by
  obtain ⟨π, hfixed, hs⟩ := h
  exact ⟨π.symm, fun name hname => (Equiv.symm_apply_eq π).mpr (hfixed name hname).symm, hs.symm⟩

theorem trans (h : s.SameUpTo fixed s') (h' : s'.SameUpTo fixed s'') : s.SameUpTo fixed s'' := by
  obtain ⟨π, hfixed, hs⟩ := h
  obtain ⟨ρ, hfixed', hs'⟩ := h'
  refine ⟨π.trans ρ, fun name hname => ?_, hs.trans hs'⟩
  rw [Equiv.trans_apply, hfixed name hname, hfixed' name hname]

theorem congr_left (h : s.SameUpTo fixed s') : s.SameUpTo fixed s'' ↔ s'.SameUpTo fixed s'' :=
  ⟨h.symm.trans, h.trans⟩

theorem of_beq [DecidableEq V] (h : s == s') : s.SameUpTo fixed s' :=
  ⟨1, fun _ _ => rfl, (State.renamed_one_iff s s').mpr h⟩

end State.SameUpTo

/-! ## Mentioned names -/

namespace State

theorem mentions_congr (s : State V) {x y : Var} (h : x.name = y.name) (hx : s.mentions x) :
    s.mentions y := by
  rw [mentions_iff] at hx ⊢
  rwa [← h]

theorem mentions_of_get? {s : State V} {x : Var} {c : Cell V} (h : s.substitution.get? x = some c) :
    s.mentions x := by
  rw [mentions, Bool.or_eq_true, Substitution.mentions_iff]
  exact .inl (.inl ⟨c, h⟩)

theorem mentions_of_binding {s : State V} {x y : Var} {c : Cell V}
    (h : s.substitution.get? x = some c) (hc : c.refersTo y) : s.mentions y := by
  rw [mentions, Bool.or_eq_true, Substitution.mentions_iff]
  exact .inl (.inr ⟨x, c, h, hc⟩)

theorem mentions_of_cell {s : State V} {location : String} {stack : Stack V} {y : Var} {c : Cell V}
    (h : s.memory.table.get? location = some stack) (hmem : c ∈ stack.cells) (hc : c.refersTo y) :
    s.mentions y := by
  rw [mentions, Bool.or_eq_true, Memory.mentions_iff]
  exact .inr ⟨location, stack, h, List.any_eq_true.mpr ⟨c, hmem, hc⟩⟩

end State

theorem Cell.Renamed.congr {c c' : Cell V} (h : c.Renamed π c')
    (hagree : ∀ x : Var, c.refersTo x → π x.name = ρ x.name) : c.Renamed ρ c' := by
  cases h with
  | value v => exact .value v
  | @ref x y hx => exact .ref ((hagree x (BEq.refl x)).symm.trans hx)

namespace State.Renamed

variable {s s' : State V}

/-- Only what `π` does to the names that a state mentions matters for its image. -/
theorem congr (h : s.Renamed π s') (hagree : ∀ x : Var, s.mentions x → π x.name = ρ x.name) :
    s.Renamed ρ s' := by
  refine ⟨?_, fun x x' hx => ?_⟩
  · refine h.memory.mono_of_mem fun location stack hget c hc c' hcc' => ?_
    exact hcc'.congr fun x hx => hagree x (mentions_of_cell hget hc hx)
  · cases hget : s.substitution.get? x with
    | some c =>
      have hx' : x.Renamed π x' := (hagree x (mentions_of_get? hget)).trans hx
      obtain ⟨c', hget', hc⟩ := h.substitution.get?_eq_some hx' hget
      rw [hget']
      exact .some (hc.congr fun y hy => hagree y (mentions_of_binding hget hy))
    | none =>
      -- A binding of `x'` would be the image of a binding, and that of the name `x`.
      have hget' : s'.substitution.get? x' = none := by
        obtain ⟨z, hz⟩ := Var.exists_renamed π x'
        cases hz' : s.substitution.get? z with
        | none => exact h.substitution.get?_eq_none hz hz'
        | some c =>
          have himage : ρ z.name = ρ x.name :=
            (hagree z (mentions_of_get? hz')).symm.trans (hz.trans hx.symm)
          have hzx : z == x := Var.beq_iff.mpr (ρ.injective himage)
          exact absurd hzx (Substitution.not_beq_of_get? hz' hget)
      rw [hget']
      exact .none

end State.Renamed

/-! ## Fresh names -/

/-- The bijection changed to take `a` to `b`. -/
def extendPerm (π : Equiv.Perm String) (a b : String) : Equiv.Perm String :=
  π.trans (Equiv.swap (π a) b)

theorem extendPerm_self (π : Equiv.Perm String) (a b : String) : extendPerm π a b a = b :=
  Equiv.swap_apply_left (π a) b

theorem extendPerm_of_ne {a b name : String} (ha : name ≠ a) (hb : π name ≠ b) :
    extendPerm π a b name = π name :=
  Equiv.swap_apply_of_ne_of_ne (fun h => ha (π.injective h)) hb

namespace State.Renamed

variable {s s' : State V} {x x' : Var}

theorem extendPerm_of_mentions (h : s.Renamed π s') (hx : s.mentions x = false)
    (hx' : s'.mentions x' = false) {z : Var} (hz : s.mentions z) :
    extendPerm π x.name x'.name z.name = π z.name := by
  refine extendPerm_of_ne (fun hname => ?_) fun hname => ?_
  · rw [s.mentions_congr hname hz] at hx
    cases hx
  · have hrenamed : z.Renamed π x' := hname
    rw [← h.mentions_eq hrenamed, hz] at hx'
    cases hx'

/-- A fresh name may be taken to any other fresh name. -/
theorem extend (h : s.Renamed π s') (hx : s.mentions x = false) (hx' : s'.mentions x' = false) :
    s.Renamed (extendPerm π x.name x'.name) s' :=
  h.congr fun _ hz => (h.extendPerm_of_mentions hx hx' hz).symm

end State.Renamed

end StackCalculus
