import Mathlib
import StackCalculus.Proofs.Adequacy
import StackCalculus.Proofs.Scope.Kept

/-!
# Renaming the variable of a scope

The variable of a scope is replaced by a fresh one when the scope is entered, so its name should not
matter. It does matter for the names of the fresh variables that scopes choose, and these can remain in
the outcome. Two runs that differ in the variable of a scope therefore have the same outcomes up to a
bijection of names, another one for each path: it grows by a pair of fresh names with every scope
that is entered (`Linked.enter`). It fixes the names that no scope chooses, the plain ones among them,
and the names that the runs keep from the start (`run_scope_rename`). It cannot be made to fix all
names that the starting state mentions (`run_scope_rename_reused`).
-/

namespace StackCalculus

variable {V : Type}

/-! ## Names that scopes choose -/

/-- A name without an index, as names in source programs are. -/
def IsPlain (name : String) : Prop := '#' ∉ name.toList

instance (name : String) : Decidable (IsPlain name) := inferInstanceAs (Decidable (_ ∉ _))

/-- The names of the variables that the scopes of a program bind. -/
def Program.bound : Program V → List String
  | .skip | .fail | .push _ _ | .pop _ _ => []
  | .seq p q | .branch p q => p.bound ++ q.bound
  | .iterate p => p.bound
  | .scope x p => x.name :: p.bound

@[simp] theorem Program.bound_rename (old new : Var) (p : Program V) :
    (p.rename old new).bound = p.bound := by
  induction p with
  | skip => rfl
  | fail => rfl
  | seq p q ihp ihq => simp [Program.rename, Program.bound, ihp, ihq]
  | branch p q ihp ihq => simp [Program.rename, Program.bound, ihp, ihq]
  | iterate p ih => simp [Program.rename, Program.bound, ih]
  | push t location => rfl
  | pop t location => rfl
  | scope x p ih =>
    rw [Program.rename]
    split
    · rfl
    · rw [Program.bound, Program.bound, ih]

/-- The names that scopes can choose if they bind the names in `bound` only. -/
def IsChosen (bound : List String) (name : String) : Prop :=
  ∃ base ∈ bound, ∃ i, (Var.indexed base i).name = name

theorem IsPlain.not_isChosen {bound : List String} {name : String} (h : IsPlain name) :
    ¬ IsChosen bound name := by
  rintro ⟨base, _, i, rfl⟩
  exact h (Var.hash_mem_indexed base i)

/-- A fresh variable is one that a scope can choose, not reserved and not mentioned. -/
theorem freshFor_chosen {bound : List String} {x : Var} (hx : x.name ∈ bound) (body : Program V)
    (state : State V) (reserved : List Var) :
    IsChosen bound (freshFor x body state reserved).name ∧
      reserved.contains (freshFor x body state reserved) = false ∧
      state.mentions (freshFor x body state reserved) = false := by
  obtain ⟨i, hfresh, _⟩ := freshFor_spec x body state reserved
  have hfree := inUse_freshFor x body state reserved
  rw [inUse, Bool.or_eq_false_iff, Bool.or_eq_false_iff] at hfree
  exact ⟨⟨x.name, hx, i, congrArg Var.name hfresh.symm⟩, hfree.1.2, hfree.2⟩

theorem name_ne_of_contains_eq_false {reserved : List Var} {x f : Var}
    (h : reserved.contains f = false) (hx : x ∈ reserved) : x.name ≠ f.name := by
  intro hname
  rw [List.contains_iff_exists_mem_beq.mpr ⟨x, hx, Var.beq_iff.mpr hname.symm⟩] at h
  cases h

/-! ## Pairs of scopes -/

/-- The fresh variables of the scopes that two runs are in, pair by pair, and a bijection that takes
the left ones to the right ones and fixes the names that no scope chooses. -/
structure Pairing (bound : List String) where
  perm : Equiv.Perm String
  left : List Var
  right : List Var
  unchosen : ∀ name, ¬ IsChosen bound name → perm name = name
  paired : List.Forall₂ (Var.Renamed perm) left right

namespace Pairing

/-- The pairing outside all scopes. -/
def empty (bound : List String) : Pairing bound where
  perm := 1
  left := []
  right := []
  unchosen _ _ := rfl
  paired := .nil

/-- The names that a program inside the scopes can have. -/
def Governs {bound : List String} (w : Pairing bound) (name : String) : Prop :=
  ¬ IsChosen bound name ∨ ∃ x ∈ w.left, x.name = name

end Pairing

/-- The names that no scope chooses if scopes bind the names in `bound` only, and those that a run
from `s` keeps if it pops from the locations in `popped` only. -/
def State.Fixed (s : State V) (bound popped : List String) (name : String) : Prop :=
  ¬ IsChosen bound name ∨ s.Kept popped ⟨name, false⟩

/-- States on the way of two runs from `s`: one is the image of the other under a bijection that
respects the pairing of their scopes. -/
def Linked {bound : List String} (s : State V) (popped : List String) (w : Pairing bound)
    (u u' : State V) : Prop :=
  ∃ π : Equiv.Perm String, (∀ name, s.Fixed bound popped name → π name = name) ∧
    (∀ x ∈ w.left, π x.name = w.perm x.name) ∧ u.Renamed π u' ∧ Keeps s popped u

/-- Programs inside paired scopes that differ in the variables of the scopes only. -/
structure Twin {bound : List String} (popped : List String) (w : Pairing bound) (r r' : List Var)
    (p p' : Program V) : Prop where
  left : r = w.left
  right : r' = w.right
  renamed : p.Renamed w.perm p'
  governed : ∀ name ∈ p.names, w.Governs name
  bound_left : ∀ base ∈ p.bound, base ∈ bound
  bound_right : ∀ base ∈ p'.bound, base ∈ bound
  popped : ∀ location ∈ p.popped, location ∈ popped

section Runs

variable {s u u' : State V} {bound popped : List String} {w : Pairing bound} {π : Equiv.Perm String}

theorem Linked.start [DecidableEq V] (s : State V) (bound popped : List String) :
    Linked s popped (.empty bound) s s :=
  ⟨1, fun _ _ => rfl, fun _ _ => rfl, (State.renamed_one_iff s s).mpr (BEq.refl s),
    Keeps.refl s popped⟩

theorem Linked.sameUpTo (h : Linked s popped w u u') : u.SameUpTo (s.Fixed bound popped) u' := by
  obtain ⟨π, hfixed, _, hu, _⟩ := h
  exact ⟨π, hfixed, hu⟩

/-- Two scopes are entered: their fresh variables become a pair, and when the scopes end the states
are still linked without it. -/
theorem Linked.enter (h : Linked s popped w u u') {f f' : Var} (hf : IsChosen bound f.name)
    (hf' : IsChosen bound f'.name) (hu : u.mentions f = false) (hu' : u'.mentions f' = false)
    (hleft : w.left.contains f = false) (hright : w.right.contains f' = false) :
    ∃ w' : Pairing bound, w'.left = w.left ++ [f] ∧ w'.right = w.right ++ [f'] ∧ f.Renamed w'.perm f' ∧
      (∀ name, w.Governs name → w.perm name = w'.perm name) ∧ Linked s popped w' u u' ∧
      ∀ v v', Linked s popped w' v v' → Linked s popped w (v.project f) (v'.project f') := by
  obtain ⟨π, hfixed, hagree, hrenamed, hkeeps⟩ := h
  let ρ := extendPerm π f.name f'.name
  have hnew : ρ f.name = f'.name := extendPerm_self π f.name f'.name
  -- The new pair disturbs neither the names that no scope chooses, nor the pairs already there,
  -- nor the names that the runs keep: all these are different from `f`, and their images from `f'`.
  have hunchosen : ∀ name, ¬ IsChosen bound name → ρ name = name := by
    intro name hname
    have hπ : π name = name := hfixed name (.inl hname)
    have hne : name ≠ f.name := fun heq => hname (heq ▸ hf)
    have hne' : π name ≠ f'.name := fun heq => hname (hπ ▸ heq ▸ hf')
    exact (extendPerm_of_ne hne hne').trans hπ
  have hreserved : ∀ x ∈ w.left, ρ x.name = w.perm x.name := by
    intro x hx
    obtain ⟨x', hx', hxx'⟩ := forall₂_exists_right w.paired hx
    have himage : π x.name = x'.name := (hagree x hx).trans hxx'
    have hne : x.name ≠ f.name := name_ne_of_contains_eq_false hleft hx
    have hne' : π x.name ≠ f'.name := himage ▸ name_ne_of_contains_eq_false hright hx'
    exact (extendPerm_of_ne hne hne').trans (hagree x hx)
  have hkept : ∀ name, s.Fixed bound popped name → ρ name = name := by
    rintro name (hname | hname)
    · exact hunchosen name hname
    · have hmentions := hkeeps.mentions hname
      exact (hrenamed.extendPerm_of_mentions hu hu' hmentions).trans (hfixed name (.inr hname))
  have hpaired : List.Forall₂ (Var.Renamed ρ) (w.left ++ [f]) (w.right ++ [f']) :=
    List.rel_append (forall₂_imp_of_mem (fun x hx x' _ hxx' => (hreserved x hx).trans hxx') w.paired)
      (.cons hnew .nil)
  refine ⟨⟨ρ, w.left ++ [f], w.right ++ [f'], hunchosen, hpaired⟩, rfl, rfl, hnew, ?_,
    ⟨ρ, hkept, fun _ _ => rfl, hrenamed.extend hu hu', hkeeps⟩, ?_⟩
  · rintro name (hname | ⟨x, hx, rfl⟩)
    · exact (w.unchosen name hname).trans (hunchosen name hname).symm
    · exact (hreserved x hx).symm
  -- The bijection at the end of the scopes may be another one, but it still takes `f` to `f'`.
  · rintro v v' ⟨σ, hσfixed, hσagree, hσ, hσkeeps⟩
    have hσf : f.Renamed σ f' := (hσagree f List.mem_append_cons_self).trans hnew
    have hnot : ¬ s.Kept popped f := by
      intro hkept
      rw [hkeeps.mentions hkept] at hu
      cases hu
    refine ⟨σ, hσfixed, fun x hx => ?_, hσ.project hσf, hσkeeps.project hnot⟩
    exact (hσagree x (List.mem_append_left _ hx)).trans (hreserved x hx)

theorem Pairing.agree (hfixed : ∀ name, s.Fixed bound popped name → π name = name)
    (hagree : ∀ x ∈ w.left, π x.name = w.perm x.name) {name : String} (h : w.Governs name) :
    w.perm name = π name := by
  rcases h with hname | ⟨x, hx, rfl⟩
  · exact (w.unchosen name hname).trans (hfixed name (.inl hname)).symm
  · exact (hagree x hx).symm

variable [DecidableEq V] [ToString V]

/-- Every step of twin programs keeps the states linked. -/
theorem Twin.steps (s : State V) {r r' : List Var} {p p' : Program V}
    (h : Twin popped w r r' p p') : StepsAlike (Linked s popped) (Twin popped) w r r' p p' := by
  obtain ⟨rfl, rfl, hrenamed, hgoverned, hbound, hbound', hpopped⟩ := h
  cases hrenamed with
  | skip => exact .skip
  | fail => exact .fail
  | seq hp hq =>
    obtain ⟨hgp, hgq⟩ := List.forall_mem_append.mp hgoverned
    obtain ⟨hlp, hlq⟩ := List.forall_mem_append.mp hpopped
    obtain ⟨hbp, hbq⟩ := List.forall_mem_append.mp hbound
    obtain ⟨hbp', hbq'⟩ := List.forall_mem_append.mp hbound'
    exact .seq ⟨rfl, rfl, hp, hgp, hbp, hbp', hlp⟩ ⟨rfl, rfl, hq, hgq, hbq, hbq', hlq⟩
  | branch hp hq =>
    obtain ⟨hgp, hgq⟩ := List.forall_mem_append.mp hgoverned
    obtain ⟨hlp, hlq⟩ := List.forall_mem_append.mp hpopped
    obtain ⟨hbp, hbq⟩ := List.forall_mem_append.mp hbound
    obtain ⟨hbp', hbq'⟩ := List.forall_mem_append.mp hbound'
    exact .branch ⟨rfl, rfl, hp, hgp, hbp, hbp', hlp⟩ ⟨rfl, rfl, hq, hgq, hbq, hbq', hlq⟩
  | iterate hp => exact .iterate ⟨rfl, rfl, hp, hgoverned, hbound, hbound', hpopped⟩
  | push ht location =>
    refine .push ?_
    rintro u u' ⟨π, hfixed, hagree, hu, hkeeps⟩
    have ht' := ht.congr fun name hname => Pairing.agree hfixed hagree (hgoverned name hname)
    refine (hu.push ht' location).with_ok.mono (fun _ _ h => h) ?_
    rintro v v' ⟨hv, hpush, _⟩
    exact ⟨π, hfixed, hagree, hv, hkeeps.push hpush⟩
  | pop ht location =>
    refine .pop ?_
    rintro u u' ⟨π, hfixed, hagree, hu, hkeeps⟩
    have ht' := ht.congr fun name hname => Pairing.agree hfixed hagree (hgoverned name hname)
    refine (hu.pop ht' location).with_ok.mono (fun _ _ h => h) ?_
    rintro v v' ⟨hv, hpop, _⟩
    exact ⟨π, hfixed, hagree, hv, hkeeps.pop (hpopped location List.mem_cons_self) hpop⟩
  | @scope x x' p p' hx hp =>
    refine .scope fun u u' hu => ?_
    obtain ⟨hgx, hgp⟩ := List.forall_mem_cons.mp hgoverned
    obtain ⟨hbx, hbp⟩ := List.forall_mem_cons.mp hbound
    obtain ⟨hbx', hbp'⟩ := List.forall_mem_cons.mp hbound'
    obtain ⟨hf, hleft, hmentions⟩ := freshFor_chosen hbx p u w.left
    obtain ⟨hf', hright, hmentions'⟩ := freshFor_chosen hbx' p' u' w.right
    obtain ⟨w', hleft', hright', hfresh, hgoverns, hlinked, hexit⟩ :=
      hu.enter hf hf' hmentions hmentions' hleft hright
    have hp' := hp.congr fun name hname => hgoverns name (hgp name hname)
    have hx' : x.Renamed w'.perm x' := (hgoverns x.name hgx).symm.trans hx
    refine ⟨w', hlinked,
      ⟨hleft'.symm, hright'.symm, hp'.rename hx' hfresh, ?_, ?_, ?_, ?_⟩, hexit⟩
    · intro name hname
      rcases Program.mem_names_rename hname with hname | rfl
      · exact (hgp name hname).imp id fun ⟨y, hy, heq⟩ =>
          ⟨y, hleft' ▸ List.mem_append_left _ hy, heq⟩
      · exact .inr ⟨_, hleft' ▸ List.mem_append_cons_self, rfl⟩
    · rwa [Program.bound_rename]
    · rwa [Program.bound_rename]
    · rwa [Program.popped_rename]

/-- The runs of a scope and of the scope with its variable renamed are linked path by path. -/
theorem Machine.paths_scope_rename (machine : Machine) {x y : Var} {body : Program V}
    (hbody : ∀ name ∈ body.names, IsPlain name) (hx : IsPlain x.name) (hy : y.name ∉ body.names)
    (s : State V) :
    Alike AnyFault
      (List.Forall₂ (Linked s body.popped (.empty (x.name :: y.name :: body.bound))))
      (machine.paths [] (.scope x body) s)
      (machine.paths [] (.scope y (body.rename x y)) s) := by
  -- Both scopes put their fresh variable in place of `x`; the bodies are twins from there on.
  rw [paths, paths, Program.rename_rename hy]
  let bound := x.name :: y.name :: body.bound
  have hbound : ∀ base ∈ body.bound, base ∈ bound := fun base h => by simp [bound, h]
  have hxbound : x.name ∈ bound := by simp [bound]
  have hybound : y.name ∈ bound := by simp [bound]
  let f := freshFor x body s []
  let f' := freshFor y (body.rename x y) s []
  obtain ⟨hf, hleft, hmentions⟩ := freshFor_chosen hxbound body s []
  obtain ⟨hf', hright, hmentions'⟩ := freshFor_chosen hybound (body.rename x y) s []
  obtain ⟨w, hleft', hright', hfresh, hgoverns, hlinked, hexit⟩ :=
    (Linked.start s bound body.popped).enter hf hf' hmentions hmentions' hleft hright
  have hrenamed : body.Renamed w.perm body :=
    body.renamed_one.congr fun name hname => hgoverns name (.inl (hbody name hname).not_isChosen)
  have hgoverned : ∀ name ∈ (body.rename x f).names, w.Governs name := by
    intro name hname
    rcases Program.mem_names_rename hname with hname | rfl
    · exact .inl (hbody name hname).not_isChosen
    · exact .inr ⟨_, hleft' ▸ List.mem_cons_self, rfl⟩
  have htwin : Twin body.popped w ([] ++ [f]) ([] ++ [f']) (body.rename x f) (body.rename x f') := by
    refine ⟨hleft'.symm, hright'.symm, hrenamed.rename (w.unchosen x.name hx.not_isChosen) hfresh,
      hgoverned, ?_, ?_, ?_⟩
    · rwa [Program.bound_rename]
    · rwa [Program.bound_rename]
    · rw [Program.popped_rename]
      exact fun _ h => h
  have hpaths := machine.paths_alike (fun _ _ _ _ _ => Twin.steps s) htwin hlinked
  refine hpaths.bind fun inner inner' hinner => .ok ?_
  rw [List.forall₂_map_left_iff, List.forall₂_map_right_iff]
  exact hinner.imp hexit

/-- Runs of a scope and of the scope with its variable renamed have outcomes with the same mass in
every class of states up to bijections of names that fix the names no scope of the two programs can
choose (the plain ones among them), the names in the bindings of the starting state, and the names in
its stacks at locations that the body does not pop from. -/
theorem Machine.run_scope_rename (machine : Machine) (hlimit : machine.config.timeLimit = none)
    {x y : Var} {body : Program V} (hbody : ∀ name ∈ body.names, IsPlain name)
    (hx : IsPlain x.name) (hy : y.name ∉ body.names) (s : State V) {r r' : Configuration V}
    (hr : machine.run (.scope x body) s = .ok r)
    (hr' : machine.run (.scope y (body.rename x y)) s = .ok r') (u : State V) :
    r.mass (fun t => t.SameUpTo (s.Fixed (x.name :: y.name :: body.bound) body.popped) u) =
      r'.mass (fun t => t.SameUpTo (s.Fixed (x.name :: y.name :: body.bound) body.popped) u) := by
  have hpaths := machine.paths_scope_rename hbody hx hy s
  refine mass_eq_of_paths hlimit hpaths (fun t t' ht => ?_) (fun t t' ht => ?_) hr hr'
  · exact (State.SameUpTo.of_beq ht).congr_left
  · exact ht.sameUpTo.congr_left

end Runs

/-! ## Names that are dropped and chosen again -/

/-- A stack with a reference to a name that a scope of `a` can choose. -/
def holdingIndex : State String :=
  ⟨⟨.ofList [("l", .ofList [.ref ⟨"a#1", true⟩])]⟩, .empty⟩

/-- Drops the top of the stack, then leaves the variable of a scope on it. -/
def dropAndLeave : Program String :=
  .seq (.scope ⟨"b", false⟩ (.popVar "b" "l")) (.scope ⟨"a", false⟩ (.pushVar "a" "l"))

/-- The variables of two scopes are left on the stack, the renamed one and one of the same name. -/
theorem Machine.run_scope_rename_dropAndLeave :
    ∃ r r', run {} (.scope ⟨"a", false⟩ (.seq dropAndLeave (.pushVar "a" "l"))) holdingIndex = .ok r ∧
      run {} (.scope ⟨"c", false⟩ (.seq dropAndLeave (.pushVar "c" "l"))) holdingIndex = .ok r' ∧
      ∀ u : State String,
        r.mass (fun t => t.SameUpTo (holdingIndex.Fixed ["a", "c", "b", "a"] ["l"]) u) =
          r'.mass (fun t => t.SameUpTo (holdingIndex.Fixed ["a", "c", "b", "a"] ["l"]) u) := by
  have hrun : (run {} (.scope ⟨"a", false⟩ (.seq dropAndLeave (.pushVar "a" "l")))
      holdingIndex).isOk := by decide +kernel
  have hrun' : (run {} (.scope ⟨"c", false⟩ (.seq dropAndLeave (.pushVar "c" "l")))
      holdingIndex).isOk := by decide +kernel
  obtain ⟨r, hr⟩ := exists_ok_of_isOk hrun
  obtain ⟨r', hr'⟩ := exists_ok_of_isOk hrun'
  exact ⟨r, r', hr, hr', run_scope_rename {} rfl (by decide) (by decide) (by decide) _ hr hr'⟩

/-- The plain names and those that a state mentions. -/
def State.PlainOrMentioned (s : State V) (name : String) : Prop :=
  IsPlain name ∨ s.mentions ⟨name, false⟩

/-- The bijections cannot fix all names that the starting state mentions. The outer scope of `a`
chooses `a#0`, because `a#1` is on the stack. The name `a#1` is dropped, and then the inner scope
chooses it. If the outer variable is called `c`, the inner scope chooses `a#0`. -/
theorem Machine.run_scope_rename_reused :
    (∀ name ∈ dropAndLeave.names, IsPlain name) ∧ "c" ∉ dropAndLeave.names ∧
      ∃ r r' u, run {} (.scope ⟨"a", false⟩ dropAndLeave) holdingIndex = .ok r ∧
        run {} (.scope ⟨"c", false⟩ (dropAndLeave.rename ⟨"a", false⟩ ⟨"c", false⟩)) holdingIndex =
          .ok r' ∧
        r.mass (fun t => t.SameUpTo holdingIndex.PlainOrMentioned u) ≠
          r'.mass (fun t => t.SameUpTo holdingIndex.PlainOrMentioned u) := by
  let other : State String := ⟨⟨.ofList [("l", .ofList [.ref ⟨"a#0", true⟩])]⟩, .empty⟩
  have hrun : (run {} (.scope ⟨"a", false⟩ dropAndLeave) holdingIndex).toOption.any
      (· == .singleton holdingIndex) := by decide +kernel
  have hrun' : (run {} (.scope ⟨"c", false⟩ (dropAndLeave.rename ⟨"a", false⟩ ⟨"c", false⟩))
      holdingIndex).toOption.any (· == .singleton other) := by decide +kernel
  obtain ⟨r, hr, hsingle⟩ := exists_ok_of_any hrun
  obtain ⟨r', hr', hsingle'⟩ := exists_ok_of_any hrun'
  have hclass : ∀ t t' : State String, t == t' →
      (t.SameUpTo holdingIndex.PlainOrMentioned holdingIndex ↔
        t'.SameUpTo holdingIndex.PlainOrMentioned holdingIndex) :=
    fun _ _ h => (State.SameUpTo.of_beq h).congr_left
  -- The bijection would take both `a#0` and `a#1` to `a#1`.
  have hother : ¬ other.SameUpTo holdingIndex.PlainOrMentioned holdingIndex := by
    rintro ⟨π, hfixed, hrenamed⟩
    have hmentioned : π "a#1" = "a#1" := hfixed "a#1" (.inr (by decide))
    cases hrenamed.memory "l" with
    | some hcells =>
      cases hcells with
      | cons hcell _ =>
        cases hcell with
        | ref hname => exact absurd (π.injective (hname.trans hmentioned.symm)) (by decide)
  have hself : holdingIndex.SameUpTo holdingIndex.PlainOrMentioned holdingIndex :=
    .of_beq (BEq.refl _)
  refine ⟨by decide, by decide, r, r', holdingIndex, hr, hr', ?_⟩
  rw [Bag.mass_of_beq hsingle hclass, Bag.mass_of_beq hsingle' hclass, Bag.mass_singleton,
    Bag.mass_singleton, if_pos hself, if_neg hother]
  exact Nat.one_ne_zero

end StackCalculus
