import Mathlib
import StackCalculus.Machine.Scope
import StackCalculus.Machine.Config
import StackCalculus.Proofs.Result

/-!
# Paths

`Machine.paths` runs a program from one state and lists the state at the end of every path, without
merging equal states and without counts. It is the plain reading of the calculus that the machine is
compared with, and the level at which relations between runs are proved: if related programs take
related states to related states in every single step, then their paths are related one by one
(`paths_alike`).
-/

namespace StackCalculus

variable {V : Type}

/-! ## Layers of an iteration -/

/-- The states of a list, those that `body` takes them to, those that it takes these to, and so on,
up to an application that gives none. There may be `budget` applications; needing more is a
divergence after `bound` rounds. -/
def layers (bound : Nat) (body : State V → Except Fault (List (State V))) :
    (budget : Nat) → (frontier : List (State V)) → Except Fault (List (State V))
  | budget, frontier =>
    if frontier.isEmpty then .ok []
    else
      match budget with
      | 0 => .error (.divergence bound)
      | budget + 1 => do
        let next ← gather body frontier
        let later ← layers bound body budget next
        return frontier ++ later

section Layers

variable (bound : Nat) (body : State V → Except Fault (List (State V)))

@[simp] theorem layers_nil (budget : Nat) : layers bound body budget [] = .ok [] := by
  cases budget <;> rfl

theorem layers_zero {frontier : List (State V)} (h : frontier ≠ []) :
    layers bound body 0 frontier = .error (.divergence bound) := by
  rw [layers, if_neg (by simpa using h)]

theorem layers_succ (budget : Nat) {frontier : List (State V)} (h : frontier ≠ []) :
    layers bound body (budget + 1) frontier = do
      let next ← gather body frontier
      let later ← layers bound body budget next
      return frontier ++ later := by
  rw [layers, if_neg (by simpa using h)]

/-- A round of an iteration; on no states it changes nothing. -/
theorem layers_succ_eq_ok_iff (budget : Nat) (frontier all : List (State V)) :
    layers bound body (budget + 1) frontier = .ok all ↔
      ∃ next later, gather body frontier = .ok next ∧ layers bound body budget next = .ok later ∧
        all = frontier ++ later := by
  by_cases hempty : frontier = []
  · subst hempty
    rw [layers_nil]
    constructor
    · intro h
      cases h
      exact ⟨[], [], rfl, layers_nil bound body budget, rfl⟩
    · rintro ⟨next, later, hnext, hlater, rfl⟩
      cases hnext
      rw [layers_nil] at hlater
      cases hlater
      rfl
  · rw [layers_succ bound body budget hempty]
    simp only [bind_eq_ok_iff]
    constructor
    · rintro ⟨next, hnext, later, hlater, hall⟩
      cases hall
      exact ⟨next, later, hnext, hlater, rfl⟩
    · rintro ⟨next, later, hnext, hlater, rfl⟩
      exact ⟨next, hnext, later, hlater, rfl⟩

/-- The layers of two frontiers together are the layers of each, in another order. -/
theorem layers_append (budget : Nat) (xs ys : List (State V)) :
    (∀ all, layers bound body budget (xs ++ ys) = .ok all → ∃ first second,
      layers bound body budget xs = .ok first ∧ layers bound body budget ys = .ok second ∧
        all.Perm (first ++ second)) ∧
    ∀ first second, layers bound body budget xs = .ok first →
      layers bound body budget ys = .ok second →
        ∃ all, layers bound body budget (xs ++ ys) = .ok all := by
  induction budget generalizing xs ys with
  | zero =>
    have hempty : ∀ {zs all}, layers bound body 0 zs = .ok all → zs = [] := by
      intro zs all h
      by_contra hne
      rw [layers_zero bound body hne] at h
      cases h
    constructor
    · intro all h
      obtain ⟨rfl, rfl⟩ := List.append_eq_nil_iff.mp (hempty h)
      cases h
      exact ⟨[], [], rfl, rfl, .refl _⟩
    · intro first second hfirst hsecond
      obtain rfl := hempty hfirst
      obtain rfl := hempty hsecond
      exact ⟨[], rfl⟩
  | succ budget ih =>
    simp only [layers_succ_eq_ok_iff, gather_append_eq_ok_iff]
    constructor
    · rintro all ⟨_, later, ⟨next, next', hnext, hnext', rfl⟩, hlater, rfl⟩
      -- One round is done on both sides; the rest is the hypothesis for the next layers.
      obtain ⟨first, second, hfirst, hsecond, hperm⟩ := (ih next next').1 later hlater
      refine ⟨xs ++ first, ys ++ second, ⟨next, first, hnext, hfirst, rfl⟩,
        ⟨next', second, hnext', hsecond, rfl⟩, ?_⟩
      have hmiddle : (ys ++ (first ++ second)).Perm (first ++ (ys ++ second)) := by
        rw [← List.append_assoc, ← List.append_assoc]
        exact List.perm_append_comm.append_right second
      rw [List.append_assoc, List.append_assoc]
      exact ((hperm.append_left ys).trans hmiddle).append_left xs
    · rintro _ _ ⟨next, first, hnext, hfirst, rfl⟩ ⟨next', second, hnext', hsecond, rfl⟩
      obtain ⟨later, hlater⟩ := (ih next next').2 first second hfirst hsecond
      exact ⟨_, _, later, ⟨next, next', hnext, hnext', rfl⟩, hlater, rfl⟩

/-- The layers of a frontier are those of its states one by one, in another order. -/
theorem gather_layers (budget : Nat) (frontier : List (State V)) :
    Alike AnyFault List.Perm (gather (fun state => layers bound body budget [state]) frontier)
      (layers bound body budget frontier) := by
  induction frontier with
  | nil =>
    rw [layers_nil]
    exact .ok (.refl _)
  | cons state rest ih =>
    obtain ⟨hsplit, hjoin⟩ := layers_append bound body budget [state] rest
    refine Alike.of_exists (fun all hall => ?_) (fun all hall => ?_) fun _ _ _ _ => trivial
    -- One by one to all at once: the layers of the first state join those of the rest.
    · obtain ⟨first, hfirst, hall⟩ := bind_eq_ok_iff.mp hall
      obtain ⟨others, hothers, hall⟩ := bind_eq_ok_iff.mp hall
      rw [hothers] at ih
      obtain ⟨second, hsecond, hperm⟩ := ih.exists_right
      obtain ⟨both, hboth⟩ := hjoin first second hfirst hsecond
      obtain ⟨first', second', hfirst', hsecond', hperm'⟩ := hsplit both hboth
      obtain rfl : first' = first := Except.ok.inj (hfirst'.symm.trans hfirst)
      obtain rfl : second' = second := Except.ok.inj (hsecond'.symm.trans hsecond)
      cases hall
      exact ⟨both, hboth, (hperm.append_left first').trans hperm'.symm⟩
    · obtain ⟨first, second, hfirst, hsecond, _⟩ := hsplit all hall
      rw [hsecond] at ih
      obtain ⟨others, hothers, _⟩ := ih.symm.exists_right
      refine ⟨first ++ others, bind_eq_ok_iff.mpr ⟨first, hfirst, ?_⟩⟩
      exact bind_eq_ok_iff.mpr ⟨others, hothers, rfl⟩

/-- Layers of related frontiers are related one by one, if `body` and `body'` are. -/
theorem layers_forall₂ {bound bound' : Nat} {body body' : State V → Except Fault (List (State V))}
    {R : State V → State V → Prop}
    (hbody : ∀ s s', R s s' → Alike AnyFault (List.Forall₂ R) (body s) (body' s')) (budget : Nat)
    {frontier frontier' : List (State V)} (h : List.Forall₂ R frontier frontier') :
    Alike AnyFault (List.Forall₂ R) (layers bound body budget frontier)
      (layers bound' body' budget frontier') := by
  induction budget generalizing frontier frontier' with
  | zero =>
    cases h with
    | nil => exact .ok .nil
    | cons _ _ => exact .error trivial
  | succ budget ih =>
    cases h with
    | nil => exact .ok .nil
    | cons hhead htail =>
      have hall := List.Forall₂.cons hhead htail
      refine (gather_forall₂ hall hbody).bind fun next next' hnext => ?_
      exact (ih hnext).bind fun later later' hlater => .ok (List.rel_append hall hlater)

end Layers

/-! ## The paths of a program -/

/-- The outcome of a push or a pop: one state, or none if the calculus fails here. -/
def settled (result : Except Fault (State V)) : Except Fault (List (State V)) :=
  match result with
  | .ok state => .ok [state]
  | .error fault => if fault.isBranchFailure then .ok [] else .error fault

theorem settled_alike {R : State V → State V → Prop} {x y : Except Fault (State V)}
    (h : Alike SameFate R x y) : Alike AnyFault (List.Forall₂ R) (settled x) (settled y) := by
  cases h with
  | ok h => exact .ok (.cons h .nil)
  | @error e e' h =>
    have hfate : e.isBranchFailure = e'.isBranchFailure := h
    unfold settled
    simp only [hfate]
    split
    · exact .ok .nil
    · exact .error trivial

variable [DecidableEq V] [ToString V]

/-- The states at the ends of all paths of a program from a state, one for each path. `reserved` lists
the fresh variables of the scopes around the program. -/
def Machine.paths (machine : Machine) (reserved : List Var) :
    Program V → State V → Except Fault (List (State V))
  | .skip, state => .ok [state]
  | .fail, _ => .ok []
  | .seq p q, state => do
    let middle ← machine.paths reserved p state
    gather (machine.paths reserved q) middle
  | .branch p q, state => do
    let left ← machine.paths reserved p state
    let right ← machine.paths reserved q state
    return left ++ right
  | .iterate p, state =>
    layers machine.config.maxIterations (machine.paths reserved p) machine.config.maxIterations
      [state]
  | .push t location, state => settled (state.push t location)
  | .pop t location, state => settled (state.pop t location)
  | .scope x p, state => do
    let fresh := freshFor x p state reserved
    let inner ← machine.paths (reserved ++ [fresh]) (p.rename x fresh) state
    return inner.map fun outcome => outcome.project fresh
termination_by p => p.size
decreasing_by all_goals simp only [Program.size, Program.size_rename]; omega

section Clauses

variable (machine : Machine) (reserved : List Var)

theorem Machine.paths_skip : machine.paths reserved (.skip : Program V) = fun s => .ok [s] := by
  funext s
  rw [paths]

theorem Machine.paths_fail : machine.paths reserved (.fail : Program V) = fun _ => .ok [] := by
  funext s
  rw [paths]

theorem Machine.paths_seq (p q : Program V) :
    machine.paths reserved (.seq p q) =
      fun s => machine.paths reserved p s >>= gather (machine.paths reserved q) := by
  funext s
  rw [paths]

theorem Machine.paths_branch (p q : Program V) :
    machine.paths reserved (.branch p q) = fun s => do
      let left ← machine.paths reserved p s
      let right ← machine.paths reserved q s
      return left ++ right := by
  funext s
  rw [paths]

theorem Machine.paths_iterate (p : Program V) :
    machine.paths reserved (.iterate p) = fun s =>
      layers machine.config.maxIterations (machine.paths reserved p) machine.config.maxIterations
        [s] := by
  funext s
  rw [paths]

end Clauses

/-! ## Simulation

`S w` relates states and `P w` relates programs together with the variables reserved around them, in
a world `w` that may change when a scope is entered. -/

section Simulation

variable {W : Type} (S : W → State V → State V → Prop)
variable (P : W → List Var → List Var → Program V → Program V → Prop)

/-- What one step of related programs has to keep, form by form. -/
inductive StepsAlike (w : W) (r r' : List Var) : Program V → Program V → Prop where
  | skip : StepsAlike w r r' .skip .skip
  | fail : StepsAlike w r r' .fail .fail
  | seq {p p' q q' : Program V} (hp : P w r r' p p') (hq : P w r r' q q') :
      StepsAlike w r r' (.seq p q) (.seq p' q')
  | branch {p p' q q' : Program V} (hp : P w r r' p p') (hq : P w r r' q q') :
      StepsAlike w r r' (.branch p q) (.branch p' q')
  | iterate {p p' : Program V} (hp : P w r r' p p') :
      StepsAlike w r r' (.iterate p) (.iterate p')
  | push {t t' : Term V} {l l' : String}
      (h : ∀ s s', S w s s' → Alike SameFate (S w) (s.push t l) (s'.push t' l')) :
      StepsAlike w r r' (.push t l) (.push t' l')
  | pop {t t' : Term V} {l l' : String}
      (h : ∀ s s', S w s s' → Alike SameFate (S w) (s.pop t l) (s'.pop t' l')) :
      StepsAlike w r r' (.pop t l) (.pop t' l')
  | scope {x x' : Var} {p p' : Program V}
      (h : ∀ s s', S w s s' → ∃ w', S w' s s' ∧
        P w' (r ++ [freshFor x p s r]) (r' ++ [freshFor x' p' s' r'])
          (p.rename x (freshFor x p s r)) (p'.rename x' (freshFor x' p' s' r')) ∧
        ∀ u u', S w' u u' →
          S w (u.project (freshFor x p s r)) (u'.project (freshFor x' p' s' r'))) :
      StepsAlike w r r' (.scope x p) (.scope x' p')

variable {S P}

/-- If every step of related programs keeps states related, related programs have related paths, one
by one. -/
theorem Machine.paths_alike (machine : Machine)
    (hstep : ∀ w r r' p p', P w r r' p p' → StepsAlike S P w r r' p p') {w : W} {r r' : List Var}
    {p p' : Program V} (hprogram : P w r r' p p') {s s' : State V} (hs : S w s s') :
    Alike AnyFault (List.Forall₂ (S w)) (machine.paths r p s) (machine.paths r' p' s') := by
  induction p using Program.enter_induction generalizing w r r' p' s s' with
  | skip =>
    cases hstep _ _ _ _ _ hprogram
    rw [paths, paths]
    exact .ok (.cons hs .nil)
  | fail =>
    cases hstep _ _ _ _ _ hprogram
    rw [paths, paths]
    exact .ok .nil
  | seq p q ihp ihq =>
    cases hstep _ _ _ _ _ hprogram with
    | seq hp hq =>
      rw [paths, paths]
      refine (ihp hp hs).bind fun middle middle' hmiddle => ?_
      exact gather_forall₂ hmiddle fun u u' hu => ihq hq hu
  | branch p q ihp ihq =>
    cases hstep _ _ _ _ _ hprogram with
    | branch hp hq =>
      rw [paths, paths]
      refine (ihp hp hs).bind fun left left' hleft => (ihq hq hs).bind fun right right' hright => ?_
      exact .ok (List.rel_append hleft hright)
  | iterate p ih =>
    cases hstep _ _ _ _ _ hprogram with
    | iterate hp =>
      rw [paths, paths]
      exact layers_forall₂ (fun u u' hu => ih hp hu) _ (.cons hs .nil)
  | push t location =>
    cases hstep _ _ _ _ _ hprogram with
    | push h =>
      rw [paths, paths]
      exact settled_alike (h s s' hs)
  | pop t location =>
    cases hstep _ _ _ _ _ hprogram with
    | pop h =>
      rw [paths, paths]
      exact settled_alike (h s s' hs)
  | scope x p ih =>
    cases hstep _ _ _ _ _ hprogram with
    | scope h =>
      rw [paths, paths]
      obtain ⟨w', hs', hbody, hproject⟩ := h s s' hs
      refine (ih _ hbody hs').bind fun inner inner' hinner => .ok ?_
      rw [List.forall₂_map_left_iff, List.forall₂_map_right_iff]
      exact hinner.imp hproject

end Simulation

end StackCalculus
