import Mathlib
import StackCalculus.Proofs.Paths
import StackCalculus.Proofs.Renaming.State

/-!
# Renaming the names of a program

The images of terms and programs under a bijection of names. What a program does with its variables
(its free variables, a renaming of one of them, the choice of a fresh one) takes images to images.
Under the identity this gives that the paths of a program from equal states are equal one by one:
`Machine.paths_renamed_one`.
-/

namespace StackCalculus

variable {V : Type} {π ρ : Equiv.Perm String}

/-! ## Names that occur -/

mutual

/-- The names of the variables of a term. -/
def Term.names : Term V → List String
  | .var x => [x.name]
  | .func _ _ args _ => Term.namesOfAll args

/-- The names of the variables of all the terms. -/
def Term.namesOfAll : List (Term V) → List String
  | [] => []
  | t :: ts => t.names ++ Term.namesOfAll ts

end

/-- The names that occur in a program, those of free variables and those of binders. -/
def Program.names : Program V → List String
  | .skip | .fail => []
  | .seq p q | .branch p q => p.names ++ q.names
  | .iterate p => p.names
  | .push t _ | .pop t _ => t.names
  | .scope x p => x.name :: p.names

theorem Term.namesOfAll_eq_flatMap (ts : List (Term V)) :
    Term.namesOfAll ts = ts.flatMap Term.names := by
  induction ts with
  | nil => rfl
  | cons t ts ih => rw [Term.namesOfAll, List.flatMap_cons, ih]

theorem Term.mem_namesOfAll {name : String} {ts : List (Term V)} :
    name ∈ Term.namesOfAll ts ↔ ∃ t ∈ ts, name ∈ t.names := by
  rw [Term.namesOfAll_eq_flatMap, List.mem_flatMap]

/-- The names of the free occurrences of variables in a program, from left to right. -/
def Program.freeNames : Program V → List String
  | .skip | .fail => []
  | .seq p q | .branch p q => p.freeNames ++ q.freeNames
  | .iterate p => p.freeNames
  | .push t _ | .pop t _ => t.names
  | .scope x p => p.freeNames.filter fun name => name != x.name

theorem Term.contains_freeVars_iff {t : Term V} {x : Var} :
    t.freeVars.contains x ↔ x.name ∈ t.names := by
  induction t using Term.ind with
  | var y => rw [Term.freeVars, VarSet.contains_singleton, Var.beq_iff, Term.names, List.mem_singleton]
  | func label arity args rule ih =>
    rw [Term.freeVars, Term.contains_freeVarsOfAll, List.any_eq_true, Term.names, Term.mem_namesOfAll]
    exact exists_congr fun t => and_congr_right (ih t)

theorem Program.contains_freeVars_iff {p : Program V} {x : Var} :
    p.freeVars.contains x ↔ x.name ∈ p.freeNames := by
  induction p with
  | skip => exact iff_of_false Bool.false_ne_true List.not_mem_nil
  | fail => exact iff_of_false Bool.false_ne_true List.not_mem_nil
  | seq p q ihp ihq | branch p q ihp ihq =>
    rw [Program.freeVars, VarSet.contains_union, Bool.or_eq_true, ihp, ihq, Program.freeNames,
      List.mem_append]
  | iterate p ih => exact ih
  | push t location | pop t location => exact Term.contains_freeVars_iff
  | scope y p ih =>
    rw [Program.freeVars, VarSet.contains_erase, Bool.and_eq_true, ih, Program.freeNames,
      List.mem_filter, and_comm]
    rfl

theorem Program.mem_names_of_mem_freeNames {name : String} {p : Program V}
    (h : name ∈ p.freeNames) : name ∈ p.names := by
  induction p with
  | skip | fail => exact h
  | seq p q ihp ihq | branch p q ihp ihq =>
    exact List.mem_append.mpr ((List.mem_append.mp h).imp ihp ihq)
  | iterate p ih => exact ih h
  | push t location | pop t location => exact h
  | scope x p ih => exact List.mem_cons_of_mem _ (ih (List.mem_filter.mp h).1)

/-! ## Renaming one variable -/

/-- The name `old` becomes `new`, and every other name stays. -/
def replaceName (old new name : String) : String := if name = old then new else name

theorem replaceName_of_ne {old new name : String} (h : name ≠ old) :
    replaceName old new name = name := if_neg h

theorem mem_map_replaceName {old new name : String} {names : List String} :
    name ∈ names.map (replaceName old new) ↔ name ≠ old ∧ name ∈ names ∨ name = new ∧ old ∈ names := by
  rw [List.mem_map]
  constructor
  · rintro ⟨other, hother, rfl⟩
    by_cases h : other = old
    · exact .inr ⟨if_pos h, h ▸ hother⟩
    · rw [replaceName_of_ne h]
      exact .inl ⟨h, hother⟩
  · rintro (⟨hne, hname⟩ | ⟨rfl, hold⟩)
    · exact ⟨name, hname, replaceName_of_ne hne⟩
    · exact ⟨old, hold, if_pos rfl⟩

theorem Term.names_rename (old new : Var) (t : Term V) :
    (t.rename old new).names = t.names.map (replaceName old.name new.name) := by
  induction t using Term.ind with
  | var x =>
    rw [Term.rename]
    split
    · rename_i hx
      rw [Term.names, Term.names, List.map_singleton, replaceName, if_pos (Var.beq_iff.mp hx)]
    · rename_i hx
      rw [Term.names, List.map_singleton, replaceName_of_ne (mt Var.beq_iff.mpr hx)]
  | func label arity args rule ih =>
    rw [Term.rename, Term.renameAll_eq_map, Term.names, Term.names, Term.namesOfAll_eq_flatMap,
      Term.namesOfAll_eq_flatMap, List.flatMap_map, List.map_flatMap]
    exact List.flatMap_congr ih

theorem Term.mem_names_rename {old new : Var} {name : String} {t : Term V}
    (h : name ∈ (t.rename old new).names) : name ∈ t.names ∨ name = new.name := by
  rw [Term.names_rename, mem_map_replaceName] at h
  exact h.imp And.right And.left

theorem Program.mem_names_rename {old new : Var} {name : String} {p : Program V}
    (h : name ∈ (p.rename old new).names) : name ∈ p.names ∨ name = new.name := by
  induction p with
  | skip => exact .inl h
  | fail => exact .inl h
  | seq p q ihp ihq =>
    rw [Program.names, List.mem_append]
    rcases List.mem_append.mp h with h | h
    · exact (ihp h).imp .inl id
    · exact (ihq h).imp .inr id
  | branch p q ihp ihq =>
    rw [Program.names, List.mem_append]
    rcases List.mem_append.mp h with h | h
    · exact (ihp h).imp .inl id
    · exact (ihq h).imp .inr id
  | iterate p ih => exact ih h
  | push t location => exact Term.mem_names_rename h
  | pop t location => exact Term.mem_names_rename h
  | scope x p ih =>
    rw [Program.rename] at h
    split at h
    · exact .inl h
    · rw [Program.names, List.mem_cons]
      rcases List.mem_cons.mp h with h | h
      · exact .inl (.inl h)
      · exact (ih h).imp .inr id

theorem Term.contains_freeVars_rename {old new z : Var} {t : Term V}
    (h : (t.rename old new).freeVars.contains z) :
    z == new ∨ ¬ z == old ∧ t.freeVars.contains z := by
  rw [Term.contains_freeVars_iff, Term.names_rename, mem_map_replaceName] at h
  rw [Var.beq_iff, Var.beq_iff, Term.contains_freeVars_iff]
  exact h.symm.imp_left And.left

theorem Program.contains_freeVars_rename {old new z : Var} {p : Program V}
    (h : (p.rename old new).freeVars.contains z) :
    z == new ∨ ¬ z == old ∧ p.freeVars.contains z := by
  induction p with
  | skip => cases h
  | fail => cases h
  | seq p q ihp ihq =>
    rw [Program.rename, Program.freeVars, VarSet.contains_union, Bool.or_eq_true] at h
    rw [Program.freeVars, VarSet.contains_union, Bool.or_eq_true]
    rcases h with h | h
    · exact (ihp h).imp_right (And.imp_right Or.inl)
    · exact (ihq h).imp_right (And.imp_right Or.inr)
  | branch p q ihp ihq =>
    rw [Program.rename, Program.freeVars, VarSet.contains_union, Bool.or_eq_true] at h
    rw [Program.freeVars, VarSet.contains_union, Bool.or_eq_true]
    rcases h with h | h
    · exact (ihp h).imp_right (And.imp_right Or.inl)
    · exact (ihq h).imp_right (And.imp_right Or.inr)
  | iterate p ih => exact ih h
  | push t location => exact Term.contains_freeVars_rename h
  | pop t location => exact Term.contains_freeVars_rename h
  | scope x p ih =>
    rw [Program.rename] at h
    split at h
    · -- The scope binds `old`, which is therefore not free.
      rename_i hx
      refine .inr ⟨fun hz => ?_, h⟩
      rw [Program.freeVars, VarSet.contains_erase, BEq.trans hz (BEq.symm hx)] at h
      cases h
    · rw [Program.freeVars, VarSet.contains_erase, Bool.and_eq_true] at h ⊢
      exact (ih h.2).imp_right (And.imp_right fun hz => ⟨h.1, hz⟩)

theorem Term.rename_of_not_mem {y z : Var} {t : Term V} (hy : y.name ∉ t.names) :
    t.rename y z = t := by
  induction t using Term.ind with
  | var w =>
    have hwy : ¬ w == y := fun h => hy (List.mem_singleton.mpr (Var.beq_iff.mp h).symm)
    rw [Term.rename, if_neg hwy]
  | func label arity args rule ih =>
    rw [Term.names, Term.mem_namesOfAll] at hy
    have hargs : ∀ t ∈ args, t.rename y z = t := fun t ht => ih t ht fun hname => hy ⟨t, ht, hname⟩
    rw [Term.rename, Term.renameAll_eq_map, List.map_congr_left hargs, List.map_id']

/-- Renaming in two steps, over a name that does not occur. -/
theorem Term.rename_rename {x y z : Var} {t : Term V} (hy : y.name ∉ t.names) :
    (t.rename x y).rename y z = t.rename x z := by
  induction t using Term.ind with
  | var w =>
    rw [Term.rename]
    split
    · rename_i hwx
      rw [Term.rename, if_pos (BEq.refl y), Term.rename, if_pos hwx]
    · rename_i hwx
      rw [Term.rename_of_not_mem hy, Term.rename, if_neg hwx]
  | func label arity args rule ih =>
    rw [Term.names, Term.mem_namesOfAll] at hy
    have hargs : ∀ t ∈ args, (t.rename x y).rename y z = t.rename x z := fun t ht =>
      ih t ht fun hname => hy ⟨t, ht, hname⟩
    simp only [Term.rename, Term.renameAll_eq_map, List.map_map]
    exact congrArg (Term.func label arity · rule) (List.map_congr_left hargs)

namespace Program

/-- Renaming a variable that is not free changes nothing. -/
theorem rename_of_not_free {y z : Var} {p : Program V} (hy : y.name ∉ p.freeNames) :
    p.rename y z = p := by
  induction p with
  | skip => rfl
  | fail => rfl
  | seq p q ihp ihq =>
    rw [freeNames, List.mem_append, not_or] at hy
    rw [rename, ihp hy.1, ihq hy.2]
  | branch p q ihp ihq =>
    rw [freeNames, List.mem_append, not_or] at hy
    rw [rename, ihp hy.1, ihq hy.2]
  | iterate p ih => rw [rename, ih hy]
  | push t location => rw [rename, Term.rename_of_not_mem hy]
  | pop t location => rw [rename, Term.rename_of_not_mem hy]
  | scope w p ih =>
    rw [rename]
    split
    · rfl
    · rename_i hwy
      -- A scope of another variable does not hide `y`.
      have hyp : y.name ∉ p.freeNames := fun h =>
        hy (List.mem_filter.mpr ⟨h, bne_iff_ne.mpr fun heq => hwy (Var.beq_iff.mpr heq.symm)⟩)
      rw [ih hyp]

theorem rename_of_not_mem {y z : Var} {p : Program V} (hy : y.name ∉ p.names) :
    p.rename y z = p :=
  rename_of_not_free fun h => hy (mem_names_of_mem_freeNames h)

theorem rename_rename {x y z : Var} {p : Program V} (hy : y.name ∉ p.names) :
    (p.rename x y).rename y z = p.rename x z := by
  induction p with
  | skip => rfl
  | fail => rfl
  | seq p q ihp ihq =>
    rw [names, List.mem_append, not_or] at hy
    rw [rename, rename, rename, ihp hy.1, ihq hy.2]
  | branch p q ihp ihq =>
    rw [names, List.mem_append, not_or] at hy
    rw [rename, rename, rename, ihp hy.1, ihq hy.2]
  | iterate p ih => rw [rename, rename, rename, ih hy]
  | push t location => rw [rename, rename, rename, Term.rename_rename hy]
  | pop t location => rw [rename, rename, rename, Term.rename_rename hy]
  | scope w p ih =>
    rw [rename]
    split
    · rename_i hwx
      -- The variable is bound again, so the body stays as it is.
      rw [rename_of_not_mem hy, rename, if_pos hwx]
    · rename_i hwx
      rw [names, List.mem_cons, not_or] at hy
      have hwy : ¬ w == y := fun h => hy.1 (Var.beq_iff.mp h).symm
      rw [rename, if_neg hwy, ih hy.2, rename, if_neg hwx]

end Program

/-! ## Terms -/

/-- Only what `π` does to the names of a term matters for its image. -/
theorem Term.Renamed.congr {t t' : Term V} (h : t.Renamed π t')
    (hagree : ∀ name ∈ t.names, π name = ρ name) : t.Renamed ρ t' := by
  induction t using Term.ind generalizing t' with
  | var x =>
    cases h with
    | var hx => exact .var ((hagree x.name List.mem_cons_self).symm.trans hx)
  | func label arity args rule ih =>
    cases h with
    | func _ _ _ hargs =>
      refine .func label arity rule ?_
      have hnames : ∀ t ∈ args, ∀ name ∈ t.names, π name = ρ name := fun t ht name hname =>
        hagree name (Term.mem_namesOfAll.mpr ⟨t, ht, hname⟩)
      clear hagree
      induction hargs with
      | nil => exact .nil
      | cons ht _ ihargs =>
        obtain ⟨hhead, htail⟩ := List.forall_mem_cons.mp hnames
        obtain ⟨ihhead, ihtail⟩ := List.forall_mem_cons.mp ih
        exact .cons (ihhead ht hhead) (ihargs ihtail htail)

theorem Term.renamed_one (t : Term V) : t.Renamed 1 t := by
  induction t using Term.ind with
  | var x => exact .var rfl
  | func label arity args rule ih =>
    exact .func label arity rule (List.forall₂_same.mpr ih)

theorem Term.Renamed.rename {t t' : Term V} (h : t.Renamed π t') {old old' new new' : Var}
    (hold : old.Renamed π old') (hnew : new.Renamed π new') :
    (t.rename old new).Renamed π (t'.rename old' new') := by
  induction t using Term.ind generalizing t' with
  | var x =>
    cases h with
    | var hx =>
      rw [Term.rename, Term.rename, hx.beq_eq hold]
      split
      · exact .var hnew
      · exact .var hx
  | func label arity args rule ih =>
    cases h with
    | func _ _ _ hargs =>
      rw [Term.rename, Term.rename, Term.renameAll_eq_map, Term.renameAll_eq_map]
      refine .func label arity rule ?_
      rw [List.forall₂_map_left_iff, List.forall₂_map_right_iff]
      induction hargs with
      | nil => exact .nil
      | cons ht _ ihargs =>
        obtain ⟨ihhead, ihtail⟩ := List.forall_mem_cons.mp ih
        exact .cons (ihhead ht) (ihargs ihtail)

theorem Term.Renamed.contains_freeVars {t t' : Term V} (h : t.Renamed π t') {y y' : Var}
    (hy : y.Renamed π y') : t.freeVars.contains y = t'.freeVars.contains y' := by
  induction t using Term.ind generalizing t' with
  | var x =>
    cases h with
    | var hx =>
      rw [Term.freeVars, Term.freeVars, VarSet.contains_singleton, VarSet.contains_singleton,
        hy.beq_eq hx]
  | func label arity args rule ih =>
    cases h with
    | func _ _ _ hargs =>
      rw [Term.freeVars, Term.freeVars, Term.contains_freeVarsOfAll, Term.contains_freeVarsOfAll]
      induction hargs with
      | nil => rfl
      | cons ht _ ihargs =>
        obtain ⟨ihhead, ihtail⟩ := List.forall_mem_cons.mp ih
        rw [List.any_cons, List.any_cons, ihhead ht, ihargs ihtail]

/-! ## Programs -/

/-- The same program over corresponding variables; binders correspond too. -/
inductive Program.Renamed (π : Equiv.Perm String) : Program V → Program V → Prop where
  | skip : Program.Renamed π .skip .skip
  | fail : Program.Renamed π .fail .fail
  | seq {p p' q q' : Program V} (hp : Program.Renamed π p p') (hq : Program.Renamed π q q') :
      Program.Renamed π (.seq p q) (.seq p' q')
  | branch {p p' q q' : Program V} (hp : Program.Renamed π p p') (hq : Program.Renamed π q q') :
      Program.Renamed π (.branch p q) (.branch p' q')
  | iterate {p p' : Program V} (hp : Program.Renamed π p p') :
      Program.Renamed π (.iterate p) (.iterate p')
  | push {t t' : Term V} (ht : t.Renamed π t') (location : String) :
      Program.Renamed π (.push t location) (.push t' location)
  | pop {t t' : Term V} (ht : t.Renamed π t') (location : String) :
      Program.Renamed π (.pop t location) (.pop t' location)
  | scope {x x' : Var} {p p' : Program V} (hx : x.Renamed π x') (hp : Program.Renamed π p p') :
      Program.Renamed π (.scope x p) (.scope x' p')

theorem Program.renamed_one (p : Program V) : p.Renamed 1 p := by
  induction p with
  | skip => exact .skip
  | fail => exact .fail
  | seq p q ihp ihq => exact .seq ihp ihq
  | branch p q ihp ihq => exact .branch ihp ihq
  | iterate p ih => exact .iterate ih
  | push t location => exact .push t.renamed_one location
  | pop t location => exact .pop t.renamed_one location
  | scope x p ih => exact .scope rfl ih

namespace Program.Renamed

variable {p p' : Program V}

theorem congr (h : p.Renamed π p') (hagree : ∀ name ∈ p.names, π name = ρ name) :
    p.Renamed ρ p' := by
  induction h with
  | skip => exact .skip
  | fail => exact .fail
  | seq _ _ ihp ihq =>
    obtain ⟨hp, hq⟩ := List.forall_mem_append.mp hagree
    exact .seq (ihp hp) (ihq hq)
  | branch _ _ ihp ihq =>
    obtain ⟨hp, hq⟩ := List.forall_mem_append.mp hagree
    exact .branch (ihp hp) (ihq hq)
  | iterate _ ih => exact .iterate (ih hagree)
  | push ht location => exact .push (ht.congr hagree) location
  | pop ht location => exact .pop (ht.congr hagree) location
  | scope hx _ ih =>
    obtain ⟨hbinder, hbody⟩ := List.forall_mem_cons.mp hagree
    exact .scope (hbinder.symm.trans hx) (ih hbody)

theorem rename (h : p.Renamed π p') {old old' new new' : Var} (hold : old.Renamed π old')
    (hnew : new.Renamed π new') : (p.rename old new).Renamed π (p'.rename old' new') := by
  induction h with
  | skip => exact .skip
  | fail => exact .fail
  | seq _ _ ihp ihq => exact .seq ihp ihq
  | branch _ _ ihp ihq => exact .branch ihp ihq
  | iterate _ ih => exact .iterate ih
  | push ht location => exact .push (ht.rename hold hnew) location
  | pop ht location => exact .pop (ht.rename hold hnew) location
  | scope hx hp ih =>
    rw [Program.rename, Program.rename, hx.beq_eq hold]
    split
    · exact .scope hx hp
    · exact .scope hx ih

theorem contains_freeVars (h : p.Renamed π p') {y y' : Var} (hy : y.Renamed π y') :
    p.freeVars.contains y = p'.freeVars.contains y' := by
  induction h with
  | skip => rfl
  | fail => rfl
  | seq _ _ ihp ihq =>
    rw [Program.freeVars, Program.freeVars, VarSet.contains_union, VarSet.contains_union, ihp, ihq]
  | branch _ _ ihp ihq =>
    rw [Program.freeVars, Program.freeVars, VarSet.contains_union, VarSet.contains_union, ihp, ihq]
  | iterate _ ih => exact ih
  | push ht location => exact ht.contains_freeVars hy
  | pop ht location => exact ht.contains_freeVars hy
  | scope hx _ ih =>
    rw [Program.freeVars, Program.freeVars, VarSet.contains_erase, VarSet.contains_erase, ih,
      hy.beq_eq hx]

/-- Corresponding names are in use in corresponding situations. -/
theorem inUse_eq (h : p.Renamed π p') {s s' : State V} (hs : s.Renamed π s') {r r' : List Var}
    (hr : List.Forall₂ (Var.Renamed π) r r') {y y' : Var} (hy : y.Renamed π y') :
    inUse p.freeVars s r y = inUse p'.freeVars s' r' y' := by
  have hreserved : r.contains y = r'.contains y' := by
    induction hr with
    | nil => rfl
    | cons hz _ ih => rw [List.contains_cons, List.contains_cons, hy.beq_eq hz, ih]
  rw [inUse, inUse, h.contains_freeVars hy, hreserved, hs.mentions_eq hy]

end Program.Renamed

/-! ## Paths do not look at flags -/

variable [DecidableEq V] [ToString V]

/-- Programs, together with the variables reserved around them, that are equal up to local flags. -/
def SameButFlags (r r' : List Var) (p p' : Program V) : Prop :=
  List.Forall₂ (Var.Renamed 1) r r' ∧ p.Renamed 1 p'

omit [DecidableEq V] [ToString V] in
theorem sameButFlags_refl (r : List Var) (p : Program V) : SameButFlags r r p p :=
  ⟨List.forall₂_same.mpr fun _ _ => rfl, p.renamed_one⟩

/-- Every step from equal states ends in equal states, whatever the flags in the programs are. -/
theorem SameButFlags.steps {r r' : List Var} {p p' : Program V} (h : SameButFlags r r' p p') :
    StepsAlike (fun _ : Unit => State.Renamed 1) (fun _ => SameButFlags) () r r' p p' := by
  obtain ⟨hr, hp⟩ := h
  cases hp with
  | skip => exact .skip
  | fail => exact .fail
  | seq hp hq => exact .seq ⟨hr, hp⟩ ⟨hr, hq⟩
  | branch hp hq => exact .branch ⟨hr, hp⟩ ⟨hr, hq⟩
  | iterate hp => exact .iterate ⟨hr, hp⟩
  | push ht location => exact .push fun s s' hs => hs.push ht location
  | pop ht location => exact .pop fun s s' hs => hs.pop ht location
  | @scope x x' p p' hx hp =>
    refine .scope fun s s' hs => ?_
    have hfresh : freshFor x p s r = freshFor x' p' s' r' :=
      freshFor_congr hx fun y => hp.inUse_eq hs hr rfl
    rw [← hfresh]
    refine ⟨(), hs, ⟨List.rel_append hr (.cons rfl .nil), hp.rename hx rfl⟩, fun u u' hu => ?_⟩
    exact hu.project rfl

/-- Programs, reserved variables and states that are equal up to local flags have paths that are
equal one by one. -/
theorem Machine.paths_renamed_one (machine : Machine) {r r' : List Var} {p p' : Program V}
    (hp : SameButFlags r r' p p') {s s' : State V} (hs : s.Renamed 1 s') :
    Alike AnyFault (List.Forall₂ (State.Renamed 1)) (machine.paths r p s)
      (machine.paths r' p' s') :=
  machine.paths_alike (S := fun _ : Unit => State.Renamed 1) (P := fun _ => SameButFlags)
    (fun _ _ _ _ _ => SameButFlags.steps) (w := ()) hp hs

theorem Machine.paths_beq (machine : Machine) (r : List Var) (p : Program V) {s s' : State V}
    (hs : s == s') :
    Alike AnyFault (List.Forall₂ fun u u' => u == u') (machine.paths r p s)
      (machine.paths r p s') := by
  have hpaths := machine.paths_renamed_one (sameButFlags_refl r p) ((State.renamed_one_iff s s').mpr hs)
  exact hpaths.mono (fun _ _ h => h) fun _ _ h =>
    h.imp fun u u' hu => (State.renamed_one_iff u u').mp hu

end StackCalculus
