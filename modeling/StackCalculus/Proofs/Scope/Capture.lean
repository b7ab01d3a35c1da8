import Mathlib
import StackCalculus.Proofs.Scope.Alpha

/-!
# Renaming and capture

Renaming goes below scopes without a look at their variables. The new variable is captured where the old
one occurs free in a scope that binds the new one; everywhere else the renaming does what it says, and
the free occurrences of a program show the difference exactly (`Program.freeNames_rename_eq_iff`). A
variable that no scope binds is never captured, and then the laws of renaming hold
(`Program.rename_laws`).

A scope is entered by such a renaming, with a fresh variable in place of its own. The fresh variable is
new to the free variables of the body, but the scopes inside the body are not asked for their
variables. So entering a scope captures exactly if a scope inside binds the fresh variable around a free
occurrence, which plain names of variables exclude (`Program.rename_freshFor_iff`); a program with
indexed names of its own can lose a value in that way (`Program.rename_freshFor_captured`).
-/

namespace StackCalculus

variable {V : Type}

/-! ## Free occurrences -/

theorem map_replaceName_of_not_mem {old new : String} {names : List String} (h : old ∉ names) :
    names.map (replaceName old new) = names := by
  have heach : ∀ name ∈ names, replaceName old new name = name := fun name hname =>
    replaceName_of_ne fun heq => h (heq ▸ hname)
  rw [List.map_congr_left heach, List.map_id']

/-- A scope of a third name hides the same occurrences before and after a renaming. -/
theorem filter_map_replaceName {old new other : String} (hold : other ≠ old) (hnew : other ≠ new)
    (names : List String) :
    (names.map (replaceName old new)).filter (fun name => name != other) =
      (names.filter fun name => name != other).map (replaceName old new) := by
  rw [List.filter_map]
  congr 1
  refine List.filter_congr fun name _ => ?_
  rw [Function.comp_apply, replaceName]
  split
  · rename_i hname
    rw [bne_iff_ne.mpr hnew.symm, hname, bne_iff_ne.mpr hold.symm]
  · rfl

namespace Program

variable {x y : Var} {p : Program V}

theorem contains_freeVars_eq_false_iff : p.freeVars.contains x = false ↔ x.name ∉ p.freeNames := by
  rw [← Bool.not_eq_true, contains_freeVars_iff]

/-- Whether `x` occurs free inside a scope of `y`, where `y` in its place would be captured. -/
def captures (x y : Var) : Program V → Bool
  | skip | fail | push _ _ | pop _ _ => false
  | seq p q | branch p q => p.captures x y || q.captures x y
  | iterate p => p.captures x y
  | scope z p => !(z == x) && (z == y && p.freeVars.contains x || p.captures x y)

theorem mem_freeNames_scope {z : Var} {name : String} :
    name ∈ (scope z p).freeNames ↔ name ∈ p.freeNames ∧ name ≠ z.name := by
  rw [freeNames, List.mem_filter, bne_iff_ne]

theorem rename_scope {z : Var} (h : x.name ∈ (scope z p).freeNames) :
    (scope z p).rename x y = scope z (p.rename x y) := by
  have hne := (mem_freeNames_scope.mp h).2
  rw [rename, if_neg fun heq => hne (Var.beq_iff.mp heq).symm]

theorem captures_scope {z : Var} (h : x.name ∈ (scope z p).freeNames) :
    (scope z p).captures x y = (z == y || p.captures x y) := by
  obtain ⟨hfree, hne⟩ := mem_freeNames_scope.mp h
  rw [captures, Var.beq_eq_false_iff.mpr hne.symm, contains_freeVars_iff.mpr hfree,
    Bool.not_false, Bool.true_and, Bool.and_true]

theorem mem_freeNames_of_captures (h : p.captures x y) : x.name ∈ p.freeNames := by
  induction p with
  | skip | fail | push | pop => cases h
  | seq p q ihp ihq | branch p q ihp ihq =>
    rw [captures, Bool.or_eq_true] at h
    exact List.mem_append.mpr (h.imp ihp ihq)
  | iterate p ih => exact ih h
  | scope z p ih =>
    rw [captures, Bool.and_eq_true, Bool.or_eq_true, Bool.and_eq_true, Bool.not_eq_true',
      Var.beq_eq_false_iff] at h
    obtain ⟨hzx, hp⟩ := h
    have hfree : x.name ∈ p.freeNames := hp.elim (fun hp => contains_freeVars_iff.mp hp.2) ih
    exact mem_freeNames_scope.mpr ⟨hfree, hzx.symm⟩

theorem mem_bound_of_captures (h : p.captures x y) : y.name ∈ p.bound := by
  induction p with
  | skip | fail | push | pop => cases h
  | seq p q ihp ihq | branch p q ihp ihq =>
    rw [captures, Bool.or_eq_true] at h
    exact List.mem_append.mpr (h.imp ihp ihq)
  | iterate p ih => exact ih h
  | scope z p ih =>
    rw [captures, Bool.and_eq_true, Bool.or_eq_true, Bool.and_eq_true] at h
    rcases h.2 with ⟨hzy, _⟩ | hp
    · exact List.mem_cons.mpr (.inl (Var.beq_iff.mp hzy).symm)
    · exact List.mem_cons_of_mem _ (ih hp)

theorem captures_eq_false_of_not_mem_bound (h : y.name ∉ p.bound) : p.captures x y = false :=
  Bool.eq_false_iff.mpr fun hcaptures => h (mem_bound_of_captures hcaptures)

/-! ## What a renaming does to the free occurrences -/

/-- Without capture every free occurrence of `x` becomes one of `y`, and all others stay. -/
theorem freeNames_rename (h : p.captures x y = false) :
    (p.rename x y).freeNames = p.freeNames.map (replaceName x.name y.name) := by
  induction p with
  | skip | fail => rfl
  | seq p q ihp ihq | branch p q ihp ihq =>
    rw [captures, Bool.or_eq_false_iff] at h
    rw [rename, freeNames, ihp h.1, ihq h.2, freeNames, List.map_append]
  | iterate p ih => exact ih h
  | push t location | pop t location => exact t.names_rename x y
  | scope z p ih =>
    by_cases hfree : x.name ∈ (scope z p).freeNames
    · -- The scope binds neither `x` nor `y`.
      have hne := (mem_freeNames_scope.mp hfree).2
      rw [captures_scope hfree, Bool.or_eq_false_iff, Var.beq_eq_false_iff] at h
      rw [rename_scope hfree, freeNames, ih h.2, filter_map_replaceName hne.symm h.1, freeNames]
    · rw [rename_of_not_free hfree, map_replaceName_of_not_mem hfree]

/-- A capture takes away a free occurrence of the new variable. -/
theorem count_freeNames_rename_le (x y : Var) (p : Program V) :
    (p.rename x y).freeNames.count y.name + (p.captures x y).toNat ≤
      (p.freeNames.map (replaceName x.name y.name)).count y.name := by
  -- Programs without capture are included, since of two parts in sequence only one may capture.
  induction p with
  | skip | fail => exact le_refl _
  | seq p q ihp ihq | branch p q ihp ihq =>
    have hor : (p.captures x y || q.captures x y).toNat ≤
        (p.captures x y).toNat + (q.captures x y).toNat := by
      cases p.captures x y <;> cases q.captures x y <;> decide
    rw [rename, freeNames, freeNames, captures, List.map_append, List.count_append, List.count_append]
    omega
  | iterate p ih => exact ih
  | push t location | pop t location =>
    show (t.rename x y).names.count y.name ≤ _
    rw [t.names_rename x y]
    exact le_refl _
  | scope z p ih =>
    by_cases hfree : x.name ∈ (scope z p).freeNames
    · have hne := (mem_freeNames_scope.mp hfree).2
      rw [rename_scope hfree, captures_scope hfree]
      by_cases hzy : z.name = y.name
      · -- The scope takes all occurrences of `y`, while the one of `x` should have become `y`.
        have hnone : (scope z (p.rename x y)).freeNames.count y.name = 0 :=
          List.count_eq_zero.mpr fun hmem => (mem_freeNames_scope.mp hmem).2 hzy.symm
        have hsome : 0 < ((scope z p).freeNames.map (replaceName x.name y.name)).count y.name :=
          List.count_pos_iff.mpr (List.mem_map.mpr ⟨x.name, hfree, if_pos rfl⟩)
        have hle := Bool.toNat_le (z == y || p.captures x y)
        omega
      · have hkept : ∀ names : List String,
            (names.filter fun name => name != z.name).count y.name = names.count y.name :=
          fun names => List.count_filter (bne_iff_ne.mpr (Ne.symm hzy))
        rw [Var.beq_eq_false_iff.mpr hzy, Bool.false_or, freeNames, freeNames,
          ← filter_map_replaceName hne.symm hzy, hkept, hkept]
        exact ih
    · have hnone : (scope z p).captures x y = false :=
        Bool.eq_false_iff.mpr fun h => hfree (mem_freeNames_of_captures h)
      rw [hnone, rename_of_not_free hfree, map_replaceName_of_not_mem hfree]
      exact le_refl _

/-- A renaming replaces every free occurrence exactly if it captures none. -/
theorem freeNames_rename_eq_iff :
    (p.rename x y).freeNames = p.freeNames.map (replaceName x.name y.name) ↔
      p.captures x y = false := by
  refine ⟨fun heq => ?_, freeNames_rename⟩
  have hle := count_freeNames_rename_le x y p
  rw [heq] at hle
  exact Bool.toNat_eq_zero.mp (by omega)

/-- Without capture the free variables are the old ones with `y` for `x`. -/
theorem contains_freeVars_rename_iff (h : p.captures x y = false) {z : Var} :
    (p.rename x y).freeVars.contains z ↔
      z == y ∧ p.freeVars.contains x ∨ ¬ z == x ∧ p.freeVars.contains z := by
  rw [contains_freeVars_iff, contains_freeVars_iff, contains_freeVars_iff, Var.beq_iff, Var.beq_iff,
    freeNames_rename h, mem_map_replaceName, or_comm]

end Program

/-! ## Renaming there and back -/

theorem Term.sameAll_iff {ss ts : List (Term V)} :
    Term.sameAll ss ts ↔ List.Forall₂ (fun s t => s == t) ss ts := by
  induction ss generalizing ts with
  | nil => cases ts <;> simp [Term.sameAll]
  | cons s ss ih =>
    cases ts with
    | nil => simp [Term.sameAll]
    | cons t ts =>
      rw [Term.sameAll, Bool.and_eq_true, ih, List.forall₂_cons]
      rfl

theorem Term.func_beq_func {label : String} {arity : Nat} {ss ts : List (Term V)}
    (rule rule' : List V → V) (h : List.Forall₂ (fun s t => s == t) ss ts) :
    Term.func label arity ss rule == Term.func label arity ts rule' := by
  show (label == label && arity == arity && Term.sameAll ss ts) = true
  rw [BEq.refl, BEq.refl, Term.sameAll_iff.mpr h]
  rfl

instance : ReflBEq (Term V) where
  rfl {t} := by
    induction t using Term.ind with
    | var x => exact BEq.refl x
    | func label arity args rule ih => exact Term.func_beq_func rule rule (List.forall₂_same.mpr ih)

instance : ReflBEq (Program V) where
  rfl {p} := by
    induction p with
    | skip | fail => rfl
    | seq p q ihp ihq | branch p q ihp ihq => exact Bool.and_eq_true_iff.mpr ⟨ihp, ihq⟩
    | iterate p ih => exact ih
    | push t location | pop t location => exact Bool.and_eq_true_iff.mpr ⟨BEq.refl t, BEq.refl location⟩
    | scope x p ih => exact Bool.and_eq_true_iff.mpr ⟨BEq.refl x, ih⟩

/-- Putting a variable in its own place can change flags only. -/
theorem Term.rename_self_beq (x : Var) (t : Term V) : t.rename x x == t := by
  induction t using Term.ind with
  | var z =>
    rw [Term.rename]
    split
    · rename_i hzx
      show (x == z) = true
      exact BEq.symm hzx
    · exact BEq.refl z
  | func label arity args rule ih =>
    rw [Term.rename, Term.renameAll_eq_map]
    refine Term.func_beq_func rule rule ?_
    rw [List.forall₂_map_left_iff]
    exact List.forall₂_same.mpr ih

namespace Program

theorem rename_self_beq (x : Var) (p : Program V) : p.rename x x == p := by
  induction p with
  | skip | fail => rfl
  | seq p q ihp ihq | branch p q ihp ihq => exact Bool.and_eq_true_iff.mpr ⟨ihp, ihq⟩
  | iterate p ih => exact ih
  | push t location | pop t location =>
    exact Bool.and_eq_true_iff.mpr ⟨t.rename_self_beq x, BEq.refl location⟩
  | scope z p ih =>
    rw [rename]
    split
    · exact BEq.refl (scope z p)
    · exact Bool.and_eq_true_iff.mpr ⟨BEq.refl z, ih⟩

theorem mem_freeNames_or_mem_bound {name : String} {p : Program V} (h : name ∈ p.names) :
    name ∈ p.freeNames ∨ name ∈ p.bound := by
  induction p with
  | skip | fail => cases h
  | seq p q ihp ihq | branch p q ihp ihq =>
    rw [freeNames, bound, List.mem_append, List.mem_append]
    rcases List.mem_append.mp h with h | h
    · exact (ihp h).imp .inl .inl
    · exact (ihq h).imp .inr .inr
  | iterate p ih => exact ih h
  | push t location | pop t location => exact .inl h
  | scope z p ih =>
    by_cases hz : name = z.name
    · exact .inr (List.mem_cons.mpr (.inl hz))
    · have hp : name ∈ p.names := (List.mem_cons.mp h).resolve_left hz
      exact (ih hp).imp (fun hfree => mem_freeNames_scope.mpr ⟨hfree, hz⟩) (List.mem_cons_of_mem _)

/-- The laws of renaming `x` to `y`. Nothing happens if `x` is not free. If no scope binds `y`, then `y`
is free in place of `x`. If `y` does not occur at all, then the renaming can be taken back. -/
theorem rename_laws (p : Program V) (x y : Var) :
    (p.freeVars.contains x = false → p.rename x y = p) ∧
      (y.name ∉ p.bound → ∀ z, (p.rename x y).freeVars.contains z =
        if p.freeVars.contains x then z == y || !(z == x) && p.freeVars.contains z
        else p.freeVars.contains z) ∧
      (p.freeVars.contains y = false → y.name ∉ p.bound → (p.rename x y).rename y x == p) := by
  refine ⟨fun hx => ?_, fun hy z => ?_, fun hfree hbound => ?_⟩
  · exact rename_of_not_free (contains_freeVars_eq_false_iff.mp hx)
  · have hafter := contains_freeVars_rename_iff (captures_eq_false_of_not_mem_bound (x := x) hy) (z := z)
    rw [Bool.eq_iff_iff, hafter]
    split
    · rename_i hx
      simp [hx]
    · rename_i hx
      -- A variable that is free is not `x`.
      have hne : p.freeVars.contains z → ¬ z == x := fun hz heq =>
        hx (contains_freeVars_iff.mpr (Var.beq_iff.mp heq ▸ contains_freeVars_iff.mp hz))
      rw [or_iff_right fun h => hx h.2]
      exact ⟨And.right, fun hz => ⟨hne hz, hz⟩⟩
  · have hnowhere : y.name ∉ p.names := fun h =>
      (mem_freeNames_or_mem_bound h).elim (contains_freeVars_eq_false_iff.mp hfree) hbound
    rw [rename_rename hnowhere]
    exact rename_self_beq x p

/-- Pushes `x`, and then one of: a push of another `x`, a pop of `x` below a scope of `z`. -/
def pushOrPop : Program String :=
  .seq (.pushVar "x" "l")
    (.branch (.scope ⟨"x", false⟩ (.pushVar "x" "l")) (.scope ⟨"z", false⟩ (.popVar "x" "l")))

/-- A program with a free occurrence outside all scopes, one inside a scope, and a bound one. -/
theorem rename_laws_pushOrPop :
    pushOrPop.rename ⟨"z", false⟩ ⟨"y", false⟩ = pushOrPop ∧
      (∀ u, (pushOrPop.rename ⟨"x", false⟩ ⟨"y", false⟩).freeVars.contains u =
        (u == ⟨"y", false⟩ || !(u == ⟨"x", false⟩) && pushOrPop.freeVars.contains u)) ∧
      (pushOrPop.rename ⟨"x", false⟩ ⟨"y", false⟩).rename ⟨"y", false⟩ ⟨"x", false⟩ == pushOrPop := by
  have hfree : pushOrPop.freeVars.contains ⟨"x", false⟩ = true := by decide +kernel
  have hbound : "y" ∉ pushOrPop.bound := by decide
  obtain ⟨hsame, _⟩ := rename_laws pushOrPop ⟨"z", false⟩ ⟨"y", false⟩
  obtain ⟨_, hafter, hback⟩ := rename_laws pushOrPop ⟨"x", false⟩ ⟨"y", false⟩
  refine ⟨hsame (by decide +kernel), fun u => ?_, hback (by decide +kernel) hbound⟩
  rw [hafter hbound u, if_pos hfree]

/-! ## Entering a scope -/

/-- What entering a scope does to the free variables of its body. The fresh variable `f` takes the place
of the variable `x` of the scope in every free occurrence, exactly if no scope inside binds `f` around a
free occurrence of `x`. Scopes with plain variables never do. -/
theorem rename_freshFor_iff (x : Var) (body : Program V) (state : State V) (reserved : List Var) :
    let f := freshFor x body state reserved
    ((∀ y, (body.rename x f).freeVars.contains y =
        if y == f then body.freeVars.contains x else !(y == x) && body.freeVars.contains y) ∧
      (body.rename x f).freeNames = body.freeNames.map (replaceName x.name f.name) ↔
      body.captures x f = false) ∧
    ((∀ name ∈ body.bound, IsPlain name) → body.captures x f = false) := by
  intro f
  refine ⟨⟨fun h => freeNames_rename_eq_iff.mp h.2, fun h => ⟨fun y => ?_, freeNames_rename h⟩⟩,
    fun hplain => ?_⟩
  · have hf : body.freeVars.contains f = false := contains_freshFor x body state reserved
    rw [Bool.eq_iff_iff, contains_freeVars_rename_iff h]
    split
    · rename_i hy
      -- The fresh variable itself is not free in the body.
      have hnot : ¬ body.freeVars.contains y := fun hfree =>
        contains_freeVars_eq_false_iff.mp hf (Var.beq_iff.mp hy ▸ contains_freeVars_iff.mp hfree)
      rw [or_iff_left fun h => hnot h.2, and_iff_right hy]
    · rename_i hy
      simp [hy]
  · obtain ⟨i, hi, _⟩ := freshFor_spec x body state reserved
    refine captures_eq_false_of_not_mem_bound fun hmem => hplain _ hmem ?_
    show '#' ∈ (freshFor x body state reserved).name.toList
    rw [hi]
    exact Var.hash_mem_indexed x.name i

/-- Takes a value into `x` and puts it down elsewhere, both in scopes of the variable `inner`. -/
def moveInScopes (inner : Var) : Program String :=
  .seq (.scope inner (.popVar "x" "l")) (.scope inner (.pushVar "x" "m"))

/-- One value at `l` and nothing at `m`. -/
def valueToMove : State String := ⟨⟨.ofList [("l", .ofList [.value "v"]), ("m", .empty)]⟩, .empty⟩

/-- Below scopes of `y` the fresh variable takes the place of `x`. -/
theorem rename_freshFor_iff_plainScopes :
    let body := moveInScopes ⟨"y", false⟩
    let f := freshFor ⟨"x", false⟩ body valueToMove []
    (∀ name ∈ body.bound, IsPlain name) ∧ body.freeVars.contains ⟨"x", false⟩ ∧
      (body.rename ⟨"x", false⟩ f).freeVars.contains f ∧
      (body.rename ⟨"x", false⟩ f).freeNames = body.freeNames.map (replaceName "x" f.name) := by
  intro body f
  have hplain : ∀ name ∈ body.bound, IsPlain name := by decide
  have hfree : body.freeVars.contains ⟨"x", false⟩ := by decide +kernel
  obtain ⟨hiff, hnone⟩ := rename_freshFor_iff ⟨"x", false⟩ body valueToMove []
  obtain ⟨hvars, hnames⟩ := hiff.mpr (hnone hplain)
  refine ⟨hplain, hfree, ?_, hnames⟩
  rw [hvars f, if_pos (BEq.refl f), hfree]

/-- Scopes of `x#0` capture: this is the fresh variable for `x`, which becomes the variable of the inner
scopes where it stands. The value is taken and lost, and what is put down is a reference to the fresh
variable of an inner scope. -/
theorem rename_freshFor_captured :
    let body := moveInScopes (.indexed "x" 0)
    let f := freshFor ⟨"x", false⟩ body valueToMove []
    body.freeVars.contains ⟨"x", false⟩ ∧ ¬ (body.rename ⟨"x", false⟩ f).freeVars.contains f ∧
      ∃ r, Machine.run {} (.scope ⟨"x", false⟩ body) valueToMove = .ok r ∧
        r == .singleton ⟨⟨.ofList [("l", .empty), ("m", .ofList [.ref ⟨"x#1", true⟩])]⟩, .empty⟩ := by
  intro body f
  have hrun : (Machine.run {} (.scope ⟨"x", false⟩ body) valueToMove).toOption.any
      (· == .singleton ⟨⟨.ofList [("l", .empty), ("m", .ofList [.ref ⟨"x#1", true⟩])]⟩, .empty⟩) := by
    decide +kernel
  exact ⟨by decide +kernel, by decide +kernel, exists_ok_of_any hrun⟩

end Program

end StackCalculus
