import Mathlib
import StackCalculus.Proofs.Covering

/-!
# Local flags

The flag of a variable is stored and shown, and nothing else. `withoutFlags` leaves all flags out of a
term, a program or a state. States are equal exactly when they are identical without their flags
(`State.beq_iff_withoutFlags`). Runs of programs that are identical without their flags, from such
states, have equal outcomes, or fail together (`Machine.run_withoutFlags`): what one run reaches, the
other reaches as often, in both directions.
-/

namespace StackCalculus

variable {V : Type}

/-! ## Leaving flags out -/

/-- A variable with its flag left out. -/
def Var.withoutFlag (x : Var) : Var := ⟨x.name, false⟩

mutual

/-- A term with the flags of its variables left out; labels, arities and rules stay. -/
def Term.withoutFlags : Term V → Term V
  | .var x => .var x.withoutFlag
  | .func label arity args rule => .func label arity (Term.allWithoutFlags args) rule

/-- The terms of a list with the flags left out. -/
def Term.allWithoutFlags : List (Term V) → List (Term V)
  | [] => []
  | t :: ts => t.withoutFlags :: Term.allWithoutFlags ts

end

/-- A program with the flags of its variables left out, those of binders too. -/
def Program.withoutFlags : Program V → Program V
  | .skip => .skip
  | .fail => .fail
  | .seq p q => .seq p.withoutFlags q.withoutFlags
  | .branch p q => .branch p.withoutFlags q.withoutFlags
  | .iterate p => .iterate p.withoutFlags
  | .push t location => .push t.withoutFlags location
  | .pop t location => .pop t.withoutFlags location
  | .scope x p => .scope x.withoutFlag p.withoutFlags

/-- A substitution with the flags of bound and of referenced variables left out. -/
def Substitution.withoutFlags (s : Substitution V) : Substitution V :=
  ⟨s.bindings.map fun binding => ⟨false, binding.cell.withoutFlag⟩⟩

/-- A memory with the flags of its references left out. -/
def Memory.withoutFlags (m : Memory V) : Memory V := ⟨m.table.map (Stack.map Cell.withoutFlag)⟩

/-- A state with all flags left out. -/
def State.withoutFlags (s : State V) : State V := ⟨s.memory.withoutFlags, s.substitution.withoutFlags⟩

/-! ## Programs that are identical without flags -/

theorem Var.renamed_one_of_withoutFlag {x x' : Var} (h : x.withoutFlag = x'.withoutFlag) :
    x.Renamed 1 x' := by
  have hname : x.withoutFlag.name = x'.withoutFlag.name := congrArg Var.name h
  exact hname

theorem Term.allWithoutFlags_eq_map (ts : List (Term V)) :
    Term.allWithoutFlags ts = ts.map Term.withoutFlags := by
  induction ts with
  | nil => rfl
  | cons t ts ih => rw [Term.allWithoutFlags, ih, List.map_cons]

theorem Term.renamed_one_of_withoutFlags {t t' : Term V} (h : t.withoutFlags = t'.withoutFlags) :
    t.Renamed 1 t' := by
  induction t using Term.ind generalizing t' with
  | var x =>
    cases t' with
    | var x' => exact .var (Var.renamed_one_of_withoutFlag (Term.var.inj h))
    | func label' arity' args' rule' => cases h
  | func label arity args rule ih =>
    cases t' with
    | var x' => cases h
    | func label' arity' args' rule' =>
      obtain ⟨rfl, rfl, hargs, rfl⟩ := Term.func.inj h
      rw [allWithoutFlags_eq_map, allWithoutFlags_eq_map, ← List.forall₂_eq_eq_eq,
        List.forall₂_map_left_iff, List.forall₂_map_right_iff] at hargs
      exact .func label arity rule (forall₂_imp_of_mem (fun t ht t' _ => ih t ht) hargs)

theorem Program.renamed_one_of_withoutFlags {p p' : Program V}
    (h : p.withoutFlags = p'.withoutFlags) : p.Renamed 1 p' := by
  induction p generalizing p' with
  | skip =>
    cases p' with
    | skip => exact .skip
    | _ => cases h
  | fail =>
    cases p' with
    | fail => exact .fail
    | _ => cases h
  | seq p q ihp ihq =>
    cases p' with
    | seq p' q' =>
      obtain ⟨hp, hq⟩ := Program.seq.inj h
      exact .seq (ihp hp) (ihq hq)
    | _ => cases h
  | branch p q ihp ihq =>
    cases p' with
    | branch p' q' =>
      obtain ⟨hp, hq⟩ := Program.branch.inj h
      exact .branch (ihp hp) (ihq hq)
    | _ => cases h
  | iterate p ih =>
    cases p' with
    | iterate p' => exact .iterate (ih (Program.iterate.inj h))
    | _ => cases h
  | push t location =>
    cases p' with
    | push t' location' =>
      obtain ⟨ht, rfl⟩ := Program.push.inj h
      exact .push (Term.renamed_one_of_withoutFlags ht) location
    | _ => cases h
  | pop t location =>
    cases p' with
    | pop t' location' =>
      obtain ⟨ht, rfl⟩ := Program.pop.inj h
      exact .pop (Term.renamed_one_of_withoutFlags ht) location
    | _ => cases h
  | scope x p ih =>
    cases p' with
    | scope x' p' =>
      obtain ⟨hx, hp⟩ := Program.scope.inj h
      exact .scope (Var.renamed_one_of_withoutFlag hx) (ih hp)
    | _ => cases h

/-! ## Equality of states -/

section Equality

variable [DecidableEq V]

theorem Memory.beq_iff_withoutFlags (m m' : Memory V) :
    m == m' ↔ m.withoutFlags = m'.withoutFlags := by
  have hstack : ∀ t t' : Stack V,
      t == t' ↔ t.map Cell.withoutFlag = t'.map Cell.withoutFlag := fun t t' => by
    rw [Stack.beq_eq, list_beq_iff_map Cell.beq_iff_withoutFlag]
    exact ⟨fun h => Stack.ext h, congrArg Stack.cells⟩
  have htable : m == m' ↔ m.table == m'.table := Iff.rfl
  rw [htable, NameMap.beq_iff_map_eq hstack, withoutFlags, withoutFlags, Memory.mk.injEq]

theorem Substitution.beq_iff_withoutFlags (s s' : Substitution V) :
    s == s' ↔ s.withoutFlags = s'.withoutFlags := by
  have hbinding : ∀ b b' : Binding V, b == b' ↔
      (⟨false, b.cell.withoutFlag⟩ : Binding V) = ⟨false, b'.cell.withoutFlag⟩ := fun b b' => by
    rw [Binding.mk.injEq, ← Cell.beq_iff_withoutFlag]
    exact ⟨fun h => ⟨rfl, h⟩, fun h => h.2⟩
  have hbindings : s == s' ↔ s.bindings == s'.bindings := Iff.rfl
  rw [hbindings, NameMap.beq_iff_map_eq hbinding, withoutFlags, withoutFlags, Substitution.mk.injEq]

/-- States are equal exactly when they are identical without their flags. -/
theorem State.beq_iff_withoutFlags (s s' : State V) : s == s' ↔ s.withoutFlags = s'.withoutFlags := by
  have hparts : s == s' ↔ s.memory == s'.memory ∧ s.substitution == s'.substitution :=
    Bool.and_eq_true_iff
  rw [hparts, Memory.beq_iff_withoutFlags, Substitution.beq_iff_withoutFlags, withoutFlags, withoutFlags,
    State.mk.injEq]

end Equality

/-! ## Runs -/

namespace Machine

variable [DecidableEq V] [ToString V]

theorem run_covered_of_withoutFlags (machine : Machine) (hlimit : machine.config.timeLimit = none)
    {p p' : Program V} (hp : p.withoutFlags = p'.withoutFlags) {s s' : State V}
    (hs : s.withoutFlags = s'.withoutFlags) :
    Covered id (machine.run p s) (machine.run p' s') := by
  have hbeq : ∀ s s' : State V, (id s == id s') = (s == s') := fun _ _ => rfl
  have hstart : (Bag.singleton s).Under id (.singleton s') :=
    Bag.under_singleton hbeq ((State.beq_iff_withoutFlags s s').mpr hs)
  have hprogram : SameButFlags [] [] p p' := ⟨.nil, Program.renamed_one_of_withoutFlags hp⟩
  rw [run_eq_step, run_eq_step]
  refine machine.exec_covered hlimit hbeq (fun r r' p p' h => ?_) hprogram hstart
  exact StepsAlike.covered State.renamed_one_iff h.steps

/-- Flags do not influence a run: from programs and states that are identical without their flags,
both runs succeed with equal outcomes, or both fail. -/
theorem run_withoutFlags (machine : Machine) (hlimit : machine.config.timeLimit = none)
    {p p' : Program V} (hp : p.withoutFlags = p'.withoutFlags) {s s' : State V}
    (hs : s.withoutFlags = s'.withoutFlags) :
    (∃ r r', machine.run p s = .ok r ∧ machine.run p' s' = .ok r' ∧ r == r') ∨
      ∃ e e', machine.run p s = .error e ∧ machine.run p' s' = .error e' := by
  have hcovered := machine.run_covered_of_withoutFlags hlimit hp hs
  have hcovers := machine.run_covered_of_withoutFlags hlimit hp.symm hs.symm
  cases hrun' : machine.run p' s' with
  | ok r' =>
    obtain ⟨r, hrun, hle⟩ := hcovered r' hrun'
    obtain ⟨r'', hrun'', hge⟩ := hcovers r hrun
    obtain rfl := Except.ok.inj (hrun''.symm.trans hrun')
    refine .inl ⟨r, r'', hrun, rfl, ?_⟩
    rw [Bag.beq_iff_count_eq]
    exact fun u => Nat.le_antisymm (hle u) (hge u)
  | error e' =>
    cases hrun : machine.run p s with
    | ok r =>
      obtain ⟨r', hok, _⟩ := hcovers r hrun
      cases hrun'.symm.trans hok
    | error e => exact .inr ⟨e, e', rfl, rfl⟩

/-- Two ways to push `y`, with different flags, and then the variable of a scope. -/
def pushFlagged (a b : Bool) : Program String :=
  .seq (.branch (.push (.var ⟨"y", a⟩) "l") (.push (.var ⟨"y", b⟩) "l"))
    (.scope ⟨"x", a⟩ (.push (.var ⟨"x", b⟩) "l"))

/-- A state that takes away the first name that a scope of `x` would choose. -/
def takenFlagged (a : Bool) : State String :=
  ⟨⟨.ofList [("l", .ofList [.ref ⟨"x#0", a⟩])]⟩, .ofList [(⟨"y", a⟩, .ref ⟨"z", !a⟩)]⟩

/-- The two ways reach one state twice, and the scope avoids the taken name, whatever the flags are. -/
theorem run_withoutFlags_pushFlagged :
    (pushFlagged true false).withoutFlags = (pushFlagged false true).withoutFlags ∧
      (takenFlagged true).withoutFlags = (takenFlagged false).withoutFlags ∧
      ∃ r r', run {} (pushFlagged true false) (takenFlagged true) = .ok r ∧
        run {} (pushFlagged false true) (takenFlagged false) = .ok r' ∧ r == r' ∧
        r.entries.map Prod.snd = [2] := by
  have hp : (pushFlagged true false).withoutFlags = (pushFlagged false true).withoutFlags := rfl
  have hs : (takenFlagged true).withoutFlags = (takenFlagged false).withoutFlags := rfl
  have hrun : (run {} (pushFlagged true false) (takenFlagged true)).toOption.any
      fun r => r.entries.map Prod.snd == [2] := by decide +kernel
  obtain ⟨r, hr, hcounts⟩ := exists_ok_of_any hrun
  obtain ⟨r₁, r', hr₁, hr', heq⟩ | ⟨e, _, he, _⟩ := run_withoutFlags {} rfl hp hs
  · obtain rfl := Except.ok.inj (hr₁.symm.trans hr)
    exact ⟨hp, hs, r₁, r', hr₁, hr', heq, beq_iff_eq.mp hcounts⟩
  · cases hr.symm.trans he

end Machine

end StackCalculus
