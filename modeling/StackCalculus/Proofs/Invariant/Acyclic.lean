import Mathlib
import StackCalculus.Proofs.Invariant.Run
import StackCalculus.Proofs.Steps

/-!
# Single assignment and cycles

No run binds a variable twice, and a run that starts without cycles of bindings has none at its end
(`Machine.step_acyclic`). A pop binds the end of one chain to the end of another one, which closes no
cycle (`Acyclic.set`); a projection takes a variable out of the chains that it is on, and they end
where they did (`Acyclic.projectOut`). The substitution is all that matters here, so both statements
are instances of one invariant, `invariant_of_substitution`.
-/

namespace StackCalculus

variable {V : Type}

/-! ## Acyclic substitutions -/

namespace Substitution

/-- It is enough that the chains of the bound variables end. -/
theorem acyclic_iff (s : Substitution V) : s.Acyclic ↔
    ∀ entry ∈ s.bindings.entries, (s.resolve ⟨entry.1, entry.2.isLocal⟩).isOk := by
  constructor
  · intro h entry _
    obtain ⟨c, hc⟩ := h ⟨entry.1, entry.2.isLocal⟩
    rw [(s.resolve_eq_ok_iff _ c).mpr hc]
    rfl
  · intro h x
    cases hget : s.get? x with
    | none => exact ⟨.ref x, .unbound hget⟩
    | some d =>
      obtain ⟨binding, hbinding, _⟩ := Option.map_eq_some_iff.mp hget
      have hok := h (x.name, binding) (NameMap.mem_entries_iff.mpr hbinding)
      obtain ⟨c, hc⟩ := exists_ok_of_isOk hok
      -- The flag of the variable makes no difference to the chain behind its binding.
      have hends : s.CellEnds d c := ((s.resolve_eq_ok_iff _ c).mp hc).of_get? hget
      exact ⟨c, hends.ends hget⟩

instance (s : Substitution V) : Decidable s.Acyclic := decidable_of_iff _ s.acyclic_iff.symm

variable {s : Substitution V}

theorem Acyclic.resolve_ne_error (h : s.Acyclic) (x : Var) (e : Fault) : s.resolve x ≠ .error e := by
  obtain ⟨c, hc⟩ := h x
  rw [(s.resolve_eq_ok_iff x c).mpr hc]
  nofun

theorem Acyclic.exists_cellEnds (h : s.Acyclic) (d : Cell V) : ∃ c, s.CellEnds d c := by
  cases d with
  | value v => exact ⟨.value v, rfl⟩
  | ref x => exact h x

/-- An unbound variable may be bound to any cell that does not stand for it. -/
theorem Acyclic.set (h : s.Acyclic) {x : Var} {c f : Cell V} (hx : s.get? x = none)
    (hc : s.CellEnds c f) (hfx : f.refersTo x = false) : (s.set x c).Acyclic := by
  intro z
  obtain ⟨e, he⟩ := h z
  exact ⟨_, CellEnds.set (show s.CellEnds (.ref z) e from he) hx hc hfx⟩

theorem Acyclic.projectOut (h : s.Acyclic) (x : Var) : (s.projectOut x).Acyclic := by
  intro z
  cases hx : s.get? x with
  | none =>
    rw [s.projectOut_of_unbound hx]
    exact h z
  | some cell =>
    by_cases hzx : z == x
    -- `x` itself is unbound now.
    · refine ⟨.ref z, .unbound ?_⟩
      rw [get?_congr _ hzx, get?_projectOut_self]
    · obtain ⟨d, hd⟩ := h z
      exact ⟨d, hd.projectOut hx hzx⟩

end Substitution

/-- Faults of bindings: a second binding of a variable, or a cycle. -/
def Fault.isBindingFault : Fault → Bool
  | alreadyBound _ => true
  | cyclicBinding _ _ => true
  | _ => false

/-! ## Properties of the substitution -/

section Invariants

variable [DecidableEq V] [ToString V] {Q : Substitution V → Prop} {F : Fault → Prop}

/-- A property of substitutions is an invariant if it outlasts new bindings of unbound variables to
other ends of chains, and projections. The faults are those of resolving, and faults that have
nothing to do with bindings. -/
theorem invariant_of_substitution
    (hset : ∀ s x c, Q s → s.get? x = none → s.CellEnds c c → c.refersTo x = false → Q (s.set x c))
    (hproject : ∀ s x, Q s → Q (s.projectOut x))
    (hresolve : ∀ s x e, Q s → s.resolve x = .error e → F e)
    (hother : ∀ e : Fault, e.isBindingFault = false → F e) :
    Invariant (fun s : State V => Q s.substitution) (fun _ => True) F := by
  have hterm : ∀ {s : Substitution V} {t : Term V} {e : Fault}, Q s →
      t.evaluateUnder s = .error e → F e := by
    intro s t e hs h
    cases Term.evaluationFault_of_evaluateUnder h with
    | arity term expected actual => exact hother _ rfl
    | nonConstant term name => exact hother _ rfl
    | chain h => exact hresolve s _ e hs h
  constructor
  case overflow => exact hother _ rfl
  case seq => exact fun _ => ⟨trivial, trivial⟩
  case branch => exact fun _ => ⟨trivial, trivial⟩
  case iterate => exact fun _ => ⟨trivial, fun rounds => hother _ rfl⟩
  case enter => exact fun _ _ _ => trivial
  case leave => exact fun _ _ _ hu => hproject _ _ hu
  case push =>
    intro t location s _ hs
    have hpush := s.push_cases t location
    generalize s.push t location = outcome at hpush
    cases hpush with
    | pushed => exact .ok hs
    | term h => exact .error fun _ => hterm hs h
    | unknown => exact .error fun _ => hother _ rfl
  case pop =>
    intro t location s _ hs
    have hpop := s.pop_cases t location
    generalize s.pop t location = outcome at hpop
    cases hpop with
    | matched => exact .ok hs
    | bound _ htop _ hx hcx => exact .ok (hset _ _ _ hs hx htop.self hcx)
    | failed h => exact .error fun hfatal => absurd h (Bool.eq_false_iff.mp hfatal)
    | unknown => exact .error fun _ => hother _ rfl
    | chain h => exact .error fun _ => hresolve _ _ _ hs h
    | term h => exact .error fun _ => hterm hs h

/-- A second binding of a variable is never tried. -/
theorem invariant_single_assignment :
    Invariant (fun _ : State V => True) (fun _ => True) fun e => ∀ name, e ≠ .alreadyBound name := by
  refine invariant_of_substitution (Q := fun _ => True) (fun _ _ _ _ _ _ _ => trivial)
    (fun _ _ _ => trivial) (fun s x e _ h name => ?_) fun e h name => ?_
  · obtain ⟨target, rfl⟩ := Substitution.eq_cyclicBinding_of_resolve h
    nofun
  · rintro rfl
    cases h

/-- Without cycles at the start there is no fault of bindings, and no cycle later. -/
theorem invariant_acyclic :
    Invariant (fun s : State V => s.substitution.Acyclic) (fun _ => True)
      fun e => e.isBindingFault = false := by
  refine invariant_of_substitution (fun s x c hs => hs.set) (fun s x hs => hs.projectOut x) ?_
    fun e h => h
  exact fun s x e hs h => absurd h (hs.resolve_ne_error x e)

end Invariants

/-! ## Whole runs -/

namespace Machine

/-- A step never tries to bind a variable twice. From states without cycles of bindings it reports no
cycle, and takes them to states without cycles. -/
theorem step_acyclic [DecidableEq V] [ToString V] (machine : Machine) (program : Program V)
    (c : Configuration V) :
    (∀ name, machine.step program c ≠ .error (.alreadyBound name)) ∧
      ((∀ s ∈ c.elements, s.substitution.Acyclic) →
        (∀ name target, machine.step program c ≠ .error (.cyclicBinding name target)) ∧
          ∀ r, machine.step program c = .ok r → ∀ t ∈ r.elements, t.substitution.Acyclic) := by
  refine ⟨fun name hstep => ?_, fun hc => ⟨fun name target hstep => ?_, fun r hstep => ?_⟩⟩
  · exact invariant_single_assignment.fault_of_step trivial (fun _ _ => trivial) hstep name rfl
  · cases invariant_acyclic.fault_of_step trivial hc hstep
  · exact invariant_acyclic.each_of_step trivial hc hstep

/-- Drops every second reference and makes the others equal to `x`. -/
def equateSeconds : Program String :=
  .iterate (.scope ⟨"z", false⟩ (.seq (.popVar "z" "l") (.popVar "x" "l")))

/-- A stack of references, the lowest of them bound to another variable. -/
def fourReferences : State String :=
  ⟨⟨.ofList [("l", .ofList (["a", "b", "c", "d"].map fun name => .ref ⟨name, false⟩))]⟩,
    ⟨NameMap.ofList [("a", ⟨false, .ref ⟨"e", false⟩⟩)]⟩⟩

/-- Chains that grow with the rounds: `x` is bound to `c` in the first, and `c` to the end of the
chain of `a` in the second. -/
theorem step_acyclic_equateSeconds :
    fourReferences.substitution.Acyclic ∧
      ∃ r, step {} equateSeconds (.singleton fourReferences) = .ok r ∧ r.elements.length = 3 ∧
        ∀ t ∈ r.elements, t.substitution.Acyclic := by
  have hstart : fourReferences.substitution.Acyclic := by decide +kernel
  have hstep : (step {} equateSeconds (.singleton fourReferences)).toOption.any fun r =>
      r.elements.length == 3 := by decide +kernel
  obtain ⟨r, hr, hlength⟩ := exists_ok_of_any hstep
  have hc : ∀ s ∈ (Bag.singleton fourReferences).elements, s.substitution.Acyclic := by
    intro s hs
    obtain rfl := List.mem_singleton.mp hs
    exact hstart
  obtain ⟨_, hends⟩ := (step_acyclic {} equateSeconds (.singleton fourReferences)).2 hc
  exact ⟨hstart, r, hr, beq_iff_eq.mp hlength, hends r hr⟩

end Machine

end StackCalculus
