import Mathlib
import StackCalculus.Proofs.Invariant.Footprint
import StackCalculus.Proofs.Invariant.Stored
import StackCalculus.Proofs.Scope.Alpha

/-!
# Growth of substitutions

A run keeps the bindings that it starts with, and binds few other variables (`Machine.run_growth`).
A pop binds the variable at the end of a chain. The names in question are therefore those that the
state mentions, those that are free in the program, and those that its scopes choose: no step brings
in another name (`invariant_among`). The last kind is needed although a scope drops its variable in
the end, since the variable may be on a stack by then, for a later pop to bind.
-/

namespace StackCalculus

variable {V : Type}

/-! ## States with names in a set -/

variable {A : String → Prop}

/-- A value, or a reference to a name in `A`. -/
def Cell.Among (A : String → Prop) (c : Cell V) : Prop := ∀ x, c.refersTo x → A x.name

/-- All names that a state mentions are in `A`. -/
structure State.Among (A : String → Prop) (s : State V) : Prop where
  bound : ∀ x c, s.substitution.get? x = some c → A x.name
  bindings : ∀ x c, s.substitution.get? x = some c → c.Among A
  cells : ∀ location stack, s.memory.table.get? location = some stack →
    ∀ c ∈ stack.cells, c.Among A

theorem Cell.among_value (v : V) : (Cell.value v).Among A := fun _ h => nomatch h

theorem Cell.among_ref {x : Var} (hx : A x.name) : (Cell.ref x : Cell V).Among A := by
  intro y hy
  rw [← Var.beq_iff.mp hy]
  exact hx

theorem Cell.among_iff_varsIn (c : Cell V) : c.Among A ↔ c.VarsIn fun x => A x.name := by
  cases c with
  | value v => exact ⟨fun _ => trivial, fun _ => Cell.among_value v⟩
  | ref x => exact ⟨fun h => h x (BEq.refl x), Cell.among_ref⟩

/-- The bindings of names in `A` are values and references to names in `A`. -/
def Substitution.Closed (A : String → Prop) (σ : Substitution V) : Prop :=
  ∀ x c, A x.name → σ.get? x = some c → c.Among A

namespace Substitution.Closed

variable {σ : Substitution V}

/-- Chains stay among the names. -/
theorem ends (hσ : σ.Closed A) {x : Var} {c : Cell V} (hx : A x.name) (h : σ.Ends x c) :
    c.Among A := by
  induction h with
  | unbound hget => exact Cell.among_ref hx
  | value hget => exact Cell.among_value _
  | step hget _ ih => exact ih (hσ _ _ hx hget _ (BEq.refl _))

theorem cellEnds (hσ : σ.Closed A) {d c : Cell V} (hd : d.Among A) (h : σ.CellEnds d c) :
    c.Among A := by
  cases d with
  | value v =>
    rw [show c = .value v from h]
    exact Cell.among_value v
  | ref x => exact hσ.ends (hd x (BEq.refl x)) h

theorem evaluateUnder (hσ : σ.Closed A) {t : Term V} (ht : ∀ x, t.freeVars.contains x → A x.name)
    {c : Cell V} (heval : t.evaluateUnder σ = .ok c) : c.Among A := by
  cases t with
  | var x =>
    have hends := (σ.resolve_eq_ok_iff x c).mp heval
    exact hσ.ends (ht x (by rw [Term.freeVars, VarSet.contains_singleton, BEq.refl])) hends
  | func label arity args rule =>
    -- A function node has a value.
    rw [Term.evaluateUnder] at heval
    split at heval
    · obtain ⟨values, _, heval⟩ := bind_eq_ok_iff.mp heval
      cases heval
      exact Cell.among_value _
    · cases heval

theorem set (hσ : σ.Closed A) {c : Cell V} (hc : c.Among A) (x : Var) : (σ.set x c).Closed A := by
  intro z d hz hget
  rw [get?_set] at hget
  split at hget
  · cases hget
    exact hc
  · exact hσ z d hz hget

end Substitution.Closed

namespace State.Among

variable {s : State V}

theorem of_mentions (h : ∀ x, s.mentions x → A x.name) : s.Among A where
  bound _ _ hget := h _ (mentions_of_get? hget)
  bindings _ _ hget x hx := h x (mentions_of_binding hget hx)
  cells _ _ hget _ hc x hx := h x (mentions_of_cell hget hc hx)

theorem closed (h : s.Among A) : s.substitution.Closed A := fun x c _ => h.bindings x c

end State.Among

/-- The names that a state mentions are those of the variables that it stores. -/
theorem State.among_iff_varsIn (s : State V) : s.Among A ↔ s.VarsIn fun x => A x.name := by
  constructor
  · intro h
    refine ⟨fun binding hbinding => ?_, fun entry hentry c hc => ?_⟩
    · have hget : s.substitution.get? binding.1 = some binding.2 := by
        rw [Substitution.get?, Substitution.mem_toList.mp hbinding, Option.map_some]
      exact ⟨h.bound _ _ hget, (Cell.among_iff_varsIn _).mp (h.bindings _ _ hget)⟩
    · exact (Cell.among_iff_varsIn c).mp (h.cells _ _ (NameMap.mem_entries_iff.mp hentry) c hc)
  · intro h
    refine ⟨fun x c hget => ?_, fun x c hget => ?_, fun location stack hget c hc => ?_⟩
    · obtain ⟨_, hmem⟩ := Substitution.exists_mem_toList hget
      exact (h.bindings _ hmem).1
    · exact (Cell.among_iff_varsIn c).mpr (h.of_get? hget)
    · exact (Cell.among_iff_varsIn c).mpr (h.of_stack hget c hc)

/-! ## Programs with names in a set -/

/-- Programs with free variables in `A`, as are the names that their scopes can choose. -/
structure Program.Among (A : String → Prop) (p : Program V) : Prop where
  free : ∀ x, p.freeVars.contains x → A x.name
  chosen : ∀ name, IsChosen p.bound name → A name

theorem IsChosen.mono {bound bound' : List String} {name : String} (h : IsChosen bound name)
    (hsubset : bound ⊆ bound') : IsChosen bound' name := by
  obtain ⟨base, hbase, hname⟩ := h
  exact ⟨base, hsubset hbase, hname⟩

theorem Program.Among.of_append {p q r : Program V} (h : r.Among A)
    (hfree : r.freeVars = p.freeVars.union q.freeVars) (hbound : r.bound = p.bound ++ q.bound) :
    p.Among A ∧ q.Among A := by
  obtain ⟨hr, hchosen⟩ := h
  simp only [hfree, VarSet.contains_union, Bool.or_eq_true, or_imp, forall_and] at hr
  rw [hbound] at hchosen
  refine ⟨⟨hr.1, fun name hname => ?_⟩, hr.2, fun name hname => ?_⟩
  · exact hchosen name (hname.mono (List.subset_append_left _ _))
  · exact hchosen name (hname.mono (List.subset_append_right _ _))

/-- A scope is entered with one of the names that it can choose. -/
theorem Program.Among.enter {x : Var} {p : Program V} (h : (Program.scope x p).Among A) (s : State V)
    (reserved : List Var) : (p.rename x (freshFor x p s reserved)).Among A where
  free z hz := by
    rcases Program.contains_freeVars_rename hz with hz | ⟨hzx, hz⟩
    · rw [Var.beq_iff.mp hz]
      have hx : x.name ∈ (Program.scope x p).bound := List.mem_cons_self
      exact h.chosen _ (freshFor_chosen hx p s reserved).1
    · refine h.free z ?_
      rw [Program.freeVars, VarSet.contains_erase, Bool.eq_false_iff.mpr hzx]
      exact hz
  chosen name hname := by
    rw [Program.bound_rename] at hname
    exact h.chosen name (hname.mono (List.subset_cons_self _ _))

/-! ## Whole runs -/

section Invariants

variable [DecidableEq V] [ToString V]

/-- No step brings in a name from elsewhere. -/
theorem invariant_among (A : String → Prop) :
    Invariant (fun s : State V => s.Among A) (Program.Among A) fun _ => True where
  overflow := trivial
  seq h := h.of_append rfl rfl
  branch h := h.of_append rfl rfl
  iterate h := ⟨⟨h.free, h.chosen⟩, fun _ => trivial⟩
  enter reserved h _ := h.enter _ reserved
  leave _ _ _ hu := (State.among_iff_varsIn _).mpr (((State.among_iff_varsIn _).mp hu).project _)
  push := by
    intro t location s ht hs
    have hterm : ∀ c, t.evaluateUnder s.substitution = .ok c → c.VarsIn fun x => A x.name :=
      fun c hc => (Cell.among_iff_varsIn c).mp (hs.closed.evaluateUnder ht.free hc)
    exact (((State.among_iff_varsIn s).mp hs).push hterm location).imp (fun _ h _ => h)
      fun u => (State.among_iff_varsIn u).mpr
  pop := by
    intro t location s ht hs
    have hterm : ∀ c, t.evaluateUnder s.substitution = .ok c → c.VarsIn fun x => A x.name :=
      fun c hc => (Cell.among_iff_varsIn c).mp (hs.closed.evaluateUnder ht.free hc)
    exact (((State.among_iff_varsIn s).mp hs).pop hterm location).imp (fun _ h _ => h)
      fun u => (State.among_iff_varsIn u).mpr

/-- Bindings stay: no scope chooses a variable that its state mentions. -/
theorem invariant_keeps (s : State V) (used : List String) :
    Invariant (Keeps s used) (Program.Within (fun _ location => location ∈ used) fun _ => True)
      fun _ => True := by
  apply Invariant.of_accesses trivial
  case rename => exact fun _ _ _ _ h => h
  case push =>
    intro t location u _ hu
    cases hpush : u.push t location with
    | ok v => exact .ok (hu.push hpush)
    | error e => exact .error fun _ => trivial
  case pop =>
    intro t location u hlocation hu
    cases hpop : u.pop t location with
    | ok v => exact .ok (hu.pop hlocation hpop)
    | error e => exact .error fun _ => trivial
  case leave =>
    intro x u v hx hu hv
    refine hv.project fun hkept => ?_
    rw [hu.mentions hkept] at hx
    cases hx

end Invariants

namespace Machine

/-- A run keeps every binding. A variable that it binds is free in the program, is referred to in a
binding or a stack of the starting state, or has a name that a scope of the program can choose. -/
theorem run_growth [DecidableEq V] [ToString V] (machine : Machine) (program : Program V)
    (s : State V) {r : Configuration V} (hrun : machine.run program s = .ok r) :
    ∀ t ∈ r.elements,
      (∀ x c, s.substitution.get? x = some c → t.substitution.get? x = some c) ∧
      ∀ x, t.substitution.contains x → s.substitution.contains x = false →
        program.freeVars.contains x ∨
          (∃ y c, s.substitution.get? y = some c ∧ c.refersTo x) ∨ s.memory.mentions x ∨
          IsChosen program.bound x.name := by
  intro t ht
  constructor
  · have hkeeps := (invariant_keeps s program.locations).each_of_run program.within_locations
      (.refl s _) hrun t ht
    exact hkeeps.bindings
  · intro x hx hunbound
    let A : String → Prop := fun name => program.freeVars.contains ⟨name, false⟩ ∨
      s.mentions ⟨name, false⟩ ∨ IsChosen program.bound name
    have hprogram : program.Among A := ⟨fun _ h => .inl h, fun _ h => .inr (.inr h)⟩
    have hstart : s.Among A := .of_mentions fun y hy => .inr (.inl (s.mentions_congr rfl hy))
    have hamong := (invariant_among A).each_of_run hprogram hstart hrun t ht
    obtain ⟨c, hc⟩ := Option.isSome_iff_exists.mp hx
    rcases hamong.bound x c hc with hfree | hmentions | hchosen
    · exact .inl hfree
    · have hmentions : s.mentions x := s.mentions_congr rfl hmentions
      rw [State.mentions, Bool.or_eq_true, Substitution.mentions_iff] at hmentions
      rcases hmentions with (⟨d, hd⟩ | hbinding) | hmemory
      · rw [Substitution.contains, hd] at hunbound
        cases hunbound
      · exact .inr (.inl hbinding)
      · exact .inr (.inr (.inl hmemory))
    · exact .inr (.inr (.inr hchosen))

/-- Leaves a local variable on a stack, and then binds it by way of `y`. -/
def leaveAndBind : Program String :=
  .seq (.scope ⟨"a", false⟩ (.pushVar "a" "l"))
    (.seq (.popVar "y" "l") (.seq (.popVar "y" "k") (.popVar "y" "k")))

/-- A binding, and a reference to another variable above a value. -/
def oneBinding : State String :=
  ⟨⟨.ofList [("k", .ofList [.value "v", .ref ⟨"m", false⟩]), ("l", .empty)]⟩,
    ⟨.ofList [("b", ⟨false, .ref ⟨"w", false⟩⟩)]⟩⟩

/-- The run binds a free variable to the local one, this to the variable on the stack, and that to the
value below it. -/
theorem run_growth_leaveAndBind :
    ∃ r, run {} leaveAndBind oneBinding = .ok r ∧
      r.elements.map (fun t => t.substitution.bindings.names) = [["a#0", "b", "m", "y"]] ∧
      ∀ t ∈ r.elements, t.substitution.get? ⟨"b", false⟩ = some (.ref ⟨"w", false⟩) ∧
        ∀ x, t.substitution.contains x → oneBinding.substitution.contains x = false →
          leaveAndBind.freeVars.contains x ∨
            (∃ y c, oneBinding.substitution.get? y = some c ∧ c.refersTo x) ∨
            oneBinding.memory.mentions x ∨ IsChosen ["a"] x.name := by
  have hrun : (run {} leaveAndBind oneBinding).toOption.any fun r =>
      r.elements.map (fun t => t.substitution.bindings.names) == [["a#0", "b", "m", "y"]] := by
    decide +kernel
  obtain ⟨r, hr, hnames⟩ := exists_ok_of_any hrun
  refine ⟨r, hr, beq_iff_eq.mp hnames, fun t ht => ?_⟩
  obtain ⟨hbindings, hnew⟩ := run_growth {} leaveAndBind oneBinding hr t ht
  exact ⟨hbindings ⟨"b", false⟩ (.ref ⟨"w", false⟩) rfl, hnew⟩

end Machine

end StackCalculus
