import Mathlib
import StackCalculus.Proofs.Invariant.Run
import StackCalculus.Proofs.Matching

/-!
# Stored variables

A state stores variables in three places: they are bound, bindings refer to them, and they are on
stacks. `State.VarsIn P` says that all of them satisfy `P`. Steps store copies only. They come from the
term of the step, from bindings and from stacks, so that pushes, pops and the end of a scope keep the
property (`State.VarsIn.push`, `State.VarsIn.pop`, `State.VarsIn.project`). A program brings in its own
variables and those that its scopes choose (`invariant_varsIn`).
-/

namespace StackCalculus

variable {V : Type} {P : Var → Prop}

/-! ## The variables of programs -/

mutual

/-- The occurrences of variables in a term. -/
def Term.vars : Term V → List Var
  | .var x => [x]
  | .func _ _ args _ => Term.varsOfAll args

/-- The occurrences of variables in all the terms. -/
def Term.varsOfAll : List (Term V) → List Var
  | [] => []
  | t :: ts => t.vars ++ Term.varsOfAll ts

end

/-- The occurrences of variables in a program, binders included. -/
def Program.vars : Program V → List Var
  | .skip | .fail => []
  | .seq p q | .branch p q => p.vars ++ q.vars
  | .iterate p => p.vars
  | .push t _ | .pop t _ => t.vars
  | .scope x p => x :: p.vars

/-- Every variable that occurs in the program satisfies `P`. -/
def Program.VarsIn (P : Var → Prop) (p : Program V) : Prop := ∀ x ∈ p.vars, P x

instance [DecidablePred P] (p : Program V) : Decidable (p.VarsIn P) :=
  inferInstanceAs (Decidable (∀ _ ∈ _, _))

theorem Term.mem_varsOfAll {ts : List (Term V)} {y : Var} :
    y ∈ Term.varsOfAll ts ↔ ∃ t ∈ ts, y ∈ t.vars := by
  induction ts with
  | nil => simp [Term.varsOfAll]
  | cons t ts ih => simp [Term.varsOfAll, ih]

theorem Term.mem_vars_rename {old new y : Var} {t : Term V} (h : y ∈ (t.rename old new).vars) :
    y = new ∨ y ∈ t.vars := by
  induction t using Term.ind with
  | var x =>
    rw [Term.rename] at h
    split at h
    · exact .inl (List.mem_singleton.mp h)
    · exact .inr h
  | func label arity args rule ih =>
    rw [Term.rename, Term.vars, renameAll_eq_map, mem_varsOfAll] at h
    obtain ⟨renamed, hrenamed, hy⟩ := h
    obtain ⟨t, ht, rfl⟩ := List.mem_map.mp hrenamed
    rcases ih t ht hy with rfl | hy
    · exact .inl rfl
    · exact .inr (mem_varsOfAll.mpr ⟨t, ht, hy⟩)

theorem Program.mem_vars_rename {old new y : Var} {p : Program V} (h : y ∈ (p.rename old new).vars) :
    y = new ∨ y ∈ p.vars := by
  induction p with
  | skip | fail => exact .inr h
  | seq p q ihp ihq | branch p q ihp ihq =>
    rw [Program.vars, List.mem_append]
    rcases List.mem_append.mp h with h | h
    · exact (ihp h).imp_right .inl
    · exact (ihq h).imp_right .inr
  | iterate p ih => exact ih h
  | push t location | pop t location => exact Term.mem_vars_rename h
  | scope x p ih =>
    rw [Program.rename] at h
    split at h
    · exact .inr h
    · rcases List.mem_cons.mp h with rfl | h
      · exact .inr List.mem_cons_self
      · exact (ih h).imp_right (List.mem_cons_of_mem x)

/-! ## The variables of states -/

/-- A value, or a reference to a variable that satisfies `P`. -/
def Cell.VarsIn (P : Var → Prop) : Cell V → Prop
  | .value _ => True
  | .ref x => P x

/-- Every variable that the state stores satisfies `P`: those that are bound, those that bindings refer
to, and those on stacks. -/
structure State.VarsIn (P : Var → Prop) (s : State V) : Prop where
  bindings : ∀ binding ∈ s.substitution.toList, P binding.1 ∧ binding.2.VarsIn P
  cells : ∀ entry ∈ s.memory.table.entries, ∀ c ∈ entry.2.cells, c.VarsIn P

instance [DecidablePred P] : (c : Cell V) → Decidable (c.VarsIn P)
  | .value _ => inferInstanceAs (Decidable True)
  | .ref x => inferInstanceAs (Decidable (P x))

instance [DecidablePred P] (s : State V) : Decidable (s.VarsIn P) :=
  decidable_of_iff ((∀ binding ∈ s.substitution.toList, P binding.1 ∧ binding.2.VarsIn P) ∧
    ∀ entry ∈ s.memory.table.entries, ∀ c ∈ entry.2.cells, c.VarsIn P)
    ⟨fun h => ⟨h.1, h.2⟩, fun h => ⟨h.bindings, h.cells⟩⟩

theorem Cell.VarsIn.replaceRef {c d : Cell V} (hc : c.VarsIn P) (hd : d.VarsIn P) (x : Var) :
    (Cell.replaceRef x d c).VarsIn P := by
  cases c with
  | value v => exact trivial
  | ref y =>
    rw [Cell.replaceRef]
    split
    · exact hd
    · exact hc

theorem Substitution.mem_toList {σ : Substitution V} {x : Var} {c : Cell V} :
    (x, c) ∈ σ.toList ↔ σ.bindings.get? x.name = some ⟨x.isLocal, c⟩ := by
  rw [← NameMap.mem_entries_iff, toList, List.mem_map]
  constructor
  · rintro ⟨entry, hentry, heq⟩
    cases heq
    exact hentry
  · intro hentry
    exact ⟨_, hentry, rfl⟩

/-- A binding can be looked up with any copy of its variable. -/
theorem Substitution.exists_mem_toList {σ : Substitution V} {x : Var} {c : Cell V}
    (hget : σ.get? x = some c) : ∃ isLocal, (⟨x.name, isLocal⟩, c) ∈ σ.toList := by
  obtain ⟨⟨isLocal, _⟩, hbinding, rfl⟩ := Option.map_eq_some_iff.mp hget
  exact ⟨isLocal, mem_toList.mpr hbinding⟩

namespace State.VarsIn

variable {s : State V}

theorem of_get? (h : s.VarsIn P) {x : Var} {c : Cell V} (hget : s.substitution.get? x = some c) :
    c.VarsIn P := by
  obtain ⟨_, hmem⟩ := Substitution.exists_mem_toList hget
  exact (h.bindings _ hmem).2

theorem of_stack (h : s.VarsIn P) {location : String} {stack : Stack V}
    (hget : s.memory.table.get? location = some stack) : ∀ c ∈ stack.cells, c.VarsIn P :=
  h.cells (location, stack) (NameMap.mem_entries_iff.mpr hget)

/-- A chain ends in a value, in the variable that it starts from, or in a variable that some binding
refers to. -/
theorem ends (h : s.VarsIn P) {x : Var} {c : Cell V} (hx : P x)
    (hends : s.substitution.Ends x c) : c.VarsIn P := by
  induction hends with
  | unbound _ => exact hx
  | value _ => exact trivial
  | step hget _ ih => exact ih (h.of_get? hget)

theorem cellEnds (h : s.VarsIn P) {d c : Cell V} (hd : d.VarsIn P)
    (hends : s.substitution.CellEnds d c) : c.VarsIn P := by
  cases d with
  | value v =>
    rw [show c = .value v from hends]
    exact trivial
  | ref x => exact h.ends hd hends

theorem evaluateUnder (h : s.VarsIn P) {t : Term V} (ht : ∀ x ∈ t.vars, P x) {c : Cell V}
    (heval : t.evaluateUnder s.substitution = .ok c) : c.VarsIn P := by
  cases c with
  | value v => exact trivial
  | ref y =>
    obtain ⟨x, rfl, hends⟩ := Term.exists_eq_var heval
    exact h.ends (ht x List.mem_cons_self) hends

/-! ## Steps -/

theorem insert (h : s.VarsIn P) (location : String) {stack : Stack V}
    (hstack : ∀ c ∈ stack.cells, c.VarsIn P) :
    State.VarsIn P ⟨⟨s.memory.table.insert location stack⟩, s.substitution⟩ where
  bindings := h.bindings
  cells entry hentry := by
    have hget := NameMap.mem_entries_iff.mp hentry
    rw [NameMap.get?_insert] at hget
    split at hget
    · cases hget
      exact hstack
    · exact h.of_stack hget

theorem set (h : s.VarsIn P) {x : Var} {c : Cell V} (hx : P x) (hc : c.VarsIn P) :
    State.VarsIn P ⟨s.memory, s.substitution.set x c⟩ where
  bindings binding hbinding := by
    have hget := Substitution.mem_toList.mp hbinding
    rw [Substitution.set, NameMap.get?_insert] at hget
    split at hget
    · rename_i hname
      obtain ⟨hflag, rfl⟩ := Binding.mk.inj (Option.some.inj hget)
      refine ⟨?_, hc⟩
      rw [show binding.1 = x from congrArg₂ Var.mk hname hflag.symm]
      exact hx
    · exact h.bindings binding (Substitution.mem_toList.mpr hget)
  cells := h.cells

theorem project (h : s.VarsIn P) (x : Var) : (s.project x).VarsIn P := by
  cases hget : s.substitution.get? x with
  | none =>
    rw [State.project_of_unbound hget]
    exact h
  | some cell =>
    have hcell := h.of_get? hget
    constructor
    · intro binding hbinding
      have hfound := Substitution.mem_toList.mp hbinding
      simp only [State.project, Substitution.projectOut, hget, NameMap.get?_map] at hfound
      obtain ⟨old, hold, heq⟩ := Option.map_eq_some_iff.mp hfound
      obtain ⟨hflag, hreplaced⟩ := Binding.mk.inj heq
      by_cases hname : binding.1.name = x.name
      · rw [hname, NameMap.get?_erase_self] at hold
        cases hold
      · rw [NameMap.get?_erase_of_ne _ hname] at hold
        have hmem : (binding.1, old.cell) ∈ s.substitution.toList := by
          rw [Substitution.mem_toList, hold, ← hflag]
        rw [← hreplaced]
        exact ⟨(h.bindings _ hmem).1, (h.bindings _ hmem).2.replaceRef hcell x⟩
    · intro entry hentry c hc
      have hfound := NameMap.mem_entries_iff.mp hentry
      simp only [State.project, hget, Memory.replaceRefs, NameMap.get?_map] at hfound
      obtain ⟨below, hbelow, heq⟩ := Option.map_eq_some_iff.mp hfound
      rw [← heq] at hc
      obtain ⟨d, hd, rfl⟩ := List.mem_map.mp hc
      exact (h.of_stack hbelow d hd).replaceRef hcell x

/-- A push stores a copy of what the term stands for. -/
theorem push (h : s.VarsIn P) {t : Term V}
    (ht : ∀ c, t.evaluateUnder s.substitution = .ok c → c.VarsIn P) (location : String) :
    Meets (fun _ => True) (State.VarsIn P) (s.push t location) := by
  have hpush := s.push_cases t location
  generalize s.push t location = outcome at hpush
  cases hpush with
  | pushed hterm hstack =>
    exact .ok (h.insert location (List.forall_mem_cons.mpr ⟨ht _ hterm, h.of_stack hstack⟩))
  | _ => exact .error trivial

/-- A pop binds the variable that the term stands for to the end of a chain. -/
theorem pop [DecidableEq V] [ToString V] (h : s.VarsIn P) {t : Term V}
    (ht : ∀ c, t.evaluateUnder s.substitution = .ok c → c.VarsIn P) (location : String) :
    Meets (fun _ => True) (State.VarsIn P) (s.pop t location) := by
  have hpop := s.pop_cases t location
  generalize s.pop t location = outcome at hpop
  cases hpop with
  | matched hstack _ _ =>
    obtain ⟨_, hrest⟩ := List.forall_mem_cons.mp (h.of_stack hstack)
    exact .ok (h.insert location hrest)
  | bound hstack hends hterm _ _ =>
    obtain ⟨htop, hrest⟩ := List.forall_mem_cons.mp (h.of_stack hstack)
    exact .ok ((h.insert location hrest).set (ht _ hterm) (h.cellEnds htop hends))
  | _ => exact .error trivial

end State.VarsIn

/-- A program brings in its own variables and those that its scopes choose. -/
theorem invariant_varsIn [DecidableEq V] [ToString V]
    (hchosen : ∀ base index, P (.indexed base index)) :
    Invariant (State.VarsIn (V := V) P) (Program.VarsIn P) fun _ => True where
  overflow := trivial
  seq h := List.forall_mem_append.mp h
  branch h := List.forall_mem_append.mp h
  iterate h := ⟨h, fun _ => trivial⟩
  enter reserved h _ := by
    intro y hy
    rcases Program.mem_vars_rename hy with rfl | hy
    · exact hchosen _ _
    · exact h y (List.mem_cons_of_mem _ hy)
  leave _ _ _ hu := hu.project _
  push ht hs := (hs.push (fun _ => hs.evaluateUnder ht) _).imp (fun _ h _ => h) fun _ hu => hu
  pop ht hs := (hs.pop (fun _ => hs.evaluateUnder ht) _).imp (fun _ h _ => h) fun _ hu => hu

end StackCalculus
