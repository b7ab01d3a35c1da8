import Mathlib
import StackCalculus.Proofs.Adequacy
import StackCalculus.Proofs.Scope.Growth

/-!
# Programs on separate regions

A region is a set of locations together with a set of names. It is closed in a state if the cells at
its locations and the bindings of its names refer to its own names only, so that no chain leaves it. A
program without scopes that keeps to the locations and names of a closed region neither sees nor
changes what is outside: from states that agree on the region it goes the same ways
(`Machine.paths_lockstep`). Two programs on separate regions therefore reach every combination of what
each of them reaches by itself, in whichever order they run (`Machine.run_seq_comm`).
-/

namespace StackCalculus

variable {V : Type}

/-! ## Regions -/

/-- A part of every state: some of the stacks, and the bindings of some of the names. -/
structure Region where
  location : String → Prop
  name : String → Prop

/-- What is outside a region. -/
def Region.rest (R : Region) : Region := ⟨fun location => ¬ R.location location, fun x => ¬ R.name x⟩

/-- Regions without a common location or name. -/
structure Region.Separate (R Q : Region) : Prop where
  location : ∀ location, R.location location → ¬ Q.location location
  name : ∀ x, R.name x → ¬ Q.name x

theorem Region.Separate.symm {R Q : Region} (h : R.Separate Q) : Q.Separate R where
  location l hQ hR := h.location l hR hQ
  name x hQ hR := h.name x hR hQ

/-- The same stacks and the same bindings in a region. -/
structure State.AgreeOn (R : Region) (s u : State V) : Prop where
  stack : ∀ location, R.location location →
    s.memory.table.get? location = u.memory.table.get? location
  binding : ∀ x, R.name x → s.substitution.bindings.get? x = u.substitution.bindings.get? x

/-- What a state holds in a region refers to names of the region only. -/
structure State.ClosedOn (R : Region) (s : State V) : Prop where
  cells : ∀ location stack, R.location location → s.memory.table.get? location = some stack →
    ∀ c ∈ stack.cells, c.Among R.name
  bindings : s.substitution.Closed R.name

namespace State.AgreeOn

variable {R Q : Region} {s u : State V}

theorem refl (R : Region) (s : State V) : s.AgreeOn R s := ⟨fun _ _ => rfl, fun _ _ => rfl⟩

theorem symm (h : s.AgreeOn R u) : u.AgreeOn R s where
  stack l hl := (h.stack l hl).symm
  binding x hx := (h.binding x hx).symm

theorem of_separate (h : s.AgreeOn R.rest u) (hQ : Q.Separate R) : s.AgreeOn Q u where
  stack l hl := h.stack l (hQ.location l hl)
  binding x hx := h.binding x (hQ.name x hx)

theorem get?_eq (h : s.AgreeOn R u) {x : Var} (hx : R.name x.name) :
    s.substitution.get? x = u.substitution.get? x := by
  unfold Substitution.get?
  rw [h.binding x.name hx]

theorem closedOn (h : s.AgreeOn R u) (hs : s.ClosedOn R) : u.ClosedOn R where
  cells l stack hl hget := hs.cells l stack hl ((h.stack l hl).trans hget)
  bindings x c hx hget := hs.bindings x c hx ((h.get?_eq hx).trans hget)

theorem insert_rest (h : s.AgreeOn R.rest u) {location : String} (hl : R.location location)
    (stack : Stack V) :
    AgreeOn R.rest ⟨⟨s.memory.table.insert location stack⟩, s.substitution⟩ u where
  stack l hl' := by
    have hne : l ≠ location := fun heq => hl' (heq ▸ hl)
    exact (s.memory.table.get?_insert_of_ne hne stack).trans (h.stack l hl')
  binding := h.binding

theorem set_rest (h : s.AgreeOn R.rest u) {x : Var} (hx : R.name x.name) (c : Cell V) :
    AgreeOn R.rest ⟨s.memory, s.substitution.set x c⟩ u where
  stack := h.stack
  binding y hy := by
    have hne : y ≠ x.name := fun heq => hy (heq ▸ hx)
    exact (NameMap.get?_insert_of_ne _ hne _).trans (h.binding y hy)

end State.AgreeOn

/-- `u` is `s` with a change in `A`, and `w` is `s` with a change in `B`. Making the second change in
`u` or the first one in `w` comes to the same if `A` and `B` are separate. -/
theorem eq_of_separate_changes {ι β : Type} {A B : ι → Prop} (hAB : ∀ i, A i → ¬ B i)
    {s u w t t' : ι → β} (hu : ∀ i, ¬ A i → u i = s i) (hw : ∀ i, ¬ B i → w i = s i)
    (ht : ∀ i, B i → t i = w i) (htu : ∀ i, ¬ B i → t i = u i) (ht' : ∀ i, A i → t' i = u i)
    (htw : ∀ i, ¬ A i → t' i = w i) (i : ι) : t i = t' i := by
  by_cases hB : B i
  · rw [ht i hB, htw i fun hA => hAB i hA hB]
  · rw [htu i hB]
    by_cases hA : A i
    · rw [ht' i hA]
    · rw [htw i hA, hu i hA, hw i hB]

/-- Changes in separate regions end in one state, in whichever order they are made. -/
theorem State.eq_of_separate {R Q : Region} (hsep : R.Separate Q) {s u w t t' : State V}
    (hu : u.AgreeOn R.rest s) (hw : w.AgreeOn Q.rest s) (ht : t.AgreeOn Q w)
    (htu : t.AgreeOn Q.rest u) (ht' : t'.AgreeOn R u) (htw : t'.AgreeOn R.rest w) : t = t' := by
  obtain ⟨⟨table⟩, ⟨bindings⟩⟩ := t
  obtain ⟨⟨table'⟩, ⟨bindings'⟩⟩ := t'
  obtain rfl : table = table' := NameMap.ext_get? (eq_of_separate_changes hsep.location hu.stack
    hw.stack ht.stack htu.stack ht'.stack htw.stack)
  obtain rfl : bindings = bindings' := NameMap.ext_get? (eq_of_separate_changes hsep.name hu.binding
    hw.binding ht.binding htu.binding ht'.binding htw.binding)
  rfl

/-! ## Reading in a closed region -/

section Reading

variable {R : Region} {u u' : State V}

/-- A chain that starts in a closed region stays there. -/
theorem State.AgreeOn.ends (h : u.AgreeOn R u') (hu : u.ClosedOn R) {x : Var} (hx : R.name x.name)
    {c : Cell V} (hends : u.substitution.Ends x c) : u'.substitution.Ends x c := by
  induction hends with
  | unbound hget => exact .unbound ((h.get?_eq hx).symm.trans hget)
  | value hget => exact .value ((h.get?_eq hx).symm.trans hget)
  | step hget _ ih =>
    have hy := hu.bindings _ _ hx hget _ (BEq.refl _)
    exact .step ((h.get?_eq hx).symm.trans hget) (ih hy)

theorem State.AgreeOn.resolve (h : u.AgreeOn R u') (hu : u.ClosedOn R) {x : Var}
    (hx : R.name x.name) :
    Alike SameFate Eq (u.substitution.resolve x) (u'.substitution.resolve x) := by
  refine Alike.of_exists (fun c hc => ⟨c, ?_, rfl⟩) (fun c hc => ⟨c, ?_⟩) fun e e' he he' => ?_
  · exact (Substitution.resolve_eq_ok_iff ..).mpr (h.ends hu hx ((Substitution.resolve_eq_ok_iff ..).mp hc))
  · have hends := (Substitution.resolve_eq_ok_iff ..).mp hc
    exact (Substitution.resolve_eq_ok_iff ..).mpr (h.symm.ends (h.closedOn hu) hx hends)
  · exact (Substitution.isBranchFailure_of_resolve he).trans
      (Substitution.isBranchFailure_of_resolve he').symm

theorem State.AgreeOn.resolveCell (h : u.AgreeOn R u') (hu : u.ClosedOn R) {c : Cell V}
    (hc : c.Among R.name) :
    Alike SameFate Eq (u.substitution.resolveCell c) (u'.substitution.resolveCell c) := by
  cases c with
  | value v => exact .ok rfl
  | ref x => exact h.resolve hu (hc x (BEq.refl x))

/-- The value of a term depends on what its variables resolve to, and on nothing else. -/
theorem Term.evaluateUnder_alike {s s' : Substitution V} {t : Term V}
    (hs : ∀ x, t.freeVars.contains x → Alike SameFate Eq (s.resolve x) (s'.resolve x)) :
    Alike SameFate Eq (t.evaluateUnder s) (t.evaluateUnder s') := by
  induction t using Term.ind with
  | var x => exact hs x (by rw [freeVars, VarSet.contains_singleton, BEq.refl])
  | func label arity args rule ih =>
    have hargs : ∀ t ∈ args, Alike SameFate Eq (t.evaluateUnder s) (t.evaluateUnder s') := by
      intro t ht
      refine ih t ht fun x hx => hs x ?_
      rw [freeVars, contains_freeVarsOfAll, List.any_eq_true]
      exact ⟨t, ht, hx⟩
    have hvalues : ∀ (node : Term V) {ts : List (Term V)}, (∀ t ∈ ts, t ∈ args) →
        Alike SameFate Eq (evaluateArgs s node ts) (evaluateArgs s' node ts) := by
      intro node ts hts
      induction ts with
      | nil => exact .ok rfl
      | cons t ts ihts =>
        obtain ⟨hhead, htail⟩ := List.forall_mem_cons.mp hts
        rw [evaluateArgs, evaluateArgs]
        refine (hargs t hhead).bind ?_
        rintro c _ rfl
        cases c with
        | ref y => exact .error rfl
        | value v =>
          refine (ihts htail).bind ?_
          rintro values _ rfl
          exact .ok rfl
    rw [evaluateUnder, evaluateUnder]
    split
    · refine (hvalues _ fun _ h => h).bind ?_
      rintro values _ rfl
      exact .ok rfl
    · exact .error rfl

end Reading

/-! ## Steps in a closed region -/

/-- `u` and `u'` have come from `t` and `t'` by the same steps in a closed region: they agree there,
and are as they were outside. -/
structure Lockstep (R : Region) (t t' u u' : State V) : Prop where
  agree : u.AgreeOn R u'
  closed : u.ClosedOn R
  rest : u.AgreeOn R.rest t
  rest' : u'.AgreeOn R.rest t'

namespace Lockstep

variable {R : Region} {t t' u u' : State V}

theorem start (h : t.AgreeOn R t') (ht : t.ClosedOn R) : Lockstep R t t' t t' :=
  ⟨h, ht, .refl _ _, .refl _ _⟩

theorem evaluateUnder (h : Lockstep R t t' u u') {term : Term V}
    (hterm : ∀ x, term.freeVars.contains x → R.name x.name) :
    Alike SameFate Eq (term.evaluateUnder u.substitution) (term.evaluateUnder u'.substitution) :=
  Term.evaluateUnder_alike fun x hx => h.agree.resolve h.closed (hterm x hx)

theorem insert (h : Lockstep R t t' u u') {location : String} (hl : R.location location)
    {stack : Stack V} (hstack : ∀ c ∈ stack.cells, c.Among R.name) :
    Lockstep R t t' ⟨⟨u.memory.table.insert location stack⟩, u.substitution⟩
      ⟨⟨u'.memory.table.insert location stack⟩, u'.substitution⟩ where
  agree := by
    refine ⟨fun l hl' => ?_, h.agree.binding⟩
    show (u.memory.table.insert location stack).get? l = (u'.memory.table.insert location stack).get? l
    rw [NameMap.get?_insert, NameMap.get?_insert, h.agree.stack l hl']
  closed := by
    refine ⟨fun l found hl' hget => ?_, h.closed.bindings⟩
    have hget : (u.memory.table.insert location stack).get? l = some found := hget
    rw [NameMap.get?_insert] at hget
    split at hget
    · cases hget
      exact hstack
    · exact h.closed.cells l found hl' hget
  rest := h.rest.insert_rest hl stack
  rest' := h.rest'.insert_rest hl stack

theorem set (h : Lockstep R t t' u u') {x : Var} (hx : R.name x.name) {c : Cell V}
    (hc : c.Among R.name) :
    Lockstep R t t' ⟨u.memory, u.substitution.set x c⟩ ⟨u'.memory, u'.substitution.set x c⟩ where
  agree := by
    refine ⟨h.agree.stack, fun y hy => ?_⟩
    show (NameMap.insert _ _ _).get? y = (NameMap.insert _ _ _).get? y
    rw [NameMap.get?_insert, NameMap.get?_insert, h.agree.binding y hy]
  closed := ⟨h.closed.cells, h.closed.bindings.set hc x⟩
  rest := h.rest.set_rest hx c
  rest' := h.rest'.set_rest hx c

theorem push (h : Lockstep R t t' u u') {term : Term V}
    (hterm : ∀ x, term.freeVars.contains x → R.name x.name) {location : String}
    (hl : R.location location) :
    Alike SameFate (Lockstep R t t') (u.push term location) (u'.push term location) := by
  refine (h.evaluateUnder hterm).with_ok.bind ?_
  rintro c _ ⟨rfl, heval, _⟩
  have hc := h.closed.bindings.evaluateUnder hterm heval
  unfold Memory.push Memory.stackAt
  rw [← h.agree.stack location hl]
  cases hget : u.memory.table.get? location with
  | none => exact .error rfl
  | some stack =>
    have hcells := h.closed.cells location stack hl hget
    exact .ok (h.insert hl (List.forall_mem_cons.mpr ⟨hc, hcells⟩))

variable [DecidableEq V] [ToString V]

/-- Both sides match the same cells, and take the same binding if they take one. -/
theorem matchCell (h : Lockstep R t t' u u') {expected popped : Cell V}
    (hexpected : u.substitution.CellEnds expected expected)
    (hexpected' : u'.substitution.CellEnds expected expected)
    (hpopped : u.substitution.CellEnds popped popped)
    (hpopped' : u'.substitution.CellEnds popped popped)
    (hamong : expected.Among R.name) (hamong' : popped.Among R.name) :
    Alike SameFate (fun σ σ' => Lockstep R t t' ⟨u.memory, σ⟩ ⟨u'.memory, σ'⟩)
      (u.substitution.matchCell expected popped) (u'.substitution.matchCell expected popped) := by
  cases expected with
  | value v =>
    show Alike _ _ (if popped == .value v then _ else _) (if popped == .value v then _ else _)
    split
    · exact .ok h
    · exact .error rfl
  | ref x =>
    rw [Substitution.matchCell_ref (Substitution.Ends.get?_eq_none hexpected) hpopped,
      Substitution.matchCell_ref (Substitution.Ends.get?_eq_none hexpected') hpopped']
    split
    · exact .error rfl
    · exact .ok (h.set (hamong x (BEq.refl x)) hamong')

theorem pop (h : Lockstep R t t' u u') {term : Term V}
    (hterm : ∀ x, term.freeVars.contains x → R.name x.name) {location : String}
    (hl : R.location location) :
    Alike SameFate (Lockstep R t t') (u.pop term location) (u'.pop term location) := by
  have hstack := h.agree.stack location hl
  cases hget : u.memory.table.get? location with
  | none =>
    rw [hget] at hstack
    rw [State.pop_of_get?_eq_none hget, State.pop_of_get?_eq_none hstack.symm]
    exact .error rfl
  | some stack =>
    rw [hget] at hstack
    cases hpop : stack.pop? with
    | none =>
      rw [State.pop_of_get?_of_pop?_eq_none hget hpop,
        State.pop_of_get?_of_pop?_eq_none hstack.symm hpop]
      exact .error rfl
    | some popped =>
      obtain ⟨top, below⟩ := popped
      obtain rfl := Stack.eq_push_of_pop? hpop
      obtain ⟨htop, hbelow⟩ := List.forall_mem_cons.mp (h.closed.cells location _ hl hget)
      rw [State.pop_of_get? hget, State.pop_of_get? hstack.symm]
      refine (h.agree.resolveCell h.closed htop).with_ok.bind ?_
      rintro c _ ⟨rfl, hc, hc'⟩
      rw [Substitution.resolveCell_eq_ok_iff] at hc hc'
      refine (h.evaluateUnder hterm).with_ok.bind ?_
      rintro expected _ ⟨rfl, heval, heval'⟩
      have hmatch := (h.insert hl hbelow).matchCell (Term.cellEnds_of_evaluateUnder heval)
        (Term.cellEnds_of_evaluateUnder heval') hc.self hc'.self
        (h.closed.bindings.evaluateUnder hterm heval) (h.closed.bindings.cellEnds htop hc)
      exact hmatch.bind fun σ σ' hσ => .ok hσ

end Lockstep

/-! ## Programs in a region -/

/-- A program without scopes that keeps to the locations and names of a region. -/
structure Program.Inside (R : Region) (p : Program V) : Prop where
  bound : p.bound = []
  location : ∀ location ∈ p.locations, R.location location
  name : ∀ x, p.freeVars.contains x → R.name x.name

/-- The locations and the free variables of a program. -/
def Program.region (p : Program V) : Region :=
  ⟨fun location => location ∈ p.locations, fun x => p.freeVars.contains ⟨x, false⟩⟩

theorem Program.inside_region {p : Program V} (h : p.bound = []) : p.Inside p.region :=
  ⟨h, fun _ hl => hl, fun _ hx => hx⟩

theorem Program.Inside.of_append {R : Region} {p q r : Program V} (h : r.Inside R)
    (hbound : r.bound = p.bound ++ q.bound) (haccesses : r.accesses = p.accesses ++ q.accesses)
    (hfree : r.freeVars = p.freeVars.union q.freeVars) : p.Inside R ∧ q.Inside R := by
  obtain ⟨hp, hq⟩ := List.append_eq_nil_iff.mp (hbound.symm.trans h.bound)
  have hlocations : r.locations = p.locations ++ q.locations := by
    rw [locations, haccesses, List.map_append]
    rfl
  have hlocation := h.location
  rw [hlocations] at hlocation
  obtain ⟨hlp, hlq⟩ := List.forall_mem_append.mp hlocation
  have hname : ∀ x, p.freeVars.contains x ∨ q.freeVars.contains x → R.name x.name := by
    intro x hx
    refine h.name x ?_
    rw [hfree, VarSet.contains_union, Bool.or_eq_true]
    exact hx
  exact ⟨⟨hp, hlp, fun x hx => hname x (.inl hx)⟩, hq, hlq, fun x hx => hname x (.inr hx)⟩

namespace Machine

variable [DecidableEq V] [ToString V] (machine : Machine)

/-- From states that agree on a closed region, a program in the region goes the same ways. -/
theorem paths_lockstep {R : Region} {p : Program V} (hp : p.Inside R) (reserved : List Var)
    {t t' : State V} (h : t.AgreeOn R t') (ht : t.ClosedOn R) :
    Alike AnyFault (List.Forall₂ (Lockstep R t t')) (machine.paths reserved p t)
      (machine.paths reserved p t') := by
  let P : Unit → List Var → List Var → Program V → Program V → Prop := fun _ _ _ p p' =>
    p = p' ∧ p.Inside R
  refine machine.paths_alike (S := fun _ : Unit => Lockstep R t t') (P := P) ?_ (w := ()) ⟨rfl, hp⟩
    (.start h ht)
  rintro w r r' p _ ⟨rfl, hp⟩
  cases p with
  | skip => exact .skip
  | fail => exact .fail
  | seq p q =>
    obtain ⟨hp, hq⟩ := hp.of_append rfl rfl rfl
    exact .seq ⟨rfl, hp⟩ ⟨rfl, hq⟩
  | branch p q =>
    obtain ⟨hp, hq⟩ := hp.of_append rfl rfl rfl
    exact .branch ⟨rfl, hp⟩ ⟨rfl, hq⟩
  | iterate p => exact .iterate ⟨rfl, hp.bound, hp.location, hp.name⟩
  | push term location =>
    exact .push fun s s' hs => hs.push hp.name (hp.location _ (List.mem_singleton_self _))
  | pop term location =>
    exact .pop fun s s' hs => hs.pop hp.name (hp.location _ (List.mem_singleton_self _))
  | scope x p => exact absurd hp.bound (List.cons_ne_nil _ _)

end Machine

/-! ## Grids

The outcomes of two programs on separate regions form a grid: a row for each outcome of the first, a
column for each outcome of the second. One order of running lists it row by row, the other column by
column. -/

section Grids

variable {α β γ : Type} {P Q : α → β → γ → Prop} {ys : List β} {g : β → List γ}

/-- The first row of a grid can be taken out of its columns. -/
theorem flatMap_perm_of_row (hPQ : ∀ x y c c', P x y c → Q x y c' → c = c') {x : α} {row : List γ}
    (hrow : List.Forall₂ (P x) ys row) {xs : List α}
    (hg : ∀ y ∈ ys, List.Forall₂ (fun x c => Q x y c) (x :: xs) (g y)) :
    (ys.flatMap g).Perm (row ++ ys.flatMap fun y => (g y).tail) := by
  induction hrow with
  | nil => exact .refl _
  | @cons y c ys row hc _ ih =>
    obtain ⟨hcolumn, hcolumns⟩ := List.forall_mem_cons.mp hg
    rw [List.flatMap_cons, List.flatMap_cons]
    generalize g y = column at hcolumn
    cases hcolumn with
    | @cons _ c' _ below hc' _ =>
      obtain rfl : c = c' := hPQ x y c c' hc hc'
      rw [List.tail_cons, List.cons_append, List.cons_append]
      refine List.Perm.cons c (((ih hcolumns).append_left below).trans ?_)
      rw [← List.append_assoc, ← List.append_assoc]
      exact List.perm_append_comm.append_right _

/-- Row by row and column by column, a grid has the same entries. -/
theorem flatMap_perm_of_grid (hPQ : ∀ x y c c', P x y c → Q x y c' → c = c') {xs : List α}
    {f : α → List γ} (hf : ∀ x ∈ xs, List.Forall₂ (P x) ys (f x))
    (hg : ∀ y ∈ ys, List.Forall₂ (fun x c => Q x y c) xs (g y)) :
    (xs.flatMap f).Perm (ys.flatMap g) := by
  induction xs generalizing g with
  | nil =>
    have hempty : ys.flatMap g = [] := by
      refine List.flatMap_eq_nil_iff.mpr fun y hy => ?_
      exact List.forall₂_nil_left_iff.mp (hg y hy)
    rw [hempty, List.flatMap_nil]
  | cons x xs ih =>
    obtain ⟨hrow, hrows⟩ := List.forall_mem_cons.mp hf
    have htail : ∀ y ∈ ys, List.Forall₂ (fun x c => Q x y c) xs (g y).tail := by
      intro y hy
      have hcolumn := hg y hy
      generalize g y = column at hcolumn ⊢
      cases hcolumn with
      | cons _ hbelow => exact hbelow
    rw [List.flatMap_cons]
    exact ((ih hrows htail).append_left (f x)).trans (flatMap_perm_of_row hPQ hrow hg).symm

end Grids

/-! ## Separate programs commute -/

/-- Whether all cells of the stacks and all bindings are values. -/
def State.isConcrete (s : State V) : Bool :=
  (s.memory.table.entries.all fun entry => entry.2.cells.all fun c => !c.isRef) &&
    s.substitution.bindings.entries.all fun entry => !entry.2.cell.isRef

/-- Where nothing refers to a variable, every region is closed. -/
theorem State.closedOn_of_isConcrete {s : State V} (hs : s.isConcrete) (R : Region) :
    s.ClosedOn R := by
  have hvalue : ∀ c : Cell V, (!c.isRef) = true → c.Among R.name := by
    intro c hc
    cases c with
    | value v => exact Cell.among_value v
    | ref x => cases hc
  obtain ⟨hcells, hbindings⟩ := Bool.and_eq_true_iff.mp hs
  constructor
  · intro location stack _ hget c hc
    have hstack := List.all_eq_true.mp hcells _ (NameMap.mem_entries_iff.mpr hget)
    exact hvalue c (List.all_eq_true.mp hstack c hc)
  · intro x c _ hget
    obtain ⟨binding, hbinding, rfl⟩ := Option.map_eq_some_iff.mp hget
    exact hvalue _ (List.all_eq_true.mp hbindings _ (NameMap.mem_entries_iff.mpr hbinding))

namespace Machine

variable [DecidableEq V] [ToString V] {machine : Machine} {a b : Program V}

theorem exists_paths_of_seq {reserved : List Var} {s : State V} {all : List (State V)}
    (h : machine.paths reserved (.seq a b) s = .ok all) :
    ∃ middle, machine.paths reserved a s = .ok middle ∧
      (∀ u ∈ middle, ∃ outcomes, machine.paths reserved b u = .ok outcomes) ∧
      all = middle.flatMap fun u => outcomesOf (machine.paths reserved b u) := by
  rw [paths_seq] at h
  obtain ⟨middle, hmiddle, hall⟩ := bind_eq_ok_iff.mp h
  obtain ⟨hok, rfl⟩ := (gather_eq_ok_iff _ _ _).mp hall
  exact ⟨middle, hmiddle, hok, rfl⟩

/-- A program on one region goes the same ways after a program on another. -/
theorem forall₂_paths_after {R Q : Region} (hsep : Q.Separate R) (ha : a.Inside R) (hb : b.Inside Q)
    {reserved : List Var} {s : State V} (hR : s.ClosedOn R) (hQ : s.ClosedOn Q)
    {firsts seconds : List (State V)} (hfirsts : machine.paths reserved a s = .ok firsts)
    (hseconds : machine.paths reserved b s = .ok seconds) {u : State V} (hu : u ∈ firsts) :
    List.Forall₂ (Lockstep Q s u) seconds (outcomesOf (machine.paths reserved b u)) := by
  have hself := machine.paths_lockstep ha reserved (.refl R s) hR
  rw [hfirsts] at hself
  cases hself with
  | ok hself =>
    -- The first program has left the other region as it was.
    have hsame : s.AgreeOn Q u := ((List.forall₂_same.mp hself u hu).rest.of_separate hsep).symm
    have hpaths := machine.paths_lockstep hb reserved hsame hQ
    rw [hseconds] at hpaths
    obtain ⟨outcomes, houtcomes, hall⟩ := hpaths.exists_right
    rw [houtcomes]
    exact hall

/-- Two programs without scopes that share no location and no free variable can be run in either
order from a state that holds values only. -/
theorem run_seq_comm (machine : Machine) (hlimit : machine.config.timeLimit = none)
    {a b : Program V} (ha : a.bound = []) (hb : b.bound = [])
    (hlocations : ∀ location ∈ a.locations, location ∉ b.locations)
    (hnames : ∀ x, a.freeVars.contains x → ¬ b.freeVars.contains x) {s : State V}
    (hs : s.isConcrete) {r r' : Configuration V} (hr : machine.run (.seq a b) s = .ok r)
    (hr' : machine.run (.seq b a) s = .ok r') : r == r' := by
  have hsep : a.region.Separate b.region := ⟨hlocations, fun x => hnames ⟨x, false⟩⟩
  have hR := State.closedOn_of_isConcrete hs a.region
  have hQ := State.closedOn_of_isConcrete hs b.region
  have htracks := tracks_run hlimit (.seq a b) s
  have htracks' := tracks_run hlimit (.seq b a) s
  rw [hr] at htracks
  rw [hr'] at htracks'
  obtain ⟨all, hall, hrepresents⟩ := htracks.exists_list
  obtain ⟨all', hall', hrepresents'⟩ := htracks'.exists_list
  obtain ⟨firsts, hfirsts, _, rfl⟩ := exists_paths_of_seq hall
  obtain ⟨seconds, hseconds, _, rfl⟩ := exists_paths_of_seq hall'
  have hperm := flatMap_perm_of_grid (P := fun u w c => Lockstep b.region s u w c)
    (Q := fun u w c => Lockstep a.region s w u c)
    (fun u w c c' hc hc' => State.eq_of_separate hsep hc'.rest hc.rest hc.agree.symm hc.rest'
      hc'.agree.symm hc'.rest')
    (fun u hu => forall₂_paths_after hsep.symm (Program.inside_region ha) (Program.inside_region hb)
      hR hQ hfirsts hseconds hu)
    (fun w hw => forall₂_paths_after hsep (Program.inside_region hb) (Program.inside_region ha)
      hQ hR hseconds hfirsts hw)
  refine (Bag.beq_iff_count_eq r r').mpr fun t => ?_
  rw [hrepresents t, hrepresents' t, SameCounts.of_perm hperm t]

end Machine

/-- Takes any number of equal values from the stack at `k`. -/
def takeEqual : Program String := .iterate (.popVar "x" "k")

/-- Puts a value on the stack at `l`, in two ways, or takes one off and leaves a variable there. -/
def putOrTake : Program String :=
  .branch (.branch (.push (.constant "v") "l") (.push (.constant "v") "l"))
    (.seq (.popVar "y" "l") (.pushVar "z" "l"))

/-- Two equal values at `k`, to which the variable `x` is bound, and another value at `l`. -/
def twoStacks : State String :=
  ⟨⟨.ofList [("k", .ofList [.value "v", .value "v"]), ("l", .ofList [.value "w"])]⟩,
    .ofList [(⟨"x", false⟩, .value "v")]⟩

/-- Three states at `k`, and two at `l` one of which counts twice, make six states that count nine
times. -/
theorem Machine.run_seq_comm_twoStacks :
    takeEqual.bound = [] ∧ putOrTake.bound = [] ∧ twoStacks.isConcrete ∧
      ∃ r r', run {} (.seq takeEqual putOrTake) twoStacks = .ok r ∧
        run {} (.seq putOrTake takeEqual) twoStacks = .ok r' ∧ r.size = 6 ∧ r.total = 9 ∧ r == r' := by
  have hlocations : ∀ location ∈ takeEqual.locations, location ∉ putOrTake.locations := by decide
  have hnames : ∀ x, takeEqual.freeVars.contains x → ¬ putOrTake.freeVars.contains x := by
    intro x hx
    have hname : x.name = "x" := Var.beq_iff.mp ((VarSet.contains_singleton _ _).symm.trans hx)
    show ¬ putOrTake.freeVars.flags.contains x.name
    rw [hname]
    decide
  have hconcrete : twoStacks.isConcrete := by decide
  have hfirst : (run {} (.seq takeEqual putOrTake) twoStacks).toOption.any fun r =>
      r.size == 6 && r.total == 9 := by decide +kernel
  have hsecond : (run {} (.seq putOrTake takeEqual) twoStacks).isOk := by decide +kernel
  obtain ⟨r, hr, hcount⟩ := exists_ok_of_any hfirst
  obtain ⟨r', hr'⟩ := exists_ok_of_isOk hsecond
  obtain ⟨hsize, htotal⟩ := Bool.and_eq_true_iff.mp hcount
  exact ⟨rfl, rfl, hconcrete, r, r', hr, hr', beq_iff_eq.mp hsize, beq_iff_eq.mp htotal,
    run_seq_comm {} rfl rfl rfl hlocations hnames hconcrete hr hr'⟩

end StackCalculus
