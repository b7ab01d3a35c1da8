import Mathlib
import StackCalculus.Proofs.Matching
import StackCalculus.Proofs.Memory

/-!
# Rearranging a stack

A program that pops values into variables and then pushes variables again rearranges the top of a
stack: it permutes values, drops them and makes copies. A variable is bound by the first pop into it,
and every later pop into it compares. The pops therefore succeed exactly when equal variables meet
equal values (`Machine.exec_pops`), and the whole program has one outcome or none
(`Machine.run_rearrange`).
-/

namespace StackCalculus

variable {V : Type}

/-! ## Variables and the values that they meet -/

/-- Equal variables stand with equal values. -/
def Agree (pairs : List (Var × V)) : Prop := ∀ p ∈ pairs, ∀ q ∈ pairs, p.1 == q.1 → p.2 = q.2

instance [DecidableEq V] (pairs : List (Var × V)) : Decidable (Agree pairs) :=
  inferInstanceAs (Decidable (∀ p ∈ pairs, ∀ q ∈ pairs, p.1 == q.1 → p.2 = q.2))

theorem lookup_congr {x y : Var} (h : x == y) (pairs : List (Var × V)) :
    pairs.lookup x = pairs.lookup y := by
  induction pairs with
  | nil => rfl
  | cons p rest ih => rw [List.lookup_cons, List.lookup_cons, BEq.congr_left h, ih]

theorem exists_lookup {x : Var} {pairs : List (Var × V)} (h : ∃ p ∈ pairs, x == p.1) :
    ∃ q ∈ pairs, x == q.1 ∧ pairs.lookup x = some q.2 := by
  induction pairs with
  | nil => simp at h
  | cons p rest ih =>
    rw [List.lookup_cons]
    cases hx : x == p.1 with
    | true => exact ⟨p, List.mem_cons_self, hx, rfl⟩
    | false =>
      simp only [List.mem_cons, exists_eq_or_imp, hx, Bool.false_eq_true, false_or] at h
      obtain ⟨q, hq, hlookup⟩ := ih h
      exact ⟨q, List.mem_cons_of_mem _ hq, hlookup⟩

/-- Pairs agree if each of them is met by looking up its variable, which finds the first one. -/
theorem agree_iff_lookup {pairs : List (Var × V)} :
    Agree pairs ↔ ∀ p ∈ pairs, pairs.lookup p.1 = some p.2 := by
  constructor
  · intro h p hp
    obtain ⟨q, hq, hpq, hlookup⟩ := exists_lookup ⟨p, hp, BEq.refl p.1⟩
    rw [hlookup, h p hp q hq hpq]
  · intro h p hp q hq hpq
    have hsame := lookup_congr hpq pairs
    rw [h p hp, h q hq] at hsame
    exact Option.some.inj hsame

namespace Substitution

/-- What a variable is bound to when values have been popped into variables: what it was bound to, or
the value that it met first. -/
def afterTaking (s : Substitution V) (pairs : List (Var × V)) (z : Var) : Option (Cell V) :=
  (s.get? z).or ((pairs.lookup z).map .value)

/-- `s'` is `s` with the variables bound that were not. -/
def TakenTo (s : Substitution V) (pairs : List (Var × V)) (s' : Substitution V) : Prop :=
  ∀ z, s'.get? z = s.afterTaking pairs z

/-- Each variable has each value that it meets. -/
def CanTake (s : Substitution V) (pairs : List (Var × V)) : Prop :=
  ∀ p ∈ pairs, s.afterTaking pairs p.1 = some (.value p.2)

variable {s s' s'' : Substitution V} {x : Var} {v : V} {pairs rest : List (Var × V)}

theorem afterTaking_cons_self : s.afterTaking ((x, v) :: rest) x = (s.get? x).or (some (.value v)) := by
  simp [afterTaking]

theorem afterTaking_singleton (z : Var) :
    s.afterTaking [(x, v)] z = if z == x then (s.get? x).or (some (.value v)) else s.get? z := by
  unfold afterTaking
  rw [List.lookup_cons]
  cases hzx : z == x with
  | true => simp [s.get?_congr hzx]
  | false => simp

theorem canTake_singleton : s.CanTake [(x, v)] ↔ (s.get? x).or (some (.value v)) = some (.value v) := by
  simp [CanTake, afterTaking_cons_self]

/-- An unbound variable takes a value as its binding. -/
theorem takenTo_set (hx : s.get? x = none) : s.TakenTo [(x, v)] (s.set x (.value v)) := by
  intro z
  rw [get?_set, afterTaking_singleton, hx, Option.none_or]

/-- A variable that has the value is left alone. -/
theorem takenTo_self (hx : s.get? x = some (.value v)) : s.TakenTo [(x, v)] s := by
  intro z
  rw [afterTaking_singleton, hx]
  split
  · next hzx => rw [s.get?_congr hzx, hx, Option.some_or]
  · rfl

/-- The first value is taken before the others. -/
theorem TakenTo.afterTaking_eq (h : s.TakenTo [(x, v)] s') (z : Var) :
    s'.afterTaking rest z = s.afterTaking ((x, v) :: rest) z := by
  rw [afterTaking, h z, afterTaking, afterTaking, Option.or_assoc]
  simp only [List.lookup_cons, List.lookup_nil]
  cases z == x <;> simp

theorem TakenTo.cons (h : s.TakenTo [(x, v)] s') (h' : s'.TakenTo rest s'') :
    s.TakenTo ((x, v) :: rest) s'' := fun z => (h' z).trans (h.afterTaking_eq z)

theorem TakenTo.canTake_cons (h : s.TakenTo [(x, v)] s') (hfirst : s.CanTake [(x, v)]) :
    s.CanTake ((x, v) :: rest) ↔ s'.CanTake rest := by
  unfold CanTake
  rw [List.forall_mem_cons, afterTaking_cons_self]
  simp only [h.afterTaking_eq, canTake_singleton.mp hfirst, true_and]

theorem CanTake.singleton (h : s.CanTake ((x, v) :: rest)) : s.CanTake [(x, v)] := by
  have hfirst := h (x, v) List.mem_cons_self
  rw [afterTaking_cons_self] at hfirst
  exact canTake_singleton.mpr hfirst

theorem TakenTo.get?_ne_ref (h : s.TakenTo pairs s') {y z : Var} (hz : s.get? z ≠ some (.ref y)) :
    s'.get? z ≠ some (.ref y) := by
  rw [h z, afterTaking]
  cases hget : s.get? z with
  | some c => rwa [Option.some_or, ← hget]
  | none => simp

/-- A variable that met a value has it. -/
theorem TakenTo.get?_of_mem (h : s.TakenTo pairs s') (hcan : s.CanTake pairs) {p : Var × V}
    (hp : p ∈ pairs) {y : Var} (hy : y == p.1) : s'.get? y = some (.value p.2) := by
  rw [s'.get?_congr hy, h p.1]
  exact hcan p hp

/-- A variable that met no value is bound as before. -/
theorem TakenTo.get?_of_forall_not (h : s.TakenTo pairs s') {z : Var} (hz : ∀ p ∈ pairs, ¬ z == p.1) :
    s'.get? z = s.get? z := by
  have hnone : pairs.lookup z = none := by
    refine List.lookup_eq_none_iff.mpr fun p hp => ?_
    rw [bne, Bool.eq_false_iff.mpr (hz p hp), Bool.not_false]
  rw [h z, afterTaking, hnone, Option.map_none, Option.or_none]

/-- Unbound variables can take values that agree. -/
theorem canTake_iff_agree (h : ∀ p ∈ pairs, s.get? p.1 = none) : s.CanTake pairs ↔ Agree pairs := by
  rw [agree_iff_lookup]
  refine forall₂_congr fun p hp => ?_
  rw [afterTaking, h p hp, Option.none_or]
  simp

end Substitution

/-! ## Pops and pushes -/

/-- Pops into variables, one after the other. -/
def Program.pops (location : String) (xs : List Var) : List (Program V) :=
  xs.map fun x => .pop (.var x) location

/-- Pushes of variables, one after the other. -/
def Program.pushes (location : String) (ys : List Var) : List (Program V) :=
  ys.map fun y => .push (.var y) location

namespace Machine

variable [DecidableEq V] [ToString V] (machine : Machine) (reserved : List Var)

/-- A pop of a value into a variable that is unbound or bound to a value: the variable has the value
afterwards, or the pop has no outcome. -/
theorem exec_pop_value {s : State V} {location : String} {x : Var} {v : V} {rest : Stack V}
    (hstack : s.memory.table.get? location = some (rest.push (.value v)))
    (hx : ∀ y, s.substitution.get? x ≠ some (.ref y)) :
    (s.substitution.CanTake [(x, v)] → ∃ σ, s.substitution.TakenTo [(x, v)] σ ∧
      (machine.exec reserved (.pop (.var x) location) (.singleton s) : Except Fault _) =
        .ok (.singleton ⟨⟨s.memory.table.insert location rest⟩, σ⟩)) ∧
    (¬ s.substitution.CanTake [(x, v)] →
      (machine.exec reserved (.pop (.var x) location) (.singleton s) : Except Fault _) =
        .ok .empty) := by
  have hvalue : s.substitution.CellEnds (.value v) (.value v) := rfl
  rw [exec_pop, forEach_singleton, settle_eq, Substitution.canTake_singleton]
  cases hget : s.substitution.get? x with
  | none =>
    have hterm : (Term.var x).evaluateUnder s.substitution = .ok (.ref x) :=
      (s.substitution.resolve_eq_ok_iff x _).mpr (.unbound hget)
    have hmeets : s.substitution.Meets (.ref x) (.value v) := ⟨hget, rfl⟩
    rw [State.pop_eq_matchCell hstack hvalue hterm, Substitution.matchCell_of_meets hvalue hmeets]
    exact ⟨fun _ => ⟨_, Substitution.takenTo_set hget, rfl⟩, fun hnone => absurd rfl hnone⟩
  | some c =>
    cases c with
    | ref y => exact absurd hget (hx y)
    | value w =>
      have hterm : (Term.var x).evaluateUnder s.substitution = .ok (.value w) :=
        (s.substitution.resolve_eq_ok_iff x _).mpr (.value hget)
      rw [State.pop_eq_matchCell hstack hvalue hterm]
      by_cases hmeets : s.substitution.Meets (.value w) (.value v)
      · obtain rfl : v = w := Cell.value.inj hmeets
        rw [Substitution.matchCell_of_meets hvalue hmeets]
        exact ⟨fun _ => ⟨_, Substitution.takenTo_self hget, rfl⟩, fun hnone => absurd rfl hnone⟩
      · have hexpected : s.substitution.CellEnds (.value w) (.value w) := rfl
        obtain ⟨e, he, hbranch⟩ := Substitution.matchCell_of_not_meets hexpected hvalue hmeets
        rw [he]
        exact ⟨fun h => absurd (Option.some.inj h).symm hmeets, fun _ => if_pos hbranch⟩

/-- A pop of a value, and the programs after it: they start with the value taken, or not at all. -/
theorem exec_pop_value_cons {s : State V} {location : String} {x : Var} {v : V} {rest : Stack V}
    (hstack : s.memory.table.get? location = some (rest.push (.value v)))
    (hx : ∀ y, s.substitution.get? x ≠ some (.ref y)) (ps : List (Program V)) :
    (s.substitution.CanTake [(x, v)] → ∃ σ, s.substitution.TakenTo [(x, v)] σ ∧
      (machine.exec reserved (.sequence (.pop (.var x) location :: ps)) (.singleton s) :
          Except Fault _) =
        machine.exec reserved (.sequence ps)
          (.singleton ⟨⟨s.memory.table.insert location rest⟩, σ⟩)) ∧
    (¬ s.substitution.CanTake [(x, v)] →
      (machine.exec reserved (.sequence (.pop (.var x) location :: ps)) (.singleton s) :
          Except Fault _) =
        .ok .empty) := by
  obtain ⟨htake, hfail⟩ := machine.exec_pop_value reserved hstack hx
  rw [exec_sequence_cons]
  refine ⟨fun hcan => ?_, fun hcan => ?_⟩
  · obtain ⟨σ, htaken, hexec⟩ := htake hcan
    refine ⟨σ, htaken, ?_⟩
    rw [hexec]
    rfl
  · rw [hfail hcan]
    exact machine.exec_empty reserved _

/-- A run of pops. Values lie on a stack in the order of the variables, the first one on top; below
them are other cells. The pops take exactly these values off, or they have no outcome. -/
theorem exec_pops {s : State V} {location : String} {base : List (Cell V)} {pairs : List (Var × V)}
    (hstack : s.memory.table.get? location =
      some (.ofList (base ++ (pairs.map Prod.snd).reverse.map .value)))
    (hdirect : ∀ p ∈ pairs, ∀ y, s.substitution.get? p.1 ≠ some (.ref y)) :
    (s.substitution.CanTake pairs → ∃ σ, s.substitution.TakenTo pairs σ ∧
      (machine.exec reserved (.sequence (Program.pops location (pairs.map Prod.fst))) (.singleton s) :
          Except Fault _) =
        .ok (.singleton ⟨⟨s.memory.table.insert location (.ofList base)⟩, σ⟩)) ∧
    (¬ s.substitution.CanTake pairs →
      (machine.exec reserved (.sequence (Program.pops location (pairs.map Prod.fst))) (.singleton s) :
          Except Fault _) =
        .ok .empty) := by
  induction pairs generalizing s with
  | nil =>
    have hnil : s.substitution.CanTake ([] : List (Var × V)) := List.forall_mem_nil _
    rw [List.map_nil, List.reverse_nil, List.map_nil, List.append_nil] at hstack
    refine ⟨fun _ => ⟨s.substitution, fun z => ?_, ?_⟩, fun h => absurd hnil h⟩
    · simp [Substitution.afterTaking]
    · rw [NameMap.insert_of_get? hstack]
      exact machine.exec_skip reserved (.singleton s)
  | cons p rest ih =>
    obtain ⟨x, v⟩ := p
    rw [List.map_cons, List.reverse_cons, List.map_append, List.map_singleton, ← List.append_assoc,
      Stack.ofList_concat] at hstack
    obtain ⟨hhead, htail⟩ := List.forall_mem_cons.mp hdirect
    obtain ⟨htake, hfail⟩ := machine.exec_pop_value_cons reserved hstack hhead
      (Program.pops location (rest.map Prod.fst))
    rw [List.map_cons, Program.pops, List.map_cons]
    by_cases hfirst : s.substitution.CanTake [(x, v)]
    · -- What the first pop binds is there when the others compare.
      obtain ⟨σ, htaken, hexec⟩ := htake hfirst
      have hnext := ih (s := ⟨⟨s.memory.table.insert location _⟩, σ⟩) (NameMap.get?_insert_self ..)
        fun p hp y => htaken.get?_ne_ref (htail p hp y)
      rw [NameMap.insert_insert] at hnext
      rw [htaken.canTake_cons hfirst]
      refine ⟨fun hcan => ?_, fun hcan => hexec.trans (hnext.2 hcan)⟩
      obtain ⟨σ', htaken', hexec'⟩ := hnext.1 hcan
      exact ⟨σ', htaken.cons htaken', hexec.trans hexec'⟩
    · exact ⟨fun hcan => absurd hcan.singleton hfirst, fun _ => hfail hfirst⟩

/-- More pops than values have no outcome: one of the pops finds another value than it compares with,
or the stack is empty at last. -/
theorem exec_pops_underflow {s : State V} {location : String} {vs : List V} {xs : List Var}
    (hstack : s.memory.table.get? location = some (.ofList (vs.map .value)))
    (hdirect : ∀ x ∈ xs, ∀ y, s.substitution.get? x ≠ some (.ref y)) (hshort : vs.length < xs.length) :
    (machine.exec reserved (.sequence (Program.pops location xs)) (.singleton s) : Except Fault _) =
      .ok .empty := by
  induction xs generalizing s vs with
  | nil => exact absurd hshort (Nat.not_lt_zero _)
  | cons x xs ih =>
    obtain ⟨hhead, htail⟩ := List.forall_mem_cons.mp hdirect
    -- The top of the stack is the last of the values.
    rcases List.eq_nil_or_concat vs with rfl | ⟨vs, v, rfl⟩
    · rw [Program.pops, List.map_cons, exec_sequence_cons, exec_pop, forEach_singleton,
        State.pop_of_get?_of_pop?_eq_none hstack rfl, settle_eq]
      exact machine.exec_empty reserved _
    · rw [List.map_concat, List.concat_eq_append, Stack.ofList_concat] at hstack
      obtain ⟨htake, hfail⟩ := machine.exec_pop_value_cons reserved hstack hhead
        (Program.pops location xs)
      by_cases hcan : s.substitution.CanTake [(x, v)]
      · obtain ⟨σ, htaken, hexec⟩ := htake hcan
        refine hexec.trans (ih (NameMap.get?_insert_self ..) ?_ ?_)
        · exact fun z hz y => htaken.get?_ne_ref (htail z hz y)
        · simpa using hshort
      · exact hfail hcan

/-- A run of pushes of variables with values puts these values on the stack. -/
theorem exec_pushes {s : State V} {location : String} {base : List (Cell V)} {ys : List Var}
    {ws : List V} (hstack : s.memory.table.get? location = some (.ofList base))
    (hys : List.Forall₂ (fun y w => s.substitution.get? y = some (.value w)) ys ws) :
    (machine.exec reserved (.sequence (Program.pushes location ys)) (.singleton s) : Except Fault _) =
      .ok (.singleton
        ⟨⟨s.memory.table.insert location (.ofList (base ++ ws.map .value))⟩, s.substitution⟩) := by
  induction ys generalizing s base ws with
  | nil =>
    cases hys
    rw [List.map_nil, List.append_nil, NameMap.insert_of_get? hstack]
    exact machine.exec_skip reserved (.singleton s)
  | cons y ys ih =>
    cases hys with
    | @cons _ w _ ws hy hys =>
      have hterm : (Term.var y).evaluateUnder s.substitution = .ok (.value w) :=
        (s.substitution.resolve_eq_ok_iff y _).mpr (.value hy)
      let pushed : Stack V := .ofList (base ++ [.value w])
      have hnext := ih (s := ⟨⟨s.memory.table.insert location pushed⟩, s.substitution⟩)
        (NameMap.get?_insert_self ..) hys
      rw [NameMap.insert_insert, ← List.append_cons] at hnext
      rw [Program.pushes, List.map_cons, exec_sequence_cons, exec_push, forEach_singleton,
        State.push_of_get? hterm hstack, settle_eq, ← Stack.ofList_concat]
      exact hnext

end Machine

/-! ## Rearrangements -/

/-- The program that pops into variables and then pushes variables, all at one location. -/
def Program.rearrange (location : String) (xs ys : List Var) : Program V :=
  .sequence (Program.pops location xs ++ Program.pushes location ys)

/-- What a rearrangement makes of a state, where `pairs` are the variables with the values that they
meet: the values of `ys` stand on what was below, each variable has its value, and nothing else has
changed. -/
structure State.Rearranged (s : State V) (location : String) (base : List (Cell V))
    (pairs : List (Var × V)) (ys : List Var) (t : State V) : Prop where
  here : ∃ ws, List.Forall₂ (fun y w => ∃ p ∈ pairs, y == p.1 ∧ p.2 = w) ys ws ∧
    t.memory.stackAt location = .ok (.ofList (base ++ ws.map .value))
  elsewhere : ∀ other, other ≠ location → t.memory.stackAt other = s.memory.stackAt other
  met : ∀ p ∈ pairs, t.substitution.get? p.1 = some (.value p.2)
  others : ∀ z, (∀ p ∈ pairs, ¬ z == p.1) → t.substitution.get? z = s.substitution.get? z

theorem State.rearranged_insert {s : State V} {location : String} {base : List (Cell V)}
    {pairs : List (Var × V)} {ys : List Var} {ws : List V} {σ : Substitution V}
    (htaken : s.substitution.TakenTo pairs σ) (hcan : s.substitution.CanTake pairs)
    (hws : List.Forall₂ (fun y w => ∃ p ∈ pairs, y == p.1 ∧ p.2 = w) ys ws) :
    s.Rearranged location base pairs ys
      ⟨⟨s.memory.table.insert location (.ofList (base ++ ws.map .value))⟩, σ⟩ where
  here := ⟨ws, hws, by rw [Memory.stackAt, NameMap.get?_insert_self]⟩
  elsewhere other hne := by rw [Memory.stackAt, Memory.stackAt, NameMap.get?_insert_of_ne _ hne]
  met p hp := htaken.get?_of_mem hcan hp (BEq.refl p.1)
  others z hz := htaken.get?_of_forall_not hz

namespace Machine

variable [DecidableEq V] [ToString V]

/-- After the pops, pushes of variables that met a value finish the rearrangement. -/
theorem exists_exec_pushes (machine : Machine) (reserved : List Var) {s : State V} {location : String}
    {base : List (Cell V)} {pairs : List (Var × V)} {ys : List Var} {σ : Substitution V}
    (htaken : s.substitution.TakenTo pairs σ) (hcan : s.substitution.CanTake pairs)
    (hys : ∀ y ∈ ys, ∃ p ∈ pairs, y == p.1) :
    ∃ t, (machine.exec reserved (.sequence (Program.pushes location ys))
        (.singleton ⟨⟨s.memory.table.insert location (.ofList base)⟩, σ⟩) : Except Fault _) =
        .ok (.singleton t) ∧
      s.Rearranged location base pairs ys t := by
  have hmet : ∀ y ∈ ys, ∃ w, ∃ p ∈ pairs, y == p.1 ∧ p.2 = w := by
    intro y hy
    obtain ⟨p, hp, hyp⟩ := hys y hy
    exact ⟨p.2, p, hp, hyp, rfl⟩
  obtain ⟨ws, hws⟩ := exists_forall₂ hmet
  have hvalues : List.Forall₂ (fun y w => σ.get? y = some (.value w)) ys ws := by
    refine hws.imp fun y w hyw => ?_
    obtain ⟨p, hp, hy, rfl⟩ := hyw
    exact htaken.get?_of_mem hcan hp hy
  have hpush := machine.exec_pushes reserved
    (s := ⟨⟨s.memory.table.insert location (.ofList base)⟩, σ⟩) (NameMap.get?_insert_self ..) hvalues
  rw [NameMap.insert_insert] at hpush
  exact ⟨_, hpush, State.rearranged_insert htaken hcan hws⟩

/-- A rearrangement of the top of a stack. If equal variables meet equal values, there is one outcome,
rearranged; otherwise there is none. On a stack with too few values there is none either. -/
theorem run_rearrange (machine : Machine) (s : State V) (location : String) (xs ys : List Var)
    (hxs : ∀ x ∈ xs, s.substitution.contains x = false) (hys : ∀ y ∈ ys, xs.contains y) :
    (∀ (base : List (Cell V)) (vs : List V), vs.length = xs.length →
      s.memory.stackAt location = .ok (.ofList (base ++ vs.reverse.map .value)) →
        (Agree (xs.zip vs) → ∃ t, machine.run (.rearrange location xs ys) s = .ok (.singleton t) ∧
          s.Rearranged location base (xs.zip vs) ys t) ∧
        (¬ Agree (xs.zip vs) → machine.run (.rearrange location xs ys) s = .ok .empty)) ∧
    (∀ vs : List V, vs.length < xs.length →
      s.memory.stackAt location = .ok (.ofList (vs.map .value)) →
        machine.run (.rearrange location xs ys) s = .ok .empty) := by
  have hget : ∀ x ∈ xs, s.substitution.get? x = none := fun x hx =>
    Substitution.contains_eq_false_iff.mp (hxs x hx)
  rw [run_eq_step, step, Program.rearrange, exec_sequence_append]
  refine ⟨fun base vs hlength hstack => ?_, fun vs hshort hstack => ?_⟩
  · have hfst : (xs.zip vs).map Prod.fst = xs := List.map_fst_zip hlength.ge
    have hsnd : (xs.zip vs).map Prod.snd = vs := List.map_snd_zip hlength.le
    have hunbound : ∀ p ∈ xs.zip vs, s.substitution.get? p.1 = none := fun p hp =>
      hget p.1 (List.of_mem_zip hp).1
    rw [← hsnd, Memory.stackAt_eq_ok_iff] at hstack
    obtain ⟨htake, hfail⟩ := machine.exec_pops [] hstack fun p hp y => by simp [hunbound p hp]
    rw [hfst] at htake hfail
    rw [← Substitution.canTake_iff_agree hunbound]
    refine ⟨fun hcan => ?_, fun hcan => ?_⟩
    · obtain ⟨σ, htaken, hexec⟩ := htake hcan
      have hmet : ∀ y ∈ ys, ∃ p ∈ xs.zip vs, y == p.1 := by
        intro y hy
        obtain ⟨x, hx, hyx⟩ := List.contains_iff_exists_mem_beq.mp (hys y hy)
        rw [← hfst] at hx
        obtain ⟨p, hp, rfl⟩ := List.mem_map.mp hx
        exact ⟨p, hp, hyx⟩
      obtain ⟨t, hpush, hrearranged⟩ := machine.exists_exec_pushes [] htaken hcan hmet
      refine ⟨t, ?_, hrearranged⟩
      rw [hexec]
      exact hpush
    · rw [hfail hcan]
      exact machine.exec_empty [] _
  · rw [Memory.stackAt_eq_ok_iff] at hstack
    rw [machine.exec_pops_underflow [] hstack (fun x hx y => by simp [hget x hx]) hshort]
    exact machine.exec_empty [] _

/-- Two equal values around another one, on a reference; at another location one value. -/
def valuesOnRef : State String :=
  ⟨⟨.ofList [("l", .ofList [.ref ⟨"b", false⟩, .value "c", .value "d", .value "c"]),
      ("m", .ofList [.value "e"])]⟩, .ofList [(⟨"b", false⟩, .value "e")]⟩

/-- Pops into `x`, `y` and `x` meet equal values at `x`; pops into `x` and `x` do not; and pops into `x`
and `y` at `m` find one value only. -/
theorem run_rearrange_valuesOnRef :
    (∃ t, run {} (.rearrange "l" [⟨"x", false⟩, ⟨"y", false⟩, ⟨"x", true⟩]
        [⟨"y", false⟩, ⟨"x", false⟩, ⟨"x", false⟩]) valuesOnRef = .ok (.singleton t) ∧
      valuesOnRef.Rearranged "l" [.ref ⟨"b", false⟩]
        [(⟨"x", false⟩, "c"), (⟨"y", false⟩, "d"), (⟨"x", true⟩, "c")]
        [⟨"y", false⟩, ⟨"x", false⟩, ⟨"x", false⟩] t) ∧
      run {} (.rearrange "l" [⟨"x", false⟩, ⟨"x", true⟩] [⟨"x", false⟩]) valuesOnRef = .ok .empty ∧
      run {} (.rearrange "m" [⟨"x", false⟩, ⟨"y", false⟩] [⟨"y", false⟩]) valuesOnRef = .ok .empty := by
  refine ⟨?_, ?_, ?_⟩
  · have h := (run_rearrange {} valuesOnRef "l" [⟨"x", false⟩, ⟨"y", false⟩, ⟨"x", true⟩]
      [⟨"y", false⟩, ⟨"x", false⟩, ⟨"x", false⟩] (by decide +kernel) (by decide +kernel)).1
    exact (h [.ref ⟨"b", false⟩] ["c", "d", "c"] rfl (by cbv)).1 (by decide +kernel)
  · have h := (run_rearrange {} valuesOnRef "l" [⟨"x", false⟩, ⟨"x", true⟩] [⟨"x", false⟩]
      (by decide +kernel) (by decide +kernel)).1
    exact (h [.ref ⟨"b", false⟩, .value "c"] ["c", "d"] rfl (by cbv)).2 (by decide +kernel)
  · have h := (run_rearrange {} valuesOnRef "m" [⟨"x", false⟩, ⟨"y", false⟩] [⟨"y", false⟩]
      (by decide +kernel) (by decide +kernel)).2
    exact h ["e"] (by decide) (by cbv)

end Machine

end StackCalculus
