import Mathlib
import StackCalculus.Proofs.Branching
import StackCalculus.Proofs.Iteration.Rounds
import StackCalculus.Proofs.Rearranging
import StackCalculus.Proofs.Renaming.State

/-!
# Iterated pops

A loop that pops values into one variable binds it in the first round and compares in the others. It
takes the run of equal values at the top of the stack, one value in each round, and stops one round
later: at another value or at the bottom of the stack. The number of its rounds is therefore exact
(`Machine.fixpoint_pop`). What is counted are the states of a `Trail`: a loop with one state in each
round, all of them different.
-/

namespace StackCalculus

variable {V : Type}

/-! ## Runs of equal values -/

theorem le_length_takeWhile_iff {p : V → Bool} {vs : List V} {i : Nat} (h : i ≤ vs.length) :
    i ≤ (vs.takeWhile p).length ↔ ∀ v ∈ vs.take i, p v := by
  rw [← List.takeWhile_eq_self_iff, ← List.take_takeWhile]
  constructor
  · intro hle
    rw [List.prefix_iff_eq_take.mp (List.takeWhile_prefix p), List.take_take, Nat.min_eq_left hle]
  · intro heq
    have hlength := congrArg List.length heq
    rw [List.length_take, List.length_take] at hlength
    omega

variable [DecidableEq V]

/-- The length of the longest run of equal values at the front of a list. -/
def frontRun : List V → Nat
  | [] => 0
  | v :: vs => (vs.takeWhile (· = v)).length + 1

theorem frontRun_le_length (vs : List V) : frontRun vs ≤ vs.length := by
  cases vs with
  | nil => exact Nat.le_refl 0
  | cons v vs => exact Nat.succ_le_succ (List.takeWhile_sublist _).length_le

theorem le_frontRun_iff {vs : List V} {i : Nat} (h : i ≤ vs.length) :
    i ≤ frontRun vs ↔ ∀ v ∈ vs.take i, ∀ w ∈ vs.take i, v = w := by
  cases vs with
  | nil =>
    obtain rfl := Nat.le_zero.mp h
    simp
  | cons v vs =>
    cases i with
    | zero => simp
    | succ i =>
      rw [frontRun, Nat.add_le_add_iff_right, le_length_takeWhile_iff (Nat.le_of_succ_le_succ h),
        List.take_succ_cons]
      simp only [decide_eq_true_eq]
      constructor
      · intro hall a ha b hb
        have heq : ∀ c ∈ v :: vs.take i, c = v := List.forall_mem_cons.mpr ⟨rfl, hall⟩
        rw [heq a ha, heq b hb]
      · exact fun hall w hw => hall w (List.mem_cons_of_mem _ hw) v List.mem_cons_self

/-! ## Loops with one state in each round -/

theorem count_le_one_of_pairwise {α : Type} [BEq α] [EquivBEq α] {xs : List α}
    (h : xs.Pairwise fun a b => ¬ a == b) (u : α) : xs.count u ≤ 1 := by
  induction h with
  | nil => exact Nat.zero_le 1
  | @cons a xs hhead _ ih =>
    rw [List.count_cons]
    split
    · rename_i hau
      have hzero : xs.count u = 0 := by
        refine List.countP_eq_zero.mpr fun b hb hbu => hhead b hb ?_
        exact BEq.trans hau (BEq.symm hbu)
      rw [hzero]
    · exact ih

/-- A loop has one state after each of its rounds up to the `k`-th, no two of them equal, and none
after the next round. -/
structure Trail (body : Configuration V → Except Fault (Configuration V)) (start : Configuration V)
    (k : Nat) (t : Nat → State V) : Prop where
  round : ∀ i ≤ k, afterRounds body start i = .ok (.singleton (t i))
  apart : ∀ i ≤ k, ∀ j ≤ k, t i == t j → i = j
  last : afterRounds body start (k + 1) = .ok .empty

namespace Trail

variable {body : Configuration V → Except Fault (Configuration V)} {start : Configuration V} {k : Nat}
  {t : Nat → State V} (h : Trail body start k t)

include h

theorem reachedBy_eq {j : Nat} (hj : j ≤ k) (u : State V) :
    reachedBy body start j u = ((List.range (j + 1)).map t).count u := by
  induction j with
  | zero =>
    rw [reachedBy, Finset.sum_range_one, countAfter_of_ok (h.round 0 hj), represents_singleton]
    rfl
  | succ j ih =>
    rw [reachedBy_succ, ih (Nat.le_of_succ_le hj), countAfter_of_ok (h.round _ hj),
      represents_singleton, List.range_succ (n := j + 1), List.map_append, List.count_append]
    rfl

theorem count_le_one {j : Nat} (hj : j ≤ k) (u : State V) :
    ((List.range (j + 1)).map t).count u ≤ 1 := by
  refine count_le_one_of_pairwise (List.pairwise_map.mpr ?_) u
  refine List.pairwise_lt_range.imp_of_mem fun {a b} ha hb hlt hab => ?_
  have hle : ∀ i ∈ List.range (j + 1), i ≤ k := fun i hi => by
    rw [List.mem_range] at hi
    omega
  exact absurd (h.apart a (hle a ha) b (hle b hb) hab) (Nat.ne_of_lt hlt)

theorem reachedBy_le_one {j : Nat} (hj : j ≤ k) (u : State V) : reachedBy body start j u ≤ 1 := by
  rw [h.reachedBy_eq hj]
  exact h.count_le_one hj u

theorem reachedBy_last (u : State V) : reachedBy body start (k + 1) u = reachedBy body start k u := by
  rw [reachedBy_succ, countAfter_of_ok h.last]
  rfl

theorem persists {j : Nat} (hj : j ≤ k) : Persists body start j where
  ok i hi := ⟨_, h.round i (hi.trans hj), Bool.false_ne_true⟩
  fits u := (h.reachedBy_le_one hj u).trans (by decide)

theorem exhausts : Exhausts body start (k + 1) where
  ok i hi := by
    rcases Nat.lt_or_eq_of_le hi with hlt | rfl
    · exact ⟨_, h.round i (Nat.le_of_lt_succ hlt)⟩
    · exact ⟨_, h.last⟩
  isEmpty := ⟨_, h.last, rfl⟩
  fits u := by
    rw [h.reachedBy_last]
    exact (h.reachedBy_le_one (Nat.le_refl k) u).trans (by decide)

theorem not_exhausts {j : Nat} (hj : j ≤ k) : ¬ Exhausts body start j := fun hexhausts =>
  absurd (hexhausts.isEmpty_of_ok (h.round j hj)) Bool.false_ne_true

/-- What the loop adds up to: the states of its rounds, each of them once. -/
theorem one_each {sum : Configuration V}
    (hsum : ∀ u, sum.count u = reachedBy body start (k + 1) u) :
    sum.size = k + 1 ∧ ∀ entry ∈ sum.entries, entry.2 = 1 := by
  have hcount : Represents ((List.range (k + 1)).map t) sum := fun u => by
    rw [hsum, h.reachedBy_last, h.reachedBy_eq (Nat.le_refl k)]
  have hone : ∀ entry ∈ sum.entries, entry.2 = 1 := by
    intro entry hentry
    have hle := h.count_le_one (Nat.le_refl k) entry.1
    rw [← hcount, Bag.count_of_mem hentry] at hle
    exact Nat.le_antisymm hle (sum.counted entry hentry).1
  refine ⟨?_, hone⟩
  calc sum.size
    _ = (sum.entries.map Prod.snd).sum := by
      rw [List.sum_eq_card_nsmul _ 1 (List.forall_mem_map.mpr hone), List.length_map]
      exact (Nat.mul_one _).symm
    _ = sum.total := sum.total_eq_sum.symm
    _ = k + 1 := by rw [← hcount.length_eq, List.length_map, List.length_range]

end Trail

/-! ## The rounds of a pop -/

omit [DecidableEq V] in
theorem agree_map_mk (x : Var) (vs : List V) :
    Agree (vs.map (Prod.mk x)) ↔ ∀ v ∈ vs, ∀ w ∈ vs, v = w := by
  simp [Agree]

/-- Equal states have stacks of the same height. -/
theorem State.length_eq_of_beq {s s' : State V} (h : s == s') {location : String}
    {stack stack' : Stack V} (hget : s.memory.table.get? location = some stack)
    (hget' : s'.memory.table.get? location = some stack') :
    stack.cells.length = stack'.cells.length := by
  obtain ⟨stack'', hget'', hrelated⟩ := ((renamed_one_iff s s').mpr h).memory.exists_right hget
  obtain rfl := Option.some.inj (hget'.symm.trans hget'')
  exact hrelated.length_eq

namespace Machine

variable [ToString V] (machine : Machine)

/-- Rounds of a program are so many copies of it, one after the other. -/
theorem afterRounds_eq_step (program : Program V) (start : Configuration V) (i : Nat) :
    afterRounds (machine.step program) start i =
      machine.step (.sequence (List.replicate i program)) start := by
  induction i with
  | zero => exact (machine.exec_skip [] start).symm
  | succ i ih =>
    rw [afterRounds, ih, List.replicate_succ']
    exact (machine.exec_sequence_append [] _ [program] start).symm

theorem afterRounds_pop_eq_exec (location : String) (x : Var) (start : Configuration V) (i : Nat) :
    afterRounds (machine.step (.pop (.var x) location)) start i =
      machine.exec [] (.sequence (Program.pops location (List.replicate i x))) start := by
  rw [afterRounds_eq_step, Program.pops, List.map_replicate, step]

section Pop

variable {s : State V} {location : String} {x : Var} {vs : List V}
variable (hstack : s.memory.table.get? location = some (.ofList (vs.reverse.map .value)))
variable (hx : s.substitution.get? x = none)

include hstack hx

/-- As long as the values are equal, each round takes one of them. -/
theorem afterRounds_pop {i : Nat} (hi : i ≤ vs.length) :
    (i ≤ frontRun vs →
      ∃ σ, afterRounds (machine.step (.pop (.var x) location)) (.singleton s) i =
        .ok (.singleton
          ⟨⟨s.memory.table.insert location (.ofList ((vs.drop i).reverse.map .value))⟩, σ⟩)) ∧
    (¬ i ≤ frontRun vs →
      afterRounds (machine.step (.pop (.var x) location)) (.singleton s) i = .ok .empty) := by
  have hfst : ((vs.take i).map (Prod.mk x)).map Prod.fst = List.replicate i x := by
    rw [List.map_map]
    show (vs.take i).map (fun _ => x) = _
    rw [List.map_const', List.length_take, Nat.min_eq_left hi]
  have hsnd : ((vs.take i).map (Prod.mk x)).map Prod.snd = vs.take i := by
    rw [List.map_map]
    exact List.map_id _
  have hunbound : ∀ p ∈ (vs.take i).map (Prod.mk x), s.substitution.get? p.1 = none :=
    List.forall_mem_map.mpr fun _ _ => hx
  have hcan : s.substitution.CanTake ((vs.take i).map (Prod.mk x)) ↔ i ≤ frontRun vs := by
    rw [Substitution.canTake_iff_agree hunbound, agree_map_mk, le_frontRun_iff hi]
  -- The values that `i` pops meet lie above the others, and all of them are met by `x`.
  rw [← List.take_append_drop i vs, List.reverse_append, List.map_append, ← hsnd] at hstack
  obtain ⟨htake, hfail⟩ := machine.exec_pops [] hstack fun p hp y => by simp [hunbound p hp]
  rw [hfst, hcan] at htake hfail
  rw [afterRounds_pop_eq_exec]
  refine ⟨fun hle => ?_, hfail⟩
  obtain ⟨σ, _, hexec⟩ := htake hle
  exact ⟨σ, hexec⟩

/-- One round more than there are values leaves no state. -/
theorem afterRounds_pop_underflow :
    afterRounds (machine.step (.pop (.var x) location)) (.singleton s) (vs.length + 1) =
      .ok .empty := by
  rw [afterRounds_pop_eq_exec]
  refine machine.exec_pops_underflow [] hstack (fun z hz y => ?_) ?_
  · simp [List.eq_of_mem_replicate hz, hx]
  · simp

/-- An iterated pop leaves a trail: the states of its rounds have stacks of different heights. -/
theorem exists_trail :
    ∃ t, Trail (machine.step (.pop (.var x) location)) (.singleton s) (frontRun vs) t := by
  have hle := frontRun_le_length vs
  have hround : ∀ i ≤ frontRun vs, ∃ σ,
      afterRounds (machine.step (.pop (.var x) location)) (.singleton s) i =
        .ok (.singleton
          ⟨⟨s.memory.table.insert location (.ofList ((vs.drop i).reverse.map .value))⟩, σ⟩) :=
    fun i hi => (machine.afterRounds_pop hstack hx (hi.trans hle)).1 hi
  choose! σ hσ using hround
  refine ⟨_, hσ, fun i hi j hj hbeq => ?_, ?_⟩
  · have hheight := State.length_eq_of_beq hbeq (NameMap.get?_insert_self ..)
      (NameMap.get?_insert_self ..)
    simp only [Stack.ofList, List.length_reverse, List.length_map, List.length_drop] at hheight
    omega
  · -- The run ends at another value, or at the bottom of the stack.
    rcases Nat.lt_or_eq_of_le hle with hlt | heq
    · exact (machine.afterRounds_pop hstack hx hlt).2 (Nat.not_succ_le_self _)
    · rw [heq]
      exact machine.afterRounds_pop_underflow hstack hx

end Pop

/-- An iterated pop into an unbound variable, from a stack of values listed from the top. With one
round more than the run of equal values at the top is long, it ends with one state for each value of
the run and the one at the start; with fewer rounds it diverges. -/
theorem fixpoint_pop_rounds (hlimit : machine.config.timeLimit = none) {s : State V}
    {location : String} {x : Var} {vs : List V}
    (hstack : s.memory.stackAt location = .ok (.ofList (vs.reverse.map .value)))
    (hx : s.substitution.contains x = false) :
    (frontRun vs + 1 ≤ machine.config.maxIterations →
      ∃ result, machine.fixpoint (.pop (.var x) location) (.singleton s) = .ok result ∧
        result.rounds = frontRun vs + 1 ∧ result.configuration.size = frontRun vs + 1 ∧
        ∀ entry ∈ result.configuration.entries, entry.2 = 1) ∧
    (machine.config.maxIterations ≤ frontRun vs →
      machine.fixpoint (.pop (.var x) location) (.singleton s) =
        .error (.divergence machine.config.maxIterations)) := by
  rw [Memory.stackAt_eq_ok_iff] at hstack
  rw [Substitution.contains_eq_false_iff] at hx
  obtain ⟨t, htrail⟩ := machine.exists_trail hstack hx
  refine ⟨fun hbound => ?_, fun hbound => fixpoint_of_persists hlimit (htrail.persists hbound)⟩
  obtain ⟨result, hresult, ⟨⟨_, hexhausts⟩, hleast⟩, hcount⟩ :=
    exists_fixpoint_of_exhausts hlimit hbound htrail.exhausts
  have hrounds : result.rounds = frontRun vs + 1 := by
    refine Nat.le_antisymm (hleast ⟨hbound, htrail.exhausts⟩) ?_
    by_contra hlt
    exact htrail.not_exhausts (Nat.le_of_not_lt hlt) hexhausts
  rw [hrounds] at hcount
  exact ⟨result, hresult, hrounds, htrail.one_each hcount⟩

/-- Two equal values on top of another one. -/
def twoOverOne : State String :=
  ⟨⟨.ofList [("l", .ofList [.value "c", .value "d", .value "d"])]⟩, .empty⟩

/-- The third round finds the other value. The loop needs it to see that there are no states left. -/
theorem fixpoint_pop_rounds_twoOverOne :
    (∃ result, fixpoint { config := { maxIterations := 3 } } (.popVar "x" "l")
        (.singleton twoOverOne) = .ok result ∧
      result.rounds = 3 ∧ result.configuration.size = 3 ∧
      ∀ entry ∈ result.configuration.entries, entry.2 = 1) ∧
    fixpoint { config := { maxIterations := 2 } } (.popVar "x" "l") (.singleton twoOverOne) =
      .error (.divergence 2) := by
  have hstack : twoOverOne.memory.stackAt "l" = .ok (.ofList (["d", "d", "c"].reverse.map .value)) := by
    cbv
  have hx : twoOverOne.substitution.contains ⟨"x", false⟩ = false := by decide
  constructor
  · exact (fixpoint_pop_rounds { config := { maxIterations := 3 } } rfl hstack hx).1 (by decide)
  · exact (fixpoint_pop_rounds { config := { maxIterations := 2 } } rfl hstack hx).2 (by decide)

end Machine

end StackCalculus
