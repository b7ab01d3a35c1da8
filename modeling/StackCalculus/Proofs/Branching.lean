import Mathlib
import StackCalculus.Proofs.Counting
import StackCalculus.Proofs.Invariant.Footprint
import StackCalculus.Proofs.Invariant.Run

/-!
# Branches and multiplicities

The total of a configuration is the number of ways in which its states were reached. Every operation
of the machine on bags adds totals or multiplies them, and no count exceeds the total. A program
without iterations can only split ways at its branches, so it multiplies the total by at most two for
each of them, and as long as that bound fits into a count no operation overflows, whatever the
schedules (`Machine.atMost_possible`). This holds of every part of a run (`Task.Involves`).
-/

namespace StackCalculus

open Scheduled

variable {α β : Type}

/-! ## Totals -/

namespace Bag

theorem total_eq_sum [BEq α] (bag : Bag α) : bag.total = (bag.entries.map Prod.snd).sum := by
  unfold total
  induction bag.entries with
  | nil => rfl
  | cons entry rest ih => rw [List.foldr_cons, ih, List.map_cons, List.sum_cons]

/-- Written out, pairs are as many elements as their counts add up to. -/
theorem length_copies (pairs : List (α × Nat)) :
    (pairs.flatMap fun pair => List.replicate pair.2 pair.1).length = (pairs.map Prod.snd).sum := by
  rw [List.length_flatMap]
  simp only [List.length_replicate]

variable [BEq α]

theorem length_expand (bag : Bag α) : bag.expand.length = bag.total :=
  (length_copies bag.entries).trans bag.total_eq_sum.symm

variable [EquivBEq α]

theorem weight_le_sum (item : α) (pairs : List (α × Nat)) :
    weight item pairs ≤ (pairs.map Prod.snd).sum := by
  rw [weight_eq_count, ← length_copies]
  exact List.count_le_length

theorem count_le_total (bag : Bag α) (item : α) : bag.count item ≤ bag.total := by
  rw [← bag.weight_entries, total_eq_sum]
  exact weight_le_sum item bag.entries

end Bag

section Totals

variable [BEq α] [EquivBEq α]

/-- The total of a bag is the length of every list that stands for it. -/
theorem Represents.length_eq {xs : List α} {bag : Bag α} (h : Represents xs bag) :
    xs.length = bag.total := by
  obtain ⟨zs, hperm, hzs⟩ := (h.sameCounts (represents_expand bag)).exists_perm
  rw [hperm.length_eq, hzs.length_eq, Bag.length_expand]

namespace Bag

theorem total_insertAll {bag grown : Bag α} {pairs : List (α × Nat)}
    (h : bag.insertAll pairs = .ok grown) :
    grown.total = bag.total + (pairs.map Prod.snd).sum := by
  have hgrown : Represents (bag.expand ++ pairs.flatMap fun pair => List.replicate pair.2 pair.1)
      grown := by
    intro item
    rw [count_insertAll h, List.count_append, represents_expand bag item, weight_eq_count]
  rw [← hgrown.length_eq, List.length_append, length_expand, length_copies]

theorem total_union {left right sum : Bag α} (h : left.union right = .ok sum) :
    sum.total = left.total + right.total := by
  unfold union at h
  split at h
  · rw [total_insertAll h, ← total_eq_sum, Nat.add_comm]
  · rw [total_insertAll h, ← total_eq_sum]

theorem total_ofCounts {bag : Bag α} {pairs : List (α × Nat)} (h : ofCounts pairs = .ok bag) :
    bag.total = (pairs.map Prod.snd).sum := by
  rw [total_insertAll h]
  exact Nat.zero_add _

omit [EquivBEq α] in
theorem total_scale {bag scaled : Bag α} {factor : Nat} (h : bag.scale factor = .ok scaled) :
    scaled.total = bag.total * factor := by
  unfold scale at h
  split at h
  · rename_i hzero
    cases h
    rw [hzero, Nat.mul_zero]
    rfl
  · split at h
    · cases h
      rw [total_eq_sum, total_eq_sum, List.map_map, ← List.sum_map_mul_right]
      rfl
    · cases h

end Bag

end Totals

/-! ## Bounded totals -/

/-- Whatever the schedules, the total is at most `k`, and an overflow means that `k` does not fit into
a count. -/
def AtMost [BEq α] (k : Nat) (x : Scheduled (Bag α)) : Prop :=
  Always (fun e => e = .multiplicityOverflow → maxCount < k) (fun bag => bag.total ≤ k) x

namespace AtMost

variable [BEq α] {j k : Nat} {x : Scheduled (Bag α)}

theorem mono (h : AtMost j x) (hle : j ≤ k) : AtMost k x :=
  h.imp (fun _ he hover => Nat.lt_of_lt_of_le (he hover) hle) fun _ htotal => htotal.trans hle

theorem bind [BEq β] {f : Bag α → Scheduled (Bag β)} (hx : AtMost j x) (hle : j ≤ k)
    (hf : ∀ bag : Bag α, bag.total ≤ j → AtMost k (f bag)) : AtMost k (x >>= f) :=
  Always.bind (hx.imp (fun _ he hover => Nat.lt_of_lt_of_le (he hover) hle) fun _ h => h) hf

theorem not_overflow (h : AtMost k x) (hk : k ≤ maxCount) {o : Except Fault (Bag α)} (ho : o ∈ x) :
    o ≠ .error .multiplicityOverflow := by
  rintro rfl
  have hover := (h _ ho).of_error rfl
  omega

end AtMost

section Operations

variable [BEq α]

theorem atMost_pure {k : Nat} {bag : Bag α} (h : bag.total ≤ k) : AtMost k (pure bag) := always_pure h

/-- An exact operation overflows only if one of its counts, and so the total, does not fit. -/
theorem Checked.atMost {w : α → Nat} {k : Nat} {x : Except Fault (Bag α)} (h : Checked w x)
    (hw : ∀ item, w item ≤ k) (htotal : ∀ bag, x = .ok bag → bag.total ≤ k) :
    AtMost k (ofExcept x) := by
  apply always_ofExcept
  cases h with
  | ok => exact .ok (htotal _ rfl)
  | overflow hover => exact .error fun _ => Nat.lt_of_lt_of_le hover (hw _)

variable [EquivBEq α] {k : Nat}

theorem atMost_union {left right : Bag α} (h : left.total + right.total ≤ k) :
    AtMost k (ofExcept (left.union right)) := by
  apply (left.checked_union right).atMost
  · intro item
    have hleft := left.count_le_total item
    have hright := right.count_le_total item
    omega
  · intro sum hsum
    rwa [Bag.total_union hsum]

theorem atMost_scale {bag : Bag α} {factor : Nat} (h : bag.total * factor ≤ k) :
    AtMost k (ofExcept (bag.scale factor)) := by
  apply (bag.checked_scale factor).atMost
  · exact fun item => (Nat.mul_le_mul_right factor (bag.count_le_total item)).trans h
  · intro scaled hscaled
    rwa [Bag.total_scale hscaled]

theorem atMost_ofCounts {pairs : List (α × Nat)} (h : (pairs.map Prod.snd).sum ≤ k) :
    AtMost k (ofExcept (Bag.ofCounts pairs)) := by
  apply (Bag.checked_ofCounts pairs).atMost
  · exact fun item => (Bag.weight_le_sum item pairs).trans h
  · intro bag hbag
    rwa [Bag.total_ofCounts hbag]

/-- Bounds for the visits of a schedule add up. -/
theorem atMost_collect {f : β → Scheduled (Bag α)} {w : β → Nat} {schedule : Schedule β}
    (hf : ∀ item ∈ schedule.items, AtMost (w item) (f item)) :
    AtMost (schedule.items.map w).sum (schedule.collect f) := by
  induction schedule with
  | idle => exact atMost_pure (Nat.le_refl 0)
  | visit item =>
    rw [Schedule.items, List.map_singleton, List.sum_singleton]
    exact hf item List.mem_cons_self
  | join left right ihleft ihright =>
    obtain ⟨hleft, hright⟩ := List.forall_mem_append.mp hf
    rw [Schedule.items, List.map_append, List.sum_append]
    refine (ihleft hleft).bind (Nat.le_add_right _ _) fun leftSum hleftSum => ?_
    refine (ihright hright).bind (Nat.le_add_left _ _) fun rightSum hrightSum => ?_
    exact atMost_union (Nat.add_le_add hleftSum hrightSum)

end Operations

namespace Machine

variable {V : Type} [DecidableEq V] (machine : Machine) {k : Nat}

/-- A visit is multiplied by the count of its state, so the bound is multiplied by the total. -/
theorem atMost_forEach {f : State V → Scheduled (Configuration V)} (hf : ∀ s, AtMost k (f s))
    (c : Configuration V) : AtMost (c.total * k) (machine.forEach f c) := by
  intro o ho
  obtain ⟨schedule, hitems, ho⟩ := mem_forEach.mp ho
  have hvisit : ∀ entry ∈ schedule.items, AtMost (entry.2 * k)
      (f entry.1 >>= fun outcome => ofExcept (outcome.scale entry.2)) := by
    intro entry hentry
    have hpos := (c.counted entry (hitems.mem_iff.mp hentry)).1
    refine (hf entry.1).bind (Nat.le_mul_of_pos_left k hpos) fun outcome houtcome => ?_
    rw [Nat.mul_comm]
    exact atMost_scale (Nat.mul_le_mul_right entry.2 houtcome)
  have hsum : (schedule.items.map fun entry => entry.2 * k).sum = c.total * k := by
    rw [(hitems.map _).sum_eq, Bag.total_eq_sum, ← List.sum_map_mul_right]
  rw [← hsum]
  exact atMost_collect hvisit o ho

/-- A push or a pop has one outcome or none, and its faults are no overflows. -/
theorem atMost_settle {result : Except Fault (State V)}
    (h : ∀ e, result = .error e → e.isLimit = false) :
    AtMost 1 (ofExcept (settle result : Except Fault (Configuration V))) := by
  apply always_ofExcept
  rw [settle_eq]
  cases result with
  | ok s => exact .ok (Nat.le_refl 1)
  | error e =>
    show Meets _ _ (if e.isBranchFailure then _ else _)
    split
    · exact .ok (Nat.zero_le 1)
    · refine .error ?_
      rintro rfl
      exact absurd (h _ rfl) (by decide)

end Machine

/-! ## Branches -/

/-- The number of branches in a program. -/
def Program.branches {V : Type} : Program V → Nat
  | skip | fail | push _ _ | pop _ _ => 0
  | seq p q => p.branches + q.branches
  | branch p q => p.branches + q.branches + 1
  | iterate p | scope _ p => p.branches

@[simp] theorem Program.branches_rename {V : Type} (old new : Var) (p : Program V) :
    (p.rename old new).branches = p.branches := by
  induction p with
  | skip => rfl
  | fail => rfl
  | seq p q ihp ihq => simp only [rename, branches, ihp, ihq]
  | branch p q ihp ihq => simp only [rename, branches, ihp, ihq]
  | iterate p ih => exact ih
  | push t location => rfl
  | pop t location => rfl
  | scope x p ih =>
    rw [rename]
    split
    · rfl
    · exact ih

namespace Machine

variable {V : Type} [DecidableEq V] [ToString V] (machine : Machine)

/-- A program without iterations multiplies the total by at most two for each of its branches. -/
theorem atMost_possible {program : Program V} (hloop : program.iterates = false)
    (reserved : List Var) (c : Configuration V) :
    AtMost (c.total * 2 ^ program.branches) (machine.possible reserved program c) := by
  induction program using Program.enter_induction generalizing reserved c with
  | skip =>
    rw [possible_skip]
    exact atMost_pure (Nat.le_of_eq (Nat.mul_one _).symm)
  | fail =>
    rw [possible_fail]
    exact atMost_pure (Nat.zero_le _)
  | seq p q ihp ihq =>
    obtain ⟨hp, hq⟩ := Bool.or_eq_false_iff.mp hloop
    rw [possible_seq, Program.branches, pow_add, ← mul_assoc]
    refine (ihp hp reserved c).bind (Nat.le_mul_of_pos_right _ (Nat.two_pow_pos _)) fun middle
      hmiddle => ?_
    exact (ihq hq reserved middle).mono (Nat.mul_le_mul_right _ hmiddle)
  | branch p q ihp ihq =>
    obtain ⟨hp, hq⟩ := Bool.or_eq_false_iff.mp hloop
    rw [possible_branch]
    refine machine.atMost_forEach (fun s => ?_) c
    -- The two sides are added up, and `2 ^ m + 2 ^ n` is at most `2 ^ (m + n + 1)`.
    have hpow : 2 ^ p.branches + 2 ^ q.branches ≤ 2 ^ (Program.branch p q).branches := by
      have hleft : 2 ^ p.branches ≤ 2 ^ (p.branches + q.branches) :=
        Nat.pow_le_pow_right Nat.two_pos (Nat.le_add_right _ _)
      have hright : 2 ^ q.branches ≤ 2 ^ (p.branches + q.branches) :=
        Nat.pow_le_pow_right Nat.two_pos (Nat.le_add_left _ _)
      rw [Program.branches, pow_succ]
      omega
    have hsingle : (Bag.singleton s).total = 1 := rfl
    have hleft := ihp hp reserved (.singleton s)
    have hright := ihq hq reserved (.singleton s)
    rw [hsingle, Nat.one_mul] at hleft hright
    refine hleft.bind ((Nat.le_add_right _ _).trans hpow) fun left hleft => ?_
    refine hright.bind ((Nat.le_add_left _ _).trans hpow) fun right hright => ?_
    exact atMost_union ((Nat.add_le_add hleft hright).trans hpow)
  | iterate p ih => cases hloop
  | push t location =>
    rw [possible_push]
    exact machine.atMost_forEach (fun s => atMost_settle fun e => State.isLimit_of_push) c
  | pop t location =>
    rw [possible_pop]
    exact machine.atMost_forEach (fun s => atMost_settle fun e => State.isLimit_of_pop) c
  | scope x p ih =>
    rw [possible_scope]
    refine machine.atMost_forEach (fun s => ?_) c
    have hsingle : (Bag.singleton s).total = 1 := rfl
    have hinner := ih (freshFor x p s reserved) (by rwa [Program.iterates_rename])
      (reserved ++ [freshFor x p s reserved]) (.singleton s)
    rw [hsingle, Nat.one_mul, Program.branches_rename] at hinner
    refine hinner.bind (Nat.le_refl _) fun inner hinner => atMost_ofCounts ?_
    rw [List.map_map]
    exact (inner.total_eq_sum.symm.trans_le hinner)

end Machine

/-! ## Parts of a run -/

section Parts

variable {V : Type} [DecidableEq V] [ToString V] {machine : Machine}

/-- A program to be run on a configuration, in scopes that have chosen the variables `reserved`. -/
structure Task (V : Type) [DecidableEq V] where
  reserved : List Var
  program : Program V
  configuration : Configuration V

/-- The tasks that come up in a task without iterations. Both sides of a branch come up, even if one
of them ends in a fault. -/
inductive Task.Involves (machine : Machine) : Task V → Task V → Prop where
  | self (task : Task V) : Involves machine task task
  | first {reserved : List Var} {p q : Program V} {c : Configuration V} {task : Task V}
      (h : Involves machine ⟨reserved, p, c⟩ task) : Involves machine ⟨reserved, .seq p q, c⟩ task
  | second {reserved : List Var} {p q : Program V} {c middle : Configuration V} {task : Task V}
      (hmiddle : .ok middle ∈ machine.possible reserved p c)
      (h : Involves machine ⟨reserved, q, middle⟩ task) : Involves machine ⟨reserved, .seq p q, c⟩ task
  | left {reserved : List Var} {p q : Program V} {c : Configuration V} {s : State V} {task : Task V}
      (hs : s ∈ c.elements) (h : Involves machine ⟨reserved, p, .singleton s⟩ task) :
      Involves machine ⟨reserved, .branch p q, c⟩ task
  | right {reserved : List Var} {p q : Program V} {c : Configuration V} {s : State V} {task : Task V}
      (hs : s ∈ c.elements) (h : Involves machine ⟨reserved, q, .singleton s⟩ task) :
      Involves machine ⟨reserved, .branch p q, c⟩ task
  | body {reserved : List Var} {x : Var} {p : Program V} {c : Configuration V} {s : State V}
      {task : Task V} (hs : s ∈ c.elements)
      (h : Involves machine ⟨reserved ++ [freshFor x p s reserved],
        p.rename x (freshFor x p s reserved), .singleton s⟩ task) :
      Involves machine ⟨reserved, .scope x p, c⟩ task

/-- The bound on the total of the outcome of a task. -/
def Task.bound (task : Task V) : Nat := task.configuration.total * 2 ^ task.program.branches

omit [ToString V] in
/-- A task on one state of a configuration has a smaller bound if it has no more branches. -/
theorem Task.bound_singleton_le {reserved reserved' : List Var} {p q : Program V}
    {c : Configuration V} {s : State V} (hs : s ∈ c.elements) (hle : q.branches ≤ p.branches) :
    Task.bound ⟨reserved', q, .singleton s⟩ ≤ Task.bound ⟨reserved, p, c⟩ := by
  obtain ⟨entry, hentry, rfl⟩ := List.mem_map.mp hs
  have hpos := (c.counted entry hentry).1
  rw [← Bag.count_of_mem hentry] at hpos
  have htotal : 1 ≤ c.total := hpos.trans_le (c.count_le_total entry.1)
  exact Nat.mul_le_mul htotal (Nat.pow_le_pow_right Nat.two_pos hle)

/-- The bounds of the tasks that come up are below the bound of the whole. -/
theorem Task.Involves.bound_le {task part : Task V} (h : task.Involves machine part)
    (hloop : task.program.iterates = false) :
    part.program.iterates = false ∧ part.bound ≤ task.bound := by
  induction h with
  | self task => exact ⟨hloop, Nat.le_refl _⟩
  | @first reserved p q c part _ ih =>
    obtain ⟨hpart, hle⟩ := ih (Bool.or_eq_false_iff.mp hloop).1
    refine ⟨hpart, hle.trans (Nat.mul_le_mul_left _ ?_)⟩
    exact Nat.pow_le_pow_right Nat.two_pos (Nat.le_add_right p.branches q.branches)
  | @second reserved p q c middle part hmiddle _ ih =>
    obtain ⟨hp, hq⟩ := Bool.or_eq_false_iff.mp hloop
    obtain ⟨hpart, hle⟩ := ih hq
    have htotal := (machine.atMost_possible hp reserved c _ hmiddle).of_ok
    refine ⟨hpart, hle.trans ((Nat.mul_le_mul_right _ htotal).trans_eq ?_)⟩
    show c.total * 2 ^ p.branches * 2 ^ q.branches = c.total * 2 ^ (p.branches + q.branches)
    rw [pow_add, mul_assoc]
  | @left reserved p q c s part hs _ ih =>
    obtain ⟨hpart, hle⟩ := ih (Bool.or_eq_false_iff.mp hloop).1
    refine ⟨hpart, hle.trans (bound_singleton_le hs ?_)⟩
    show p.branches ≤ p.branches + q.branches + 1
    omega
  | @right reserved p q c s part hs _ ih =>
    obtain ⟨hpart, hle⟩ := ih (Bool.or_eq_false_iff.mp hloop).2
    refine ⟨hpart, hle.trans (bound_singleton_le hs ?_)⟩
    show q.branches ≤ p.branches + q.branches + 1
    omega
  | @body reserved x p c s part hs _ ih =>
    have hbody : p.iterates = false := hloop
    obtain ⟨hpart, hle⟩ := ih (by rwa [Program.iterates_rename])
    refine ⟨hpart, hle.trans (bound_singleton_le hs ?_)⟩
    rw [Program.branches_rename]
    exact Nat.le_refl _

/-- Without iterations, 63 branches are not enough to make a count overflow: not in the machine's own
run, and not in any part of the run under any other schedule. The total of the outcomes is at most two
to the number of branches. -/
theorem Machine.run_total_le (machine : Machine) {program : Program V}
    (hloop : program.iterates = false) (s : State V) :
    (program.branches ≤ 63 → machine.run program s ≠ .error .multiplicityOverflow ∧
      ∀ part : Task V, Task.Involves machine ⟨[], program, .singleton s⟩ part →
        .error .multiplicityOverflow ∉
          machine.possible part.reserved part.program part.configuration) ∧
    ∀ r, machine.run program s = .ok r → r.total ≤ 2 ^ program.branches := by
  have hwhole : Task.bound ⟨[], program, .singleton s⟩ = 2 ^ program.branches := Nat.one_mul _
  have hrun : machine.run program s ∈ machine.possible [] program (.singleton s) := by
    rw [run_eq_step]
    exact machine.exec_mem_possible [] program (.singleton s)
  constructor
  · intro hbranches
    have hparts : ∀ part : Task V, Task.Involves machine ⟨[], program, .singleton s⟩ part →
        .error .multiplicityOverflow ∉
          machine.possible part.reserved part.program part.configuration := by
      intro part hpart hover
      obtain ⟨hloop, hle⟩ := hpart.bound_le hloop
      have hfits : 2 ^ program.branches ≤ maxCount :=
        (Nat.pow_le_pow_right Nat.two_pos hbranches).trans (by decide)
      have hbound := machine.atMost_possible hloop part.reserved part.configuration
      exact hbound.not_overflow (hle.trans (hwhole.trans_le hfits)) hover rfl
    refine ⟨fun hover => hparts _ (.self _) ?_, hparts⟩
    rwa [hover] at hrun
  · intro r hr
    rw [hr] at hrun
    exact ((machine.atMost_possible hloop [] (.singleton s) _ hrun).of_ok).trans_eq hwhole

end Parts

/-- Doubles the count of a state a number of times. -/
def Program.doublings : Nat → Program String
  | 0 => .skip
  | n + 1 => .seq (.branch .skip .skip) (doublings n)

/-- With 63 branches the bound is reached. -/
theorem Machine.run_total_le_doublings :
    (Program.doublings 63).iterates = false ∧ (Program.doublings 63).branches ≤ 63 ∧
      run {} (.doublings 63) (.ofAlphabet []) ≠ .error .multiplicityOverflow ∧
      ∃ r, run {} (.doublings 63) (.ofAlphabet []) = .ok r ∧ r.total = 2 ^ 63 ∧ r.total ≤ 2 ^ 63 := by
  have hloop : (Program.doublings 63).iterates = false := by decide
  have hbranches : (Program.doublings 63).branches ≤ 63 := by decide
  obtain ⟨hfits, htotal⟩ := run_total_le {} hloop (.ofAlphabet [])
  have hrun : (run {} (.doublings 63) (.ofAlphabet [])).toOption.any fun r => r.total == 2 ^ 63 := by
    decide +kernel
  obtain ⟨r, hr, hr'⟩ := exists_ok_of_any hrun
  exact ⟨hloop, hbranches, (hfits hbranches).1, r, hr, beq_iff_eq.mp hr', htotal r hr⟩

/-- One branch more, and the last sum does not fit. -/
example : (Machine.run {} (.doublings 64) (.ofAlphabet [])).isOk = false := by decide +kernel

end StackCalculus
