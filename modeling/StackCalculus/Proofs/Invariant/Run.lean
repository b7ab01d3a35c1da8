import Mathlib
import StackCalculus.Bag.Lemmas
import StackCalculus.Proofs.Result
import StackCalculus.Proofs.Schedule.Possible

/-!
# Invariants of runs

`Invariant S P F` collects what single steps have to keep so that a property `S` of states holds
throughout every run of the programs in `P`, and only faults in `F` end such a run. The run lemma
`Invariant.possible` is proved once, and for every schedule; `Invariant.step` is about the machine's
own runs. A property of whole runs is then a matter of pushes, pops and the two ends of a scope.
-/

namespace StackCalculus

open Scheduled

variable {α β : Type} {F : Fault → Prop}

/-! ## Results that meet a specification -/

/-- Success with a result in `Q`, or a fault in `F`. -/
inductive Meets (F : Fault → Prop) (Q : α → Prop) : Except Fault α → Prop where
  | ok {a : α} (h : Q a) : Meets F Q (.ok a)
  | error {e : Fault} (h : F e) : Meets F Q (.error e)

namespace Meets

variable {Q : α → Prop} {x : Except Fault α}

theorem of_ok {a : α} (h : Meets F Q (.ok a)) : Q a := by
  cases h with
  | ok h => exact h

theorem of_error {e : Fault} (h : Meets F Q (.error e)) : F e := by
  cases h with
  | error h => exact h

theorem imp {F' : Fault → Prop} {Q' : α → Prop} (h : Meets F Q x) (hF : ∀ e, F e → F' e)
    (hQ : ∀ a, Q a → Q' a) : Meets F' Q' x := by
  cases h with
  | ok h => exact .ok (hQ _ h)
  | error h => exact .error (hF _ h)

theorem of_overflow (h : Meets (· = .multiplicityOverflow) Q x) (hover : F .multiplicityOverflow) :
    Meets F Q x :=
  h.imp (fun _ he => he ▸ hover) fun _ ha => ha

end Meets

/-- Whatever the schedules, the result is in `Q` or the fault is in `F`. -/
def Always (F : Fault → Prop) (Q : α → Prop) (x : Scheduled α) : Prop := ∀ o ∈ x, Meets F Q o

theorem always_pure {Q : α → Prop} {a : α} (h : Q a) : Always F Q (pure a) := by
  intro o ho
  rw [mem_pure.mp ho]
  exact .ok h

theorem always_throw {Q : α → Prop} {e : Fault} (h : F e) : Always F Q (throw e) := by
  intro o ho
  rw [mem_throw.mp ho]
  exact .error h

theorem always_ofExcept {Q : α → Prop} {x : Except Fault α} (h : Meets F Q x) :
    Always F Q (ofExcept x) := by
  intro o ho
  rw [mem_ofExcept.mp ho]
  exact h

theorem Always.imp {F' : Fault → Prop} {Q Q' : α → Prop} {x : Scheduled α} (h : Always F Q x)
    (hF : ∀ e, F e → F' e) (hQ : ∀ a, Q a → Q' a) : Always F' Q' x := fun o ho => (h o ho).imp hF hQ

theorem Always.bind {Q : α → Prop} {R : β → Prop} {x : Scheduled α} {f : α → Scheduled β}
    (hx : Always F Q x) (hf : ∀ a, Q a → Always F R (f a)) : Always F R (x >>= f) := by
  intro o ho
  rcases mem_bind.mp ho with ⟨a, ha, ho⟩ | ⟨e, he, rfl⟩
  · exact hf a (hx _ ha).of_ok o ho
  · exact .error (hx _ he).of_error

/-! ## Bags -/

namespace Bag

variable [BEq α] {Q : α → Prop}

/-- Every element of the bag is in `Q`. -/
def Each (Q : α → Prop) (bag : Bag α) : Prop := ∀ item ∈ bag.elements, Q item

theorem each_empty : (empty : Bag α).Each Q := fun _ h => absurd h List.not_mem_nil

theorem each_singleton {a : α} (h : Q a) : (singleton a).Each Q := by
  intro item hitem
  rwa [List.mem_singleton.mp hitem]

theorem Each.of_mem_entries {bag : Bag α} (h : bag.Each Q) {entry : α × Nat}
    (hentry : entry ∈ bag.entries) : Q entry.1 :=
  h entry.1 (List.mem_map_of_mem hentry)

/-- An element is added, or its count grows, or nothing changes. -/
theorem Each.insert {bag : Bag α} (h : bag.Each Q) {item : α} (hitem : Q item) (copies : Nat) :
    Meets (· = .multiplicityOverflow) (Each Q) (bag.insert item copies) := by
  unfold Bag.insert
  split
  · exact .ok h
  · split
    · split
      · exact .ok (List.forall_mem_cons.mpr ⟨hitem, h⟩)
      · refine .ok ?_
        unfold Each elements
        rw [map_fst_addIn]
        exact h
    · exact .error rfl

theorem Each.insertAll {bag : Bag α} (h : bag.Each Q) {pairs : List (α × Nat)}
    (hpairs : ∀ pair ∈ pairs, Q pair.1) :
    Meets (· = .multiplicityOverflow) (Each Q) (bag.insertAll pairs) := by
  induction pairs generalizing bag with
  | nil => exact .ok h
  | cons pair rest ih =>
    obtain ⟨hpair, hrest⟩ := List.forall_mem_cons.mp hpairs
    rw [Bag.insertAll, List.foldlM_cons]
    have hinsert := h.insert hpair pair.2
    cases hbag : bag.insert pair.1 pair.2 with
    | ok grown =>
      rw [hbag] at hinsert
      exact ih hinsert.of_ok hrest
    | error e =>
      rw [hbag] at hinsert
      exact .error hinsert.of_error

theorem Each.union {left right : Bag α} (hleft : left.Each Q) (hright : right.Each Q) :
    Meets (· = .multiplicityOverflow) (Each Q) (left.union right) := by
  unfold Bag.union
  split
  · exact hright.insertAll fun _ => hleft.of_mem_entries
  · exact hleft.insertAll fun _ => hright.of_mem_entries

theorem Each.scale {bag : Bag α} (h : bag.Each Q) (factor : Nat) :
    Meets (· = .multiplicityOverflow) (Each Q) (bag.scale factor) := by
  unfold Bag.scale
  split
  · exact .ok each_empty
  · split
    · refine .ok ?_
      unfold Each elements
      rw [List.map_map]
      exact h
    · exact .error rfl

end Bag

/-! ## Schedules and rounds -/

section Machine

theorem always_collect [BEq β] {Q : β → Prop} (hover : F .multiplicityOverflow)
    {f : α → Scheduled (Bag β)} {schedule : Schedule α}
    (hf : ∀ item ∈ schedule.items, Always F (Bag.Each Q) (f item)) :
    Always F (Bag.Each Q) (schedule.collect f) := by
  induction schedule with
  | idle => exact always_pure Bag.each_empty
  | visit item => exact hf item List.mem_cons_self
  | join left right ihleft ihright =>
    obtain ⟨hleft, hright⟩ := List.forall_mem_append.mp hf
    refine (ihleft hleft).bind fun leftSum hleftSum => ?_
    refine (ihright hright).bind fun rightSum hrightSum => ?_
    exact always_ofExcept ((hleftSum.union hrightSum).of_overflow hover)

variable {V : Type} [DecidableEq V] {S : State V → Prop} (machine : Machine)

theorem Machine.always_forEach {S' : State V → Prop} (hover : F .multiplicityOverflow)
    {f : State V → Scheduled (Configuration V)} (hf : ∀ s, S s → Always F (Bag.Each S') (f s))
    {c : Configuration V} (hc : c.Each S) : Always F (Bag.Each S') (machine.forEach f c) := by
  intro o ho
  obtain ⟨schedule, hitems, ho⟩ := mem_forEach.mp ho
  refine always_collect hover (fun entry hentry => ?_) o ho
  have hstate := hc.of_mem_entries (hitems.mem_iff.mp hentry)
  refine (hf entry.1 hstate).bind fun outcome houtcome => ?_
  exact always_ofExcept ((houtcome.scale entry.2).of_overflow hover)

/-- A round takes states in `S` to states in `S`; running out of time or of rounds is a divergence. -/
theorem Machine.always_closeFrom (hover : F .multiplicityOverflow)
    (hdivergence : ∀ rounds, F (.divergence rounds))
    {body : Configuration V → Scheduled (Configuration V)}
    (hbody : ∀ c : Configuration V, c.Each S → Always F (Bag.Each S) (body c)) (budget rounds : Nat)
    {sum frontier : Configuration V} (hsum : sum.Each S) (hfrontier : frontier.Each S) :
    Always F (fun fixpoint => fixpoint.configuration.Each S)
      (machine.closeFrom body budget rounds sum frontier) := by
  induction budget generalizing rounds sum frontier with
  | zero =>
    unfold closeFrom
    split
    · exact always_pure hsum
    · split <;> exact always_throw (hdivergence rounds)
  | succ budget ih =>
    unfold closeFrom
    split
    · exact always_pure hsum
    · split
      · exact always_throw (hdivergence rounds)
      · refine (hbody frontier hfrontier).bind fun next hnext => ?_
        refine (always_pure trivial).bind fun _ (_ : True) => ?_
        have hunion := always_ofExcept ((hsum.union hnext).of_overflow hover)
        exact hunion.bind fun sum hsum => ih (rounds + 1) hsum hnext

end Machine

/-! ## Invariants -/

section Invariant

variable {V : Type} [DecidableEq V] [ToString V]

/-- What steps of the programs in `P` have to keep for `S` to hold throughout, where `F` are the
faults that can end the run. Pushes and pops may also fail the branch that they are on. A scope is
entered from a state `s` and left from a state `u`. -/
structure Invariant (S : State V → Prop) (P : Program V → Prop) (F : Fault → Prop) : Prop where
  overflow : F .multiplicityOverflow
  seq {p q : Program V} : P (.seq p q) → P p ∧ P q
  branch {p q : Program V} : P (.branch p q) → P p ∧ P q
  iterate {p : Program V} : P (.iterate p) → P p ∧ ∀ rounds, F (.divergence rounds)
  push {t : Term V} {location : String} {s : State V} : P (.push t location) → S s →
    Meets (fun e => e.isBranchFailure = false → F e) S (s.push t location)
  pop {t : Term V} {location : String} {s : State V} : P (.pop t location) → S s →
    Meets (fun e => e.isBranchFailure = false → F e) S (s.pop t location)
  enter {x : Var} {p : Program V} {s : State V} (reserved : List Var) : P (.scope x p) → S s →
    P (p.rename x (freshFor x p s reserved))
  leave {x : Var} {p : Program V} {s u : State V} (reserved : List Var) : P (.scope x p) → S s →
    S u → S (u.project (freshFor x p s reserved))

variable {S : State V → Prop} {P : Program V → Prop}

omit [ToString V] in
theorem meets_settle {result : Except Fault (State V)}
    (h : Meets (fun e => e.isBranchFailure = false → F e) S result) :
    Meets F (Bag.Each S) (Machine.settle result : Except Fault (Configuration V)) := by
  rw [Machine.settle_eq]
  cases h with
  | ok h => exact .ok (Bag.each_singleton h)
  | @error e h =>
    show Meets F _ (if e.isBranchFailure then _ else _)
    split
    · exact .ok Bag.each_empty
    · rename_i hfatal
      exact .error (h (Bool.eq_false_iff.mpr hfatal))

omit [ToString V] in
theorem meets_project (hover : F .multiplicityOverflow) {x : Var} {inner : Configuration V}
    (hinner : inner.Each fun u => S (u.project x)) :
    Meets F (Bag.Each S)
      (Bag.ofCounts (inner.entries.map fun entry => (entry.1.project x, entry.2))) := by
  have hpairs : ∀ pair ∈ inner.entries.map (fun entry => (entry.1.project x, entry.2)), S pair.1 := by
    intro pair hpair
    obtain ⟨entry, hentry, rfl⟩ := List.mem_map.mp hpair
    exact hinner.of_mem_entries hentry
  exact (Bag.each_empty.insertAll hpairs).of_overflow hover

namespace Invariant

variable (machine : Machine) {program : Program V} {c : Configuration V}

/-- An invariant holds of every state that a program takes states with the invariant to, whatever the
schedules. -/
theorem possible (h : Invariant S P F) (reserved : List Var) (hprogram : P program)
    (hc : c.Each S) : Always F (Bag.Each S) (machine.possible reserved program c) := by
  induction program using Program.enter_induction generalizing reserved c with
  | skip =>
    rw [Machine.possible_skip]
    exact always_pure hc
  | fail =>
    rw [Machine.possible_fail]
    exact always_pure Bag.each_empty
  | seq p q ihp ihq =>
    obtain ⟨hp, hq⟩ := h.seq hprogram
    rw [Machine.possible_seq]
    exact (ihp reserved hp hc).bind fun middle hmiddle => ihq reserved hq hmiddle
  | branch p q ihp ihq =>
    obtain ⟨hp, hq⟩ := h.branch hprogram
    rw [Machine.possible_branch]
    refine machine.always_forEach h.overflow (fun s hs => ?_) hc
    have hs := Bag.each_singleton hs
    refine (ihp reserved hp hs).bind fun left hleft => ?_
    refine (ihq reserved hq hs).bind fun right hright => ?_
    exact always_ofExcept ((hleft.union hright).of_overflow h.overflow)
  | iterate p ih =>
    obtain ⟨hp, hdivergence⟩ := h.iterate hprogram
    rw [Machine.possible_iterate]
    have hclose := machine.always_closeFrom h.overflow hdivergence
      (fun frontier hfrontier => ih reserved hp hfrontier) machine.config.maxIterations 0 hc hc
    exact hclose.bind fun fixpoint hfixpoint => always_pure hfixpoint
  | push t location =>
    rw [Machine.possible_push]
    refine machine.always_forEach h.overflow (fun s hs => ?_) hc
    exact always_ofExcept (meets_settle (h.push hprogram hs))
  | pop t location =>
    rw [Machine.possible_pop]
    refine machine.always_forEach h.overflow (fun s hs => ?_) hc
    exact always_ofExcept (meets_settle (h.pop hprogram hs))
  | scope x p ih =>
    rw [Machine.possible_scope]
    refine machine.always_forEach h.overflow (fun s hs => ?_) hc
    have hinner := ih (freshFor x p s reserved) (reserved ++ [freshFor x p s reserved])
      (h.enter reserved hprogram hs) (Bag.each_singleton hs)
    refine hinner.bind fun inner hinner => always_ofExcept (meets_project h.overflow ?_)
    exact fun u hu => h.leave reserved hprogram hs (hinner u hu)

theorem step (h : Invariant S P F) (hprogram : P program) (hc : c.Each S) :
    Meets F (Bag.Each S) (machine.step program c) :=
  h.possible machine [] hprogram hc _ (machine.exec_mem_possible [] program c)

variable {machine} {r : Configuration V}

theorem fault_of_step (h : Invariant S P F) (hprogram : P program) (hc : c.Each S) {e : Fault}
    (hstep : machine.step program c = .error e) : F e := by
  have hmeets := h.step machine hprogram hc
  rw [hstep] at hmeets
  exact hmeets.of_error

theorem each_of_step (h : Invariant S P F) (hprogram : P program) (hc : c.Each S)
    (hstep : machine.step program c = .ok r) : r.Each S := by
  have hmeets := h.step machine hprogram hc
  rw [hstep] at hmeets
  exact hmeets.of_ok

theorem each_of_run (h : Invariant S P F) (hprogram : P program) {s : State V} (hs : S s)
    (hrun : machine.run program s = .ok r) : r.Each S := by
  rw [Machine.run_eq_step] at hrun
  exact h.each_of_step hprogram (Bag.each_singleton hs) hrun

end Invariant

end Invariant

end StackCalculus
