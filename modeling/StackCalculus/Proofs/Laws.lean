import Mathlib
import StackCalculus.Proofs.Adequacy

/-!
# Laws of programs

Branch is a sum of programs with unit `fail`, sequence is a product with unit `skip`, and the product
distributes over the sum on both sides. `SameRuns` says that no run tells two programs apart, other
than by an overflow that one of them has on the way. The laws are proved about paths (`SamePaths`),
where they are facts about lists, and carried over to runs by `SamePaths.sameRuns`. Having the same
paths is transitive; having the same runs is not, since an overflow of a program in the middle would
hide what the other two do.
-/

namespace StackCalculus

/-! ## Results up to overflow -/

/-- Equal bags where both computations succeed, and if one succeeds, then only an overflow can keep
the other from it. -/
structure AgreeUpToOverflow {α : Type} [BEq α] (x y : Except Fault (Bag α)) : Prop where
  beq : ∀ a b, x = .ok a → y = .ok b → a == b
  right : (∃ a, x = .ok a) → (∃ b, y = .ok b) ∨ y = .error .multiplicityOverflow
  left : (∃ b, y = .ok b) → (∃ a, x = .ok a) ∨ x = .error .multiplicityOverflow

section Tracks

variable {α : Type} [BEq α] {x y : Except Fault (Bag α)} {xs ys : Except Fault (List α)}

/-- Bags that follow lists with the same elements agree. -/
theorem Tracks.agree [EquivBEq α] (hx : Tracks xs x) (hy : Tracks ys y)
    (hsame : Alike AnyFault List.Perm xs ys) : AgreeUpToOverflow x y := by
  constructor
  · rintro a b rfl rfl
    obtain ⟨all, rfl, ha⟩ := hx.exists_list
    obtain ⟨all', rfl, hb⟩ := hy.exists_list
    cases hsame with
    | ok hperm =>
      refine (Bag.beq_iff_count_eq a b).mpr fun item => ?_
      rw [ha item, hb item, SameCounts.of_perm hperm item]
  · rintro ⟨a, rfl⟩
    obtain ⟨all, rfl, _⟩ := hx.exists_list
    obtain ⟨all', rfl, _⟩ := hsame.exists_right
    exact hy.ok_or_overflow
  · rintro ⟨b, rfl⟩
    obtain ⟨all', rfl, _⟩ := hy.exists_list
    obtain ⟨all, rfl, _⟩ := hsame.symm.exists_right
    exact hx.ok_or_overflow

end Tracks

theorem alike_perm_refl {α : Type} (x : Except Fault (List α)) : Alike AnyFault List.Perm x x := by
  cases x with
  | ok all => exact .ok (.refl all)
  | error e => exact .error trivial

/-! ## Programs with the same paths -/

namespace Program

variable {V : Type} [DecidableEq V] [ToString V]

/-- No run tells the programs apart, other than by an overflow. -/
def SameRuns (p q : Program V) : Prop :=
  ∀ machine : Machine, machine.config.timeLimit = none → ∀ s,
    AgreeUpToOverflow (machine.run p s) (machine.run q s)

/-- From every state the programs have the same paths, in some order. -/
def SamePaths (p q : Program V) : Prop :=
  ∀ (machine : Machine) (reserved : List Var) (s : State V),
    Alike AnyFault List.Perm (machine.paths reserved p s) (machine.paths reserved q s)

namespace SamePaths

variable {p q r : Program V}

theorem sameRuns (h : SamePaths p q) : SameRuns p q := fun machine hlimit s =>
  (Machine.tracks_run hlimit p s).agree (Machine.tracks_run hlimit q s) (h machine [] s)

theorem of_eq (h : ∀ (machine : Machine) (reserved : List Var) (s : State V),
    machine.paths reserved p s = machine.paths reserved q s) : SamePaths p q := by
  intro machine reserved s
  rw [h machine reserved s]
  exact alike_perm_refl _

theorem trans (h : SamePaths p q) (h' : SamePaths q r) : SamePaths p r := by
  intro machine reserved s
  refine ((h machine reserved s).trans (h' machine reserved s)).mono (fun _ _ he => he) ?_
  rintro as cs ⟨bs, hab, hbc⟩
  exact hab.trans hbc

end SamePaths

/-! ## Branch -/

section Branch

variable (a b c : Program V)

theorem branch_comm : SamePaths (.branch a b) (.branch b a) := by
  intro machine reserved s
  simp only [Machine.paths_branch]
  cases machine.paths reserved a s with
  | error e => cases machine.paths reserved b s <;> exact .error trivial
  | ok left =>
    cases machine.paths reserved b s with
    | error e => exact .error trivial
    | ok right => exact .ok List.perm_append_comm

theorem branch_assoc : SamePaths (.branch (.branch a b) c) (.branch a (.branch b c)) := by
  refine .of_eq fun machine reserved s => ?_
  simp only [Machine.paths_branch, bind_assoc, pure_bind, List.append_assoc]

theorem branch_fail : SamePaths (.branch a .fail) a := by
  refine .of_eq fun machine reserved s => ?_
  simp only [Machine.paths_branch, Machine.paths_fail]
  cases machine.paths reserved a s with
  | error e => rfl
  | ok left => exact congrArg Except.ok (List.append_nil left)

theorem fail_branch : SamePaths (.branch .fail a) a := (branch_comm .fail a).trans (branch_fail a)

end Branch

/-! ## Sequence -/

section Sequence

variable (a b c : Program V)

theorem seq_assoc : SamePaths (.seq (.seq a b) c) (.seq a (.seq b c)) := by
  intro machine reserved s
  simp only [Machine.paths_seq]
  cases machine.paths reserved a s with
  | error e => exact .error trivial
  | ok middle =>
    -- The states after `a` are taken through `b` and `c` stage by stage, or each by itself.
    have hstages := (gather_bind (machine.paths reserved b) (machine.paths reserved c) middle).symm
    exact hstages.mono (fun _ _ he => he) fun _ _ heq => .of_eq heq.symm

theorem skip_seq : SamePaths (.seq .skip a) a := by
  refine .of_eq fun machine reserved s => ?_
  simp only [Machine.paths_seq, Machine.paths_skip]
  exact gather_singleton _ s

theorem seq_skip : SamePaths (.seq a .skip) a := by
  refine .of_eq fun machine reserved s => ?_
  simp only [Machine.paths_seq, Machine.paths_skip]
  cases machine.paths reserved a s with
  | error e => rfl
  | ok middle => exact (gather_ok _ middle).trans (congrArg Except.ok (List.flatMap_singleton' middle))

/-- What stands behind a failure is not run, whatever it is. -/
theorem fail_seq : SamePaths (.seq .fail a) .fail := by
  refine .of_eq fun machine reserved s => ?_
  simp only [Machine.paths_seq, Machine.paths_fail]
  rfl

/-! ## Distributivity -/

theorem branch_seq : SamePaths (.seq (.branch a b) c) (.branch (.seq a c) (.seq b c)) := by
  intro machine reserved s
  simp only [Machine.paths_seq, Machine.paths_branch]
  cases machine.paths reserved a s with
  | error e => exact .error trivial
  | ok left =>
    cases machine.paths reserved b s with
    | error e =>
      -- The right side runs `c` behind `a` before it meets the fault of `b`.
      show Alike _ _ (.error e) (gather (machine.paths reserved c) left >>= fun _ => .error e)
      cases gather (machine.paths reserved c) left <;> exact .error trivial
    | ok right =>
      show Alike _ _ (gather (machine.paths reserved c) (left ++ right)) _
      rw [gather_append]
      exact alike_perm_refl _

theorem seq_branch : SamePaths (.seq a (.branch b c)) (.branch (.seq a b) (.seq a c)) := by
  intro machine reserved s
  simp only [Machine.paths_seq, Machine.paths_branch]
  cases machine.paths reserved a s with
  | error e => exact .error trivial
  | ok middle => exact gather_both _ _ middle

end Sequence

/-- The laws of programs: a commutative sum, a product, and distributivity on both sides. A failure
absorbs what stands behind it. -/
theorem semiring_laws (a b c : Program V) :
    SameRuns (.branch a b) (.branch b a) ∧
      SameRuns (.branch (.branch a b) c) (.branch a (.branch b c)) ∧
      SameRuns (.branch a .fail) a ∧
      SameRuns (.branch .fail a) a ∧
      SameRuns (.seq (.seq a b) c) (.seq a (.seq b c)) ∧
      SameRuns (.seq .skip a) a ∧
      SameRuns (.seq a .skip) a ∧
      SameRuns (.seq .fail a) .fail ∧
      SameRuns (.seq (.branch a b) c) (.branch (.seq a c) (.seq b c)) ∧
      SameRuns (.seq a (.branch b c)) (.branch (.seq a b) (.seq a c)) :=
  ⟨(branch_comm a b).sameRuns, (branch_assoc a b c).sameRuns, (branch_fail a).sameRuns,
    (fail_branch a).sameRuns, (seq_assoc a b c).sameRuns, (skip_seq a).sameRuns, (seq_skip a).sameRuns,
    (fail_seq a).sameRuns, (branch_seq a b c).sameRuns, (seq_branch a b c).sameRuns⟩

/-- A loop that may not do a single round diverges, but not behind a failure. -/
theorem semiring_laws_loopBehindFail :
    Machine.run { config := { maxIterations := 0 } } (.iterate .skip)
        (.ofAlphabet ["l"] : State String) = .error (.divergence 0) ∧
      ∃ r, Machine.run { config := { maxIterations := 0 } } (.seq .fail (.iterate .skip))
        (.ofAlphabet ["l"] : State String) = .ok r ∧ r == .empty := by
  obtain ⟨_, _, _, _, _, _, _, hfail, _, _⟩ := semiring_laws (.iterate .skip : Program String) .skip .skip
  have hnone : Machine.run { config := { maxIterations := 0 } } .fail
      (.ofAlphabet ["l"] : State String) = .ok .empty := by cbv
  have hok : (Machine.run { config := { maxIterations := 0 } } (.seq .fail (.iterate .skip))
      (.ofAlphabet ["l"] : State String)).isOk := by decide +kernel
  obtain ⟨r, hr⟩ := exists_ok_of_isOk hok
  exact ⟨by cbv, r, hr, (hfail _ rfl _).beq r .empty hr hnone⟩

-- Paths are counted, so a branch between equal programs is not the program itself.
example : ¬ SameRuns (.branch .skip .skip) (.skip : Program String) := by
  intro h
  have hskip : Machine.run {} .skip (.ofAlphabet [] : State String) =
      .ok (.singleton (.ofAlphabet [])) := by cbv
  have hbranch : (Machine.run {} (.branch .skip .skip) (.ofAlphabet [] : State String)).toOption.any
      fun r => !(r == .singleton (.ofAlphabet [])) := by decide +kernel
  obtain ⟨r, hr, hne⟩ := exists_ok_of_any hbranch
  rw [(h {} rfl _).beq r _ hr hskip] at hne
  cases hne

end Program

end StackCalculus
