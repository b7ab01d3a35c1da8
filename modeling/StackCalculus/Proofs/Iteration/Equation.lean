import Mathlib
import StackCalculus.Proofs.Adequacy
import StackCalculus.Proofs.Iteration.Rounds

/-!
# The equation of an iteration

An iteration does nothing, or its body and then the iteration. The loop never applies its body to all
states that it has found, only to the newest ones; its outcome solves the equation nevertheless,
counts included (`run_iterate_equation`). About paths this is a fact about layers, `layers_equation`.
That the unfolded program does not overflow is seen from the loop itself: started one round later, it
goes through the same states with smaller sums (`exists_closeFrom_later`).
-/

namespace StackCalculus

/-- The layers of a frontier are the frontier and what the body takes all the layers to. -/
theorem layers_equation {V : Type} {bound : Nat} {body : State V → Except Fault (List (State V))}
    {budget : Nat} {frontier all : List (State V)} (h : layers bound body budget frontier = .ok all) :
    ∃ rest, gather body all = .ok rest ∧ all.Perm (frontier ++ rest) := by
  induction budget generalizing frontier all with
  | zero =>
    by_cases hempty : frontier = []
    · subst hempty
      rw [layers_nil] at h
      cases h
      exact ⟨[], rfl, .refl _⟩
    · rw [layers_zero bound body hempty] at h
      cases h
  | succ budget ih =>
    obtain ⟨next, later, hnext, hlater, rfl⟩ := (layers_succ_eq_ok_iff ..).mp h
    obtain ⟨rest, hrest, hperm⟩ := ih hlater
    refine ⟨next ++ rest, ?_, hperm.append_left frontier⟩
    exact (gather_append_eq_ok_iff ..).mpr ⟨next, rest, hnext, hrest, rfl⟩

namespace Machine

variable {V : Type} [DecidableEq V] {machine : Machine}

/-! ## A loop one round later -/

section Loop

variable {body : Configuration V → Except Fault (Configuration V)} {budget rounds : Nat}
variable {sum frontier : Configuration V} {fixpoint : Fixpoint V}

/-- A loop that succeeds also does so with more rounds left and with a part `w` of its sum taken out,
and then that part is missing from its outcome. -/
theorem exists_closeFrom_later (hlimit : machine.config.timeLimit = none) {budget' : Nat}
    (hle : budget ≤ budget') (rounds' : Nat) {sum' : Configuration V} {w : State V → Nat}
    (hsum : ∀ t, sum.count t = w t + sum'.count t)
    (h : machine.closeFrom body budget rounds sum frontier = .ok fixpoint) :
    ∃ fixpoint', machine.closeFrom body budget' rounds' sum' frontier = .ok fixpoint' ∧
      ∀ t, fixpoint.configuration.count t = w t + fixpoint'.configuration.count t := by
  induction budget using Nat.strongRecOn generalizing budget' rounds rounds' sum sum' frontier with
  | _ budget ih =>
    by_cases hstates : frontier.isEmpty
    · rw [machine.closeFrom_of_isEmpty _ _ _ _ hstates] at h
      rw [machine.closeFrom_of_isEmpty _ _ _ _ hstates]
      cases h
      exact ⟨⟨sum', rounds'⟩, rfl, hsum⟩
    · obtain ⟨left, next, grown, rfl, hnext, hgrown, h⟩ := exists_first_round hlimit hstates h
      obtain ⟨left', rfl⟩ := Nat.exists_eq_add_of_le' (Nat.le_trans (Nat.le_add_left 1 left) hle)
      -- The smaller sum grows by the same states and stays below the one that fits.
      have hcount : ∀ t, grown.count t = w t + (sum'.count t + next.count t) := fun t => by
        rw [Bag.count_union hgrown, hsum, Nat.add_assoc]
      have hfits : ∀ t, sum'.count t + next.count t ≤ maxCount := fun t =>
        (Nat.le_add_left _ (w t)).trans ((hcount t).symm.trans_le (grown.count_le t))
      obtain ⟨grown', hgrown', hcount'⟩ := (sum'.checked_union next).exists_ok hfits
      rw [closeFrom_round hlimit hstates hnext hgrown']
      refine ih left (Nat.lt_succ_self left) (Nat.le_of_succ_le_succ hle) _ (fun t => ?_) h
      rw [hcount, hcount']

end Loop

/-! ## A branch from one state -/

variable [ToString V]

/-- A branch succeeds from a state if both sides do and their outcomes fit together. -/
theorem exists_run_branch {p q : Program V} {s : State V} {a b : Configuration V}
    (ha : machine.run p s = .ok a) (hb : machine.run q s = .ok b)
    (hfits : ∀ t, a.count t + b.count t ≤ maxCount) :
    ∃ r, machine.run (.branch p q) s = .ok r ∧ ∀ t, r.count t = a.count t + b.count t := by
  rw [run_eq_step] at ha hb ⊢
  obtain ⟨both, hboth, hcount⟩ := (a.checked_union b).exists_ok hfits
  refine ⟨both, ?_, hcount⟩
  rw [step, exec_branch, forEach_singleton]
  show machine.step p (.singleton s) >>= (fun left => machine.step q (.singleton s) >>= left.union) = _
  rw [ha, hb]
  exact hboth

/-! ## The equation -/

variable {b : Program V} {s : State V} {fix : Configuration V}

/-- After the body, the iteration reaches what it reaches from the start, but for the start itself. -/
theorem exists_run_seq_iterate (hlimit : machine.config.timeLimit = none)
    (h : machine.run (.iterate b) s = .ok fix) :
    ∃ r, machine.run (.seq b (.iterate b)) s = .ok r ∧
      ∀ t, fix.count t = (Bag.singleton s).count t + r.count t := by
  rw [run_eq_step, step, exec_iterate] at h
  cases hclose : (machine.close (machine.exec [] b) (.singleton s) : Except Fault (Fixpoint V)) with
  | error e =>
    rw [hclose] at h
    cases h
  | ok fixpoint =>
    rw [hclose] at h
    cases h
    have hstates : ¬ (Bag.singleton s).isEmpty := Bool.false_ne_true
    obtain ⟨left, next, grown, hbound, hnext, hgrown, hrest⟩ :=
      exists_first_round hlimit hstates hclose
    have hle : left ≤ machine.config.maxIterations := by omega
    obtain ⟨fixpoint', hfixpoint', hcount⟩ :=
      exists_closeFrom_later hlimit hle 0 (Bag.count_union hgrown) hrest
    refine ⟨fixpoint'.configuration, ?_, hcount⟩
    rw [run_eq_step, step, exec_seq, hnext]
    show machine.exec [] (.iterate b) next = _
    rw [exec_iterate, close, hfixpoint']
    rfl

/-- The body takes the outcome of an iteration to that outcome without the start, if the counts on
the way fit. -/
theorem step_iterate_outcome (hlimit : machine.config.timeLimit = none)
    (h : machine.run (.iterate b) s = .ok fix) :
    machine.step b fix = .error .multiplicityOverflow ∨
      ∃ r, machine.step b fix = .ok r ∧ ∀ t, fix.count t = (Bag.singleton s).count t + r.count t := by
  have htracks := tracks_run hlimit (.iterate b) s
  rw [h, paths] at htracks
  obtain ⟨all, hall, hfix⟩ := htracks.exists_list
  obtain ⟨rest, hrest, hperm⟩ := layers_equation hall
  have hstep : Tracks (gather (machine.paths [] b) all) (machine.step b fix) :=
    machine.tracks_exec hlimit [] b hfix
  rw [hrest] at hstep
  rcases hstep.ok_or_overflow with ⟨r, hr⟩ | hover
  · rw [hr] at hstep
    obtain ⟨_, heq, hrepresents⟩ := hstep.exists_list
    cases heq
    refine .inr ⟨r, hr, fun t => ?_⟩
    rw [hfix t, SameCounts.of_perm hperm t, List.count_append, represents_singleton s t, hrepresents t]
  · exact .inl hover

/-- If an iteration succeeds, so does the branch between doing nothing and the body followed by the
iteration, with the same outcome. The outcome is the start together with what the body takes the
outcome to, unless an overflow prevents the latter. -/
theorem run_iterate_equation (hlimit : machine.config.timeLimit = none) (b : Program V) (s : State V)
    (fix : Configuration V) (h : machine.run (.iterate b) s = .ok fix) :
    (∃ fix', machine.run (.branch .skip (.seq b (.iterate b))) s = .ok fix' ∧ fix' == fix) ∧
      (machine.step b fix = .error .multiplicityOverflow ∨
        ∃ r sum, machine.step b fix = .ok r ∧ (Bag.singleton s).union r = .ok sum ∧ sum == fix) := by
  have hskip : machine.run .skip s = .ok (.singleton s) := by
    rw [run_eq_step, step, exec_skip]
  -- Added to the start, the counts are those of the outcome, and these fit.
  have hfits : ∀ r : Configuration V, (∀ t, fix.count t = (Bag.singleton s).count t + r.count t) →
      ∀ t, (Bag.singleton s).count t + r.count t ≤ maxCount := fun r hr t => by
    rw [← hr]
    exact fix.count_le t
  constructor
  · obtain ⟨r, hr, hcount⟩ := exists_run_seq_iterate hlimit h
    obtain ⟨fix', hfix', hcount'⟩ := exists_run_branch hskip hr (hfits r hcount)
    refine ⟨fix', hfix', (Bag.beq_iff_count_eq fix' fix).mpr fun t => ?_⟩
    rw [hcount', hcount]
  · refine (step_iterate_outcome hlimit h).imp_right ?_
    rintro ⟨r, hr, hcount⟩
    obtain ⟨sum, hsum, hcount'⟩ := ((Bag.singleton s).checked_union r).exists_ok (hfits r hcount)
    refine ⟨r, sum, hr, hsum, (Bag.beq_iff_count_eq sum fix).mpr fun t => ?_⟩
    rw [hcount', hcount]

/-- Popped in two ways, the value leaves a state that counts twice: in the outcome of the iteration,
of its unfolding, and of the body applied to the outcome. -/
theorem run_iterate_equation_popEitherWay :
    ∃ fix, run {} (.iterate popEitherWay) oneValue = .ok fix ∧ fix.count (.ofAlphabet ["l"]) = 2 ∧
      (∃ fix', run {} (.branch .skip (.seq popEitherWay (.iterate popEitherWay))) oneValue = .ok fix' ∧
        fix' == fix) ∧
      ∃ r sum, step {} popEitherWay fix = .ok r ∧ (Bag.singleton oneValue).union r = .ok sum ∧
        sum == fix := by
  have htwice : (run {} (.iterate popEitherWay) oneValue).toOption.any fun fix =>
      fix.count (.ofAlphabet ["l"]) == 2 && (step {} popEitherWay fix).isOk := by decide +kernel
  obtain ⟨fix, hfix, hcount⟩ := exists_ok_of_any htwice
  obtain ⟨hcount, hok⟩ := Bool.and_eq_true_iff.mp hcount
  obtain ⟨hunfold, hbody⟩ := run_iterate_equation rfl popEitherWay oneValue fix hfix
  refine ⟨fix, hfix, beq_iff_eq.mp hcount, hunfold, hbody.resolve_left fun hover => ?_⟩
  rw [hover] at hok
  cases hok

end Machine

end StackCalculus
