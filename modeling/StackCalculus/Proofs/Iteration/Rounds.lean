import Mathlib
import StackCalculus.Equality
import StackCalculus.Machine.Equations
import StackCalculus.Proofs.Counting

/-!
# Rounds of an iteration

An iteration applies its body to the newest states, round after round, and adds up the states of all
rounds. `afterRounds` gives the states after each round with no bound on their number, and `reachedBy`
adds up their counts with no bound on the sums. `Ending` lists how the loop can end in terms of these
two, and `ending_close` is the specification of the loop: its invariant `Reaches` is kept by every
round. When the loop succeeds, when it diverges and what it then reports is read off the endings.

A loop inside the body may diverge as well. To tell the two apart, the loop is run in the monad
`Sourced`, which keeps what a computation raises itself apart from what it passes on.
-/

namespace StackCalculus

/-! ## Faults and where they come from -/

/-- The result of a computation that calls others: a fault is raised by the computation itself, or it
is passed on from one that it calls. -/
inductive Sourced (α : Type) where
  | ok (a : α)
  | raised (fault : Fault)
  | passed (fault : Fault)

namespace Sourced

variable {α : Type}

/-- Calls a computation. -/
def call : Except Fault α → Sourced α
  | .ok a => ok a
  | .error fault => passed fault

/-- The result without the source of its fault. -/
def forget : Sourced α → Except Fault α
  | ok a => .ok a
  | raised fault | passed fault => .error fault

instance : Monad Sourced where
  pure := ok
  bind x f :=
    match x with
    | ok a => f a
    | raised fault => raised fault
    | passed fault => passed fault

instance : MonadExcept Fault Sourced where
  throw := raised
  tryCatch x handle :=
    match x with
    | ok a => ok a
    | raised fault | passed fault => handle fault

instance {ε : Type} : MonadReport ε Sourced := ⟨fun _ => ok ()⟩

theorem forget_eq_ok_iff {x : Sourced α} {a : α} : x.forget = .ok a ↔ x = ok a := by
  cases x <;> simp [forget]

theorem forget_call (x : Except Fault α) : (call x).forget = x := by
  cases x <;> rfl

theorem forget_ofExcept (x : Except Fault α) : (ofExcept x : Sourced α).forget = x := by
  cases x <;> rfl

theorem forget_bind {β : Type} (x : Sourced α) (f : α → Sourced β) :
    (x >>= f).forget = x.forget >>= fun a => (f a).forget := by
  cases x <;> rfl

end Sourced

/-! ## The states of each round -/

section Rounds

variable {V : Type} [DecidableEq V] (body : Configuration V → Except Fault (Configuration V))
variable (start : Configuration V)

/-- The states after a number of rounds, if none of the rounds fails. -/
def afterRounds : Nat → Except Fault (Configuration V)
  | 0 => .ok start
  | k + 1 => afterRounds k >>= body

/-- The count of a state after a number of rounds. There is none after a round that failed. -/
def countAfter (k : Nat) (t : State V) : Nat :=
  match afterRounds body start k with
  | .ok c => c.count t
  | .error _ => 0

/-- How often a state is reached by the start and the rounds up to the `k`-th. -/
def reachedBy (k : Nat) (t : State V) : Nat := ∑ i ∈ Finset.range (k + 1), countAfter body start i t

/-- The rounds up to the `k`-th succeed, the last of them leaves no state, and all their states fit
into one configuration. -/
structure Exhausts (k : Nat) : Prop where
  ok : ∀ i ≤ k, ∃ c, afterRounds body start i = .ok c
  isEmpty : ∃ c, afterRounds body start k = .ok c ∧ c.isEmpty
  fits : ∀ t, reachedBy body start k t ≤ maxCount

/-- The rounds up to the `k`-th succeed, each of them leaves a state, and all their states fit into
one configuration. -/
structure Persists (k : Nat) : Prop where
  ok : ∀ i ≤ k, ∃ c, afterRounds body start i = .ok c ∧ ¬ c.isEmpty
  fits : ∀ t, reachedBy body start k t ≤ maxCount

variable {body start}

theorem countAfter_of_ok {k : Nat} {c : Configuration V} (h : afterRounds body start k = .ok c)
    (t : State V) : countAfter body start k t = c.count t := by
  unfold countAfter
  rw [h]

theorem afterRounds_succ {k : Nat} {c : Configuration V} (h : afterRounds body start k = .ok c) :
    afterRounds body start (k + 1) = body c := by
  rw [afterRounds, h]
  rfl

theorem reachedBy_succ (k : Nat) (t : State V) :
    reachedBy body start (k + 1) t = reachedBy body start k t + countAfter body start (k + 1) t :=
  Finset.sum_range_succ ..

theorem reachedBy_mono {j k : Nat} (h : j ≤ k) (t : State V) :
    reachedBy body start j t ≤ reachedBy body start k t :=
  Finset.sum_le_sum_of_subset (Finset.range_subset_range.mpr (Nat.succ_le_succ h))

theorem Exhausts.isEmpty_of_ok {k : Nat} (h : Exhausts body start k) {c : Configuration V}
    (hc : afterRounds body start k = .ok c) : c.isEmpty := by
  obtain ⟨c', hc', hempty⟩ := h.isEmpty
  cases hc.symm.trans hc'
  exact hempty

/-! ## The invariant of the loop -/

variable (body start) in
/-- The loop is after so many rounds, none of which exhausted the states: `frontier` are the states
of the last one and `sum` those of all. -/
structure Reaches (rounds : Nat) (sum frontier : Configuration V) : Prop where
  ok : ∀ i < rounds, ∃ c, afterRounds body start i = .ok c ∧ ¬ c.isEmpty
  frontier : afterRounds body start rounds = .ok frontier
  sum : ∀ t, sum.count t = reachedBy body start rounds t

namespace Reaches

variable {rounds : Nat} {sum frontier next grown : Configuration V}

theorem zero : Reaches body start 0 start start where
  ok i hi := absurd hi (Nat.not_lt_zero i)
  frontier := rfl
  sum t := by
    rw [reachedBy, Finset.sum_range_one]
    exact (countAfter_of_ok rfl t).symm

theorem reachedBy_next (h : Reaches body start rounds sum frontier) (hnext : body frontier = .ok next)
    (t : State V) : reachedBy body start (rounds + 1) t = sum.count t + next.count t := by
  rw [reachedBy_succ, h.sum, countAfter_of_ok ((afterRounds_succ h.frontier).trans hnext)]

theorem ok_of_not_isEmpty (h : Reaches body start rounds sum frontier) (hstates : ¬ frontier.isEmpty)
    {i : Nat} (hi : i ≤ rounds) : ∃ c, afterRounds body start i = .ok c ∧ ¬ c.isEmpty := by
  rcases Nat.lt_or_eq_of_le hi with hlt | rfl
  · exact h.ok i hlt
  · exact ⟨frontier, h.frontier, hstates⟩

/-- One round more. -/
theorem succ (h : Reaches body start rounds sum frontier) (hstates : ¬ frontier.isEmpty)
    (hnext : body frontier = .ok next) (hgrown : sum.union next = .ok grown) :
    Reaches body start (rounds + 1) grown next where
  ok i hi := h.ok_of_not_isEmpty hstates (Nat.le_of_lt_succ hi)
  frontier := (afterRounds_succ h.frontier).trans hnext
  sum t := by rw [Bag.count_union hgrown, h.reachedBy_next hnext]

/-- While there are states, the loop has not come to an exhausted round. -/
theorem lt_of_exhausts (h : Reaches body start rounds sum frontier) (hstates : ¬ frontier.isEmpty)
    {k : Nat} (hk : Exhausts body start k) : rounds < k := by
  by_contra hle
  obtain ⟨c, hc, hstates⟩ := h.ok_of_not_isEmpty hstates (Nat.le_of_not_lt hle)
  exact hstates (hk.isEmpty_of_ok hc)

theorem fits (h : Reaches body start rounds sum frontier) (t : State V) :
    reachedBy body start rounds t ≤ maxCount := by
  rw [← h.sum]
  exact sum.count_le t

theorem exhausts (h : Reaches body start rounds sum frontier) (hempty : frontier.isEmpty) :
    Exhausts body start rounds where
  ok i hi := by
    rcases Nat.lt_or_eq_of_le hi with hlt | rfl
    · obtain ⟨c, hc, _⟩ := h.ok i hlt
      exact ⟨c, hc⟩
    · exact ⟨frontier, h.frontier⟩
  isEmpty := ⟨frontier, h.frontier, hempty⟩
  fits := h.fits

theorem persists (h : Reaches body start rounds sum frontier) (hstates : ¬ frontier.isEmpty) :
    Persists body start rounds where
  ok _ hi := h.ok_of_not_isEmpty hstates hi
  fits := h.fits

end Reaches

/-! ## The endings of the loop -/

variable (body start) in
/-- How a loop of at most `bound` rounds can end: without states; with states after the last round;
with a sum that does not fit; or with a fault of its body. -/
inductive Ending (bound : Nat) : Sourced (Fixpoint V) → Prop where
  | exhausted {rounds : Nat} {sum frontier : Configuration V}
      (h : Reaches body start rounds sum frontier) (hle : rounds ≤ bound)
      (hempty : frontier.isEmpty) : Ending bound (.ok ⟨sum, rounds⟩)
  | diverged {sum frontier : Configuration V} (h : Reaches body start bound sum frontier)
      (hstates : ¬ frontier.isEmpty) : Ending bound (.raised (.divergence bound))
  | overflow {rounds : Nat} {sum frontier next : Configuration V} {t : State V}
      (h : Reaches body start rounds sum frontier) (hlt : rounds < bound)
      (hstates : ¬ frontier.isEmpty) (hnext : body frontier = .ok next)
      (hover : maxCount < sum.count t + next.count t) : Ending bound (.raised .multiplicityOverflow)
  | fault {rounds : Nat} {sum frontier : Configuration V} {e : Fault}
      (h : Reaches body start rounds sum frontier) (hlt : rounds < bound)
      (hstates : ¬ frontier.isEmpty) (hfault : body frontier = .error e) : Ending bound (.passed e)

namespace Ending

variable {bound : Nat} {x : Sourced (Fixpoint V)}

/-- Before an exhausted round the loop ends in no other way: a sum that does not fit is below the sum
of all rounds. -/
theorem exists_ok (h : Ending body start bound x) {k : Nat} (hle : k ≤ bound)
    (hk : Exhausts body start k) : ∃ fixpoint, x = .ok fixpoint := by
  cases h with
  | exhausted _ _ _ => exact ⟨_, rfl⟩
  | diverged h hstates => exact absurd hle (Nat.not_le_of_lt (h.lt_of_exhausts hstates hk))
  | @overflow rounds sum frontier next t h _ hstates hnext hover =>
    have hpart : reachedBy body start (rounds + 1) t ≤ maxCount :=
      (reachedBy_mono (h.lt_of_exhausts hstates hk) t).trans (hk.fits t)
    rw [h.reachedBy_next hnext] at hpart
    exact absurd hpart (Nat.not_le_of_lt hover)
  | fault h _ hstates hfault =>
    obtain ⟨c, hc⟩ := hk.ok _ (h.lt_of_exhausts hstates hk)
    rw [afterRounds_succ h.frontier, hfault] at hc
    cases hc

theorem eq_diverged (h : Ending body start bound x) (hpersists : Persists body start bound) :
    x = .raised (.divergence bound) := by
  cases h with
  | exhausted h hle hempty =>
    obtain ⟨c, hc, hstates⟩ := hpersists.ok _ hle
    cases h.frontier.symm.trans hc
    exact absurd hempty hstates
  | diverged _ _ => rfl
  | @overflow rounds sum frontier next t h hlt _ hnext hover =>
    have hpart : reachedBy body start (rounds + 1) t ≤ maxCount :=
      (reachedBy_mono hlt t).trans (hpersists.fits t)
    rw [h.reachedBy_next hnext] at hpart
    exact absurd hpart (Nat.not_le_of_lt hover)
  | fault h hlt _ hfault =>
    obtain ⟨c, hc, _⟩ := hpersists.ok _ hlt
    rw [afterRounds_succ h.frontier, hfault] at hc
    cases hc

theorem isLeast {fixpoint : Fixpoint V} (h : Ending body start bound (.ok fixpoint)) :
    IsLeast {k | k ≤ bound ∧ Exhausts body start k} fixpoint.rounds ∧
      ∀ t, fixpoint.configuration.count t = reachedBy body start fixpoint.rounds t := by
  cases h with
  | exhausted h hle hempty =>
    refine ⟨⟨⟨hle, h.exhausts hempty⟩, ?_⟩, h.sum⟩
    rintro k ⟨_, hk⟩
    -- An exhausted round before the last one would have ended the loop.
    by_contra hlt
    obtain ⟨c, hc, hstates⟩ := h.ok k (Nat.lt_of_not_le hlt)
    exact hstates (hk.isEmpty_of_ok hc)

theorem persists {rounds : Nat} (h : Ending body start bound (.raised (.divergence rounds))) :
    rounds = bound ∧ Persists body start bound := by
  cases h with
  | diverged h hstates => exact ⟨rfl, h.persists hstates⟩

end Ending

end Rounds

namespace Machine

variable {V : Type} [DecidableEq V]

/-! ## One round -/

section Round

variable {machine : Machine} {body : Configuration V → Except Fault (Configuration V)}
variable {budget rounds : Nat} {sum frontier : Configuration V} {fixpoint : Fixpoint V}

theorem closeFrom_round (hlimit : machine.config.timeLimit = none) (hstates : ¬ frontier.isEmpty)
    {next grown : Configuration V} (hnext : body frontier = .ok next)
    (hgrown : sum.union next = .ok grown) :
    machine.closeFrom body (budget + 1) rounds sum frontier =
      machine.closeFrom body budget (rounds + 1) grown next := by
  rw [machine.closeFrom_succ _ _ _ _ hlimit hstates, hnext]
  show (ofExcept (sum.union next) >>= fun grown => _ : Except Fault (Fixpoint V)) = _
  rw [hgrown]
  rfl

/-- A loop that succeeds from some states has a first round. -/
theorem exists_first_round (hlimit : machine.config.timeLimit = none) (hstates : ¬ frontier.isEmpty)
    (h : machine.closeFrom body budget rounds sum frontier = .ok fixpoint) :
    ∃ left next grown, budget = left + 1 ∧ body frontier = .ok next ∧ sum.union next = .ok grown ∧
      machine.closeFrom body left (rounds + 1) grown next = .ok fixpoint := by
  cases budget with
  | zero =>
    rw [machine.closeFrom_zero _ _ _ hlimit hstates] at h
    cases h
  | succ left =>
    rw [machine.closeFrom_succ _ _ _ _ hlimit hstates] at h
    simp only [report_eq, ofExcept_eq, bind_eq_ok_iff] at h
    obtain ⟨next, hnext, _, _, grown, hgrown, h⟩ := h
    exact ⟨left, next, grown, rfl, hnext, hgrown, h⟩

end Round

/-! ## The whole loop -/

variable (machine : Machine) (body : Configuration V → Except Fault (Configuration V))

/-- Without the sources of its faults, a loop is the loop that calls its body directly. -/
theorem forget_closeFrom (budget rounds : Nat) (sum frontier : Configuration V) :
    (machine.closeFrom (fun c => Sourced.call (body c)) budget rounds sum frontier).forget =
      machine.closeFrom body budget rounds sum frontier := by
  induction budget generalizing rounds sum frontier with
  | zero =>
    unfold closeFrom
    split
    · rfl
    · split <;> rfl
  | succ budget ih =>
    unfold closeFrom
    split
    · rfl
    · split
      · rfl
      · simp only [Sourced.forget_bind, Sourced.forget_call, Sourced.forget_ofExcept, ih, ofExcept_eq]
        rfl

/-- A loop ends in one of the listed ways. The induction is on the rounds that are left; what it
carries along is that the loop has come to its present states. -/
theorem ending_closeFrom (hlimit : machine.config.timeLimit = none) {start : Configuration V}
    (budget : Nat) {rounds : Nat} {sum frontier : Configuration V}
    (h : Reaches body start rounds sum frontier) :
    Ending body start (rounds + budget)
      (machine.closeFrom (fun c => Sourced.call (body c)) budget rounds sum frontier) := by
  induction budget generalizing rounds sum frontier with
  | zero =>
    by_cases hstates : frontier.isEmpty
    · rw [machine.closeFrom_of_isEmpty _ _ _ _ hstates]
      exact .exhausted h (Nat.le_add_right rounds 0) hstates
    · rw [machine.closeFrom_zero _ _ _ hlimit hstates]
      exact .diverged h hstates
  | succ budget ih =>
    by_cases hstates : frontier.isEmpty
    · rw [machine.closeFrom_of_isEmpty _ _ _ _ hstates]
      exact .exhausted h (Nat.le_add_right rounds _) hstates
    · have hlt : rounds < rounds + (budget + 1) := Nat.lt_add_of_pos_right (Nat.succ_pos budget)
      rw [machine.closeFrom_succ _ _ _ _ hlimit hstates]
      cases hnext : body frontier with
      | error e => exact .fault h hlt hstates hnext
      | ok next =>
        show Ending _ _ _ (ofExcept (sum.union next) >>= fun grown => _)
        have hunion := sum.checked_union next
        cases hgrown : sum.union next with
        | error e =>
          rw [hgrown] at hunion
          cases hunion with
          | overflow hover => exact .overflow h hlt hstates hnext hover
        | ok grown =>
          rw [Nat.add_comm budget, ← Nat.add_assoc]
          exact ih (h.succ hstates hnext hgrown)

/-- The specification of an iteration. -/
theorem ending_close (hlimit : machine.config.timeLimit = none) (start : Configuration V) :
    Ending body start machine.config.maxIterations
      (machine.close (fun c => Sourced.call (body c)) start) := by
  have hstart : Reaches body start 0 start start := .zero
  have h := machine.ending_closeFrom body hlimit machine.config.maxIterations hstart
  rwa [Nat.zero_add] at h

/-! ## The bounded fixpoint -/

variable [ToString V]

/-- Iterates a program, with the faults of the loop apart from those of the program. -/
def fixpointSourced (machine : Machine) (body : Program V) (start : Configuration V) :
    Sourced (Fixpoint V) :=
  machine.close (fun frontier => .call (machine.step body frontier)) start

section Outcome

variable {machine} (hlimit : machine.config.timeLimit = none) {body : Program V}
  {start : Configuration V}

include hlimit

/-- An iteration with an exhausted round within its bound succeeds. -/
theorem exists_fixpoint_of_exhausts {k : Nat} (hle : k ≤ machine.config.maxIterations)
    (hk : Exhausts (machine.step body) start k) :
    ∃ fixpoint, machine.fixpoint body start = .ok fixpoint ∧
      IsLeast {k | k ≤ machine.config.maxIterations ∧ Exhausts (machine.step body) start k}
        fixpoint.rounds ∧
      ∀ t, fixpoint.configuration.count t = reachedBy (machine.step body) start fixpoint.rounds t := by
  have hending := machine.ending_close (machine.step body) hlimit start
  obtain ⟨fixpoint, hfixpoint⟩ := hending.exists_ok hle hk
  rw [hfixpoint] at hending
  refine ⟨fixpoint, ?_, hending.isLeast⟩
  exact (machine.forget_closeFrom (machine.step body) ..).symm.trans (congrArg Sourced.forget hfixpoint)

/-- An iteration with states in all its rounds reports its bound. -/
theorem fixpoint_of_persists
    (hpersists : Persists (machine.step body) start machine.config.maxIterations) :
    machine.fixpoint body start = .error (.divergence machine.config.maxIterations) := by
  have hdiverged := (machine.ending_close (machine.step body) hlimit start).eq_diverged hpersists
  exact (machine.forget_closeFrom (machine.step body) ..).symm.trans (congrArg Sourced.forget hdiverged)

end Outcome

/-- An iteration succeeds exactly when some round within the bound exhausts the states and all states
fit into one configuration; it then stops at the first such round with the sum of all rounds. The
loop itself diverges exactly when all rounds up to the bound leave states that fit, and it reports the
bound. -/
theorem fixpoint_exact (hlimit : machine.config.timeLimit = none) (body : Program V)
    (start : Configuration V) :
    ((∃ fixpoint, machine.fixpoint body start = .ok fixpoint) ↔
      ∃ k ≤ machine.config.maxIterations, Exhausts (machine.step body) start k) ∧
    (∀ fixpoint, machine.fixpoint body start = .ok fixpoint →
      IsLeast {k | k ≤ machine.config.maxIterations ∧ Exhausts (machine.step body) start k}
          fixpoint.rounds ∧
        ∀ t, fixpoint.configuration.count t = reachedBy (machine.step body) start fixpoint.rounds t) ∧
    (machine.fixpointSourced body start).forget = machine.fixpoint body start ∧
    ∀ rounds, machine.fixpointSourced body start = .raised (.divergence rounds) ↔
      rounds = machine.config.maxIterations ∧
        Persists (machine.step body) start machine.config.maxIterations := by
  have hforget : (machine.fixpointSourced body start).forget = machine.fixpoint body start :=
    machine.forget_closeFrom (machine.step body) ..
  have hending : Ending (machine.step body) start machine.config.maxIterations
      (machine.fixpointSourced body start) := machine.ending_close (machine.step body) hlimit start
  have hok : ∀ fixpoint, machine.fixpoint body start = .ok fixpoint ↔
      machine.fixpointSourced body start = .ok fixpoint := by
    intro fixpoint
    rw [← hforget, Sourced.forget_eq_ok_iff]
  refine ⟨⟨?_, ?_⟩, fun fixpoint hfixpoint => ?_, hforget, fun rounds => ⟨fun hraised => ?_, ?_⟩⟩
  · rintro ⟨fixpoint, hfixpoint⟩
    rw [(hok fixpoint).mp hfixpoint] at hending
    exact ⟨fixpoint.rounds, hending.isLeast.1.1⟩
  · rintro ⟨k, hle, hk⟩
    obtain ⟨fixpoint, hfixpoint⟩ := hending.exists_ok hle hk
    exact ⟨fixpoint, (hok fixpoint).mpr hfixpoint⟩
  · rw [(hok fixpoint).mp hfixpoint] at hending
    exact hending.isLeast
  · rw [hraised] at hending
    exact hending.persists
  · rintro ⟨rfl, hpersists⟩
    exact hending.eq_diverged hpersists

/-- A state with one value on its stack. -/
def oneValue : State String := ⟨⟨.ofList [("l", .ofList [.value "v"])]⟩, .empty⟩

/-- A loop that pops the one value there is needs a second round to find that there is no other. With
a bound of one round it diverges itself, and its first round has left a state. -/
theorem fixpoint_exact_oneValue :
    (∃ result, fixpoint { config := { maxIterations := 2 } } (.popVar "x" "l") (.singleton oneValue) = .ok result ∧
      result.rounds = 2 ∧
      IsLeast {k | k ≤ 2 ∧
        Exhausts (step { config := { maxIterations := 2 } } (.popVar "x" "l")) (.singleton oneValue) k} 2) ∧
    fixpointSourced { config := { maxIterations := 1 } } (.popVar "x" "l") (.singleton oneValue) =
        .raised (.divergence 1) ∧
      Persists (step { config := { maxIterations := 1 } } (.popVar "x" "l")) (.singleton oneValue) 1 := by
  obtain ⟨_, hleast, _, _⟩ :=
    fixpoint_exact { config := { maxIterations := 2 } } rfl (.popVar "x" "l") (.singleton oneValue)
  obtain ⟨_, _, _, hdiverges⟩ :=
    fixpoint_exact { config := { maxIterations := 1 } } rfl (.popVar "x" "l") (.singleton oneValue)
  have htwo : (fixpoint { config := { maxIterations := 2 } } (.popVar "x" "l") (.singleton oneValue)).toOption.any
      fun result => result.rounds == 2 := by decide +kernel
  obtain ⟨result, hresult, hrounds⟩ := exists_ok_of_any htwo
  have hrounds : result.rounds = 2 := beq_iff_eq.mp hrounds
  have hraised : fixpointSourced { config := { maxIterations := 1 } } (.popVar "x" "l") (.singleton oneValue) =
      .raised (.divergence 1) := by cbv
  have hfirst := (hleast result hresult).1
  rw [hrounds] at hfirst
  exact ⟨⟨result, hresult, hrounds, hfirst⟩, hraised, ((hdiverges 1).mp hraised).2⟩

end Machine

end StackCalculus
