import Mathlib
import StackCalculus.Equality
import StackCalculus.Machine.Equations
import StackCalculus.Proofs.Counting
import StackCalculus.Proofs.Renaming.Program

/-!
# The machine counts paths

The machine merges equal states and keeps counts; `Machine.paths` lists the end of every path. The
two agree: a run succeeds only if all its paths do, and the count of a state is then the number of
paths that end in it, each weighted by the count of the state that it starts from. Only an overflow
can keep the machine from a result where the paths have one. The invariant of the induction is
`Tracks`: a list of states with the counts of a configuration is taken, path by path, to a list with
the counts of the outcome.
-/

namespace StackCalculus

/-! ## Bags that follow lists -/

section Tracks

variable {α β : Type} [BEq α] [BEq β]

/-- The bag has the counts of the list, or an overflow came first, or there is neither. -/
inductive Tracks (outcomes : Except Fault (List α)) : Except Fault (Bag α) → Prop where
  | ok {all : List α} {bag : Bag α} (hall : outcomes = .ok all) (h : Represents all bag) :
      Tracks outcomes (.ok bag)
  | overflow : Tracks outcomes (.error .multiplicityOverflow)
  | error {e e' : Fault} (h : outcomes = .error e') : Tracks outcomes (.error e)

namespace Tracks

theorem bind {outcomes : Except Fault (List α)} {x : Except Fault (Bag α)}
    {g : List α → Except Fault (List β)} {f : Bag α → Except Fault (Bag β)} (h : Tracks outcomes x)
    (hf : ∀ all bag, outcomes = .ok all → Represents all bag → Tracks (g all) (f bag)) :
    Tracks (outcomes >>= g) (x >>= f) := by
  cases h with
  | ok hall h =>
    rw [hall]
    exact hf _ _ hall h
  | overflow => exact .overflow
  | error h =>
    rw [h]
    exact .error rfl

/-- Only the counts of the list matter. -/
theorem congr {outcomes outcomes' : Except Fault (List α)} {x : Except Fault (Bag α)}
    (h : Tracks outcomes x) (hsame : Alike AnyFault SameCounts outcomes outcomes') :
    Tracks outcomes' x := by
  cases h with
  | ok hall h =>
    rw [hall] at hsame
    obtain ⟨all', hall', hcounts⟩ := hsame.exists_right
    exact .ok hall' (h.congr hcounts)
  | overflow => exact .overflow
  | error h =>
    rw [h] at hsame
    cases hsame with
    | error _ => exact .error rfl

theorem exists_list {outcomes : Except Fault (List α)} {bag : Bag α} (h : Tracks outcomes (.ok bag)) :
    ∃ all, outcomes = .ok all ∧ Represents all bag := by
  cases h with
  | ok hall h => exact ⟨_, hall, h⟩

theorem ok_or_overflow {all : List α} {x : Except Fault (Bag α)} (h : Tracks (.ok all) x) :
    (∃ bag, x = .ok bag) ∨ x = .error .multiplicityOverflow := by
  cases h with
  | ok _ _ => exact .inl ⟨_, rfl⟩
  | overflow => exact .inr rfl
  | error h => cases h

end Tracks

theorem Checked.tracks {w : α → Nat} {x : Except Fault (Bag α)} (h : Checked w x) {all : List α}
    (hw : ∀ item, w item = all.count item) : Tracks (.ok all) x := by
  cases h with
  | ok h => exact .ok rfl fun item => (h item).trans (hw item)
  | overflow _ => exact .overflow

variable [EquivBEq α]

theorem tracks_union {xs ys : List α} {a b : Bag α} (ha : Represents xs a) (hb : Represents ys b) :
    Tracks (.ok (xs ++ ys)) (a.union b) :=
  (a.checked_union b).tracks fun item => by rw [ha item, hb item, List.count_append]

omit [BEq β] in
/-- As many copies of a list as the counts are multiplied by. -/
theorem tracks_scale {f : β → Except Fault (List α)} {item : β} {x : Except Fault (Bag α)}
    (h : Tracks (f item) x) {factor : Nat} (hpos : 0 < factor) :
    Tracks (gather f (List.replicate factor item)) (x >>= fun bag => bag.scale factor) := by
  cases h with
  | @ok all bag hall h =>
    have hgather : gather f (List.replicate factor item) = .ok (List.replicate factor all).flatten := by
      rw [gather_of_forall fun other hother => ⟨all, List.eq_of_mem_replicate hother ▸ hall⟩]
      rw [List.flatMap_replicate, hall]
      rfl
    rw [hgather]
    refine (bag.checked_scale factor).tracks fun a => ?_
    rw [h a, List.count_flatten, List.map_replicate, List.sum_replicate, smul_eq_mul, Nat.mul_comm]
  | overflow => exact .overflow
  | error h =>
    obtain ⟨copies, rfl⟩ := Nat.exists_eq_succ_of_ne_zero (Nat.ne_of_gt hpos)
    rw [List.replicate_succ, gather, h]
    exact .error rfl

theorem tracks_collect {γ : Type} {f : γ → Except Fault (Bag α)} {g : γ → Except Fault (List α)}
    {schedule : Schedule γ} (h : ∀ item ∈ schedule.items, Tracks (g item) (f item)) :
    Tracks (gather g schedule.items) (schedule.collect f) := by
  induction schedule with
  | idle => exact .ok rfl represents_empty
  | visit item =>
    rw [Schedule.items, gather_singleton]
    exact h item List.mem_cons_self
  | join left right ihleft ihright =>
    obtain ⟨hleft, hright⟩ := List.forall_mem_append.mp h
    rw [Schedule.items, gather_append]
    refine (ihleft hleft).bind fun xs a _ ha => (ihright hright).bind fun ys b _ hb => ?_
    rw [Machine.ofExcept_eq]
    exact tracks_union ha hb

end Tracks

/-! ## The machine -/

namespace Machine

variable {V : Type} [DecidableEq V]

theorem tracks_settle (result : Except Fault (State V)) :
    Tracks (settled result) (settle result) := by
  rw [settle_eq]
  cases result with
  | ok state => exact .ok rfl (represents_singleton state)
  | error fault =>
    by_cases hbranch : fault.isBranchFailure
    · simp only [settled, if_pos hbranch]
      exact .ok rfl represents_empty
    · simp only [settled, if_neg hbranch]
      exact .error rfl

variable (machine : Machine)

theorem tracks_forEach {f : State V → Except Fault (Configuration V)}
    {g : State V → Except Fault (List (State V))}
    (hg : ∀ s s', s == s' → Alike AnyFault (List.Forall₂ fun u u' => u == u') (g s) (g s'))
    (h : ∀ s, Tracks (g s) (f s)) {xs : List (State V)} {c : Configuration V}
    (hxs : Represents xs c) : Tracks (gather g xs) (machine.forEach f c) := by
  let copies (entry : State V × Nat) : List (State V) := List.replicate entry.2 entry.1
  have hitems := machine.items_schedule c.entries
  have hvisits : Tracks (gather (fun entry => gather g (copies entry)) (machine.schedule c.entries).items)
      (machine.forEach f c) := by
    refine tracks_collect fun entry hentry => ?_
    have hpos := (c.counted entry (hitems.mem_iff.mp hentry)).1
    have hscale := tracks_scale (h entry.1) hpos
    simp only [ofExcept_eq]
    exact hscale
  -- In the order of the entries, and then entry by entry as one list.
  have hentries := (gather_perm (fun entry => gather g (copies entry)) hitems).trans
    (gather_bind (fun entry => .ok (copies entry)) g c.entries)
  rw [gather_ok] at hentries
  have hexpand := hentries.trans (SameCounts.gather hg ((represents_expand c).sameCounts hxs))
  refine hvisits.congr (hexpand.mono (fun _ _ h => h) ?_)
  rintro as ds ⟨cs, ⟨bs, hab, rfl⟩, hbd⟩ s
  rw [SameCounts.of_perm hab s, hbd s]

/-- The invariant of an iteration: `done` are the states of the earlier rounds. -/
theorem tracks_closeFrom (hlimit : machine.config.timeLimit = none)
    {body : Configuration V → Except Fault (Configuration V)}
    {next : State V → Except Fault (List (State V))}
    (h : ∀ xs c, Represents xs c → Tracks (gather next xs) (body c)) (bound budget rounds : Nat)
    {done xs : List (State V)} {sum frontier : Configuration V} (hxs : Represents xs frontier)
    (hsum : Represents (done ++ xs) sum) :
    Tracks ((done ++ ·) <$> layers bound next budget xs)
      (Fixpoint.configuration <$> machine.closeFrom body budget rounds sum frontier) := by
  -- Without states left the iteration is over, whatever the budget.
  have hdone : ∀ (budget rounds : Nat) (done : List (State V)) (sum frontier : Configuration V),
      frontier.isEmpty → Represents (done ++ []) sum →
      Tracks ((done ++ ·) <$> layers bound next budget [])
        (Fixpoint.configuration <$> machine.closeFrom body budget rounds sum frontier) := by
    intro budget rounds done sum frontier hempty hsum
    rw [machine.closeFrom_of_isEmpty _ _ _ _ hempty, layers_nil]
    exact .ok rfl hsum
  induction budget generalizing rounds done xs sum frontier with
  | zero =>
    by_cases hempty : xs = []
    · subst hempty
      exact hdone _ _ _ _ _ (hxs.isEmpty_iff.mpr rfl) hsum
    · have hfrontier : ¬ frontier.isEmpty := fun hfrontier => hempty (hxs.isEmpty_iff.mp hfrontier)
      rw [machine.closeFrom_zero _ _ _ hlimit hfrontier, layers_zero _ _ hempty]
      exact .error rfl
  | succ budget ih =>
    by_cases hempty : xs = []
    · subst hempty
      exact hdone _ _ _ _ _ (hxs.isEmpty_iff.mpr rfl) hsum
    · have hfrontier : ¬ frontier.isEmpty := fun hfrontier => hempty (hxs.isEmpty_iff.mp hfrontier)
      rw [machine.closeFrom_succ _ _ _ _ hlimit hfrontier, layers_succ _ _ _ hempty]
      simp only [report_eq, ofExcept_eq, map_bind, map_pure]
      refine (h xs frontier hxs).bind fun ys reached _ hys => ?_
      -- The states so far are `done ++ xs` in the next round.
      have hround := (tracks_union hsum hys).bind
        (g := fun _ => (done ++ xs ++ ·) <$> layers bound next budget ys)
        (f := fun sum => Fixpoint.configuration <$> machine.closeFrom body budget (rounds + 1) sum reached)
        fun all grown hall hgrown => ih (rounds + 1) hys (Except.ok.inj hall ▸ hgrown)
      simp only [List.append_assoc, map_eq_pure_bind] at hround ⊢
      exact hround

variable [ToString V]

/-- A program takes a list for a configuration to a list for the outcome. -/
theorem tracks_exec (hlimit : machine.config.timeLimit = none) (reserved : List Var)
    (program : Program V) {xs : List (State V)} {c : Configuration V} (hxs : Represents xs c) :
    Tracks (gather (machine.paths reserved program) xs) (machine.exec reserved program c) := by
  -- A program that is run state by state.
  have heach : ∀ (reserved : List Var) (p : Program V) {xs : List (State V)} {c : Configuration V}
      {f : State V → Except Fault (Configuration V)}, Represents xs c →
      (∀ s, Tracks (machine.paths reserved p s) (f s)) →
      Tracks (gather (machine.paths reserved p) xs) (machine.forEach f c) :=
    fun reserved p _ _ _ hxs h =>
      machine.tracks_forEach (fun s s' hs => machine.paths_beq reserved p hs) h hxs
  induction program using Program.enter_induction generalizing reserved xs c with
  | skip =>
    rw [exec_skip]
    rw [paths_skip, gather_ok, List.flatMap_singleton']
    exact .ok rfl hxs
  | fail =>
    rw [exec_fail]
    rw [paths_fail, gather_ok]
    exact .ok (congrArg Except.ok (List.flatMap_eq_nil_iff.mpr fun _ _ => rfl)) represents_empty
  | seq p q ihp ihq =>
    rw [exec_seq]
    have hstages := (gather_bind (machine.paths reserved p) (machine.paths reserved q) xs).symm
    rw [paths_seq]
    refine Tracks.congr ?_ (hstages.mono (fun _ _ h => h) fun _ _ h => h ▸ fun _ => rfl)
    exact (ihp reserved hxs).bind fun middle a _ ha => ihq reserved ha
  | branch p q ihp ihq =>
    rw [exec_branch]
    refine heach _ _ hxs fun s => ?_
    have hleft := ihp reserved (represents_singleton s)
    have hright := ihq reserved (represents_singleton s)
    rw [gather_singleton] at hleft hright
    rw [paths]
    refine hleft.bind fun left a _ ha => hright.bind fun right b _ hb => ?_
    exact tracks_union ha hb
  | iterate p ih =>
    rw [exec_iterate]
    have hlayers := (gather_layers machine.config.maxIterations (machine.paths reserved p)
      machine.config.maxIterations xs).symm
    rw [paths_iterate]
    refine Tracks.congr ?_ (hlayers.mono (fun _ _ h => h) fun _ _ h => .of_perm h.symm)
    have hstart : Represents ([] ++ xs) c := hxs
    have hclose := machine.tracks_closeFrom hlimit (fun _ _ h => ih reserved h)
      machine.config.maxIterations machine.config.maxIterations 0 hxs hstart
    rwa [show ([] ++ · : List (State V) → _) = id from rfl, id_map] at hclose
  | push t location =>
    rw [exec_push]
    refine heach _ _ hxs fun s => ?_
    rw [paths]
    exact tracks_settle _
  | pop t location =>
    rw [exec_pop]
    refine heach _ _ hxs fun s => ?_
    rw [paths]
    exact tracks_settle _
  | scope x p ih =>
    rw [exec_scope]
    refine heach _ _ hxs fun s => ?_
    have hinner := ih (freshFor x p s reserved) (reserved ++ [freshFor x p s reserved])
      (represents_singleton s)
    rw [gather_singleton] at hinner
    rw [paths]
    refine hinner.bind fun inner a _ ha => (Bag.checked_ofCounts _).tracks fun t => ?_
    exact ha.weight_map (fun u u' hu => State.project_beq hu _) t

/-! ## Runs with related paths -/

section Runs

variable {machine} {p p' : Program V} {s s' : State V} {R : State V → State V → Prop}

theorem tracks_run (hlimit : machine.config.timeLimit = none) (program : Program V) (s : State V) :
    Tracks (machine.paths [] program s) (machine.run program s) := by
  rw [run_eq_step, ← gather_singleton (machine.paths [] program)]
  exact machine.tracks_exec hlimit [] program (represents_singleton s)

open Classical in
/-- The mass of a class in the outcome of a run is the number of paths that end in the class. -/
theorem exists_paths_of_run (hlimit : machine.config.timeLimit = none) {r : Configuration V}
    (hr : machine.run p s = .ok r) :
    ∃ outcomes, machine.paths [] p s = .ok outcomes ∧ ∀ P : State V → Prop,
      (∀ u u', u == u' → (P u ↔ P u')) → r.mass P = outcomes.countP fun u => P u := by
  have htracks := tracks_run hlimit p s
  rw [hr] at htracks
  obtain ⟨outcomes, hall, h⟩ := htracks.exists_list
  exact ⟨outcomes, hall, fun P hP => h.mass_eq hP⟩

open Classical in
/-- If the paths of two runs are related one by one, a class of states that the relation does not
leave has the same mass in both outcomes. -/
theorem mass_eq_of_paths (hlimit : machine.config.timeLimit = none)
    (hpaths : Alike AnyFault (List.Forall₂ R) (machine.paths [] p s) (machine.paths [] p' s'))
    {P : State V → Prop} (hP : ∀ u u', u == u' → (P u ↔ P u')) (hR : ∀ u u', R u u' → (P u ↔ P u'))
    {r r' : Configuration V} (hr : machine.run p s = .ok r) (hr' : machine.run p' s' = .ok r') :
    r.mass P = r'.mass P := by
  obtain ⟨outcomes, hall, hmass⟩ := exists_paths_of_run hlimit hr
  obtain ⟨outcomes', hall', hmass'⟩ := exists_paths_of_run hlimit hr'
  rw [hall, hall'] at hpaths
  cases hpaths with
  | ok hrelated =>
    rw [hmass P hP, hmass' P hP]
    exact countP_eq_of_forall₂ (fun u u' hu => decide_eq_decide.mpr (hR u u' hu)) hrelated

/-- If the paths of two runs are related and the first run succeeds, only an overflow can prevent the
second. -/
theorem ok_or_overflow_of_paths (hlimit : machine.config.timeLimit = none)
    (hpaths : Alike AnyFault (List.Forall₂ R) (machine.paths [] p s) (machine.paths [] p' s'))
    (hok : ∃ r, machine.run p s = .ok r) :
    (∃ r', machine.run p' s' = .ok r') ∨ machine.run p' s' = .error .multiplicityOverflow := by
  obtain ⟨r, hr⟩ := hok
  obtain ⟨outcomes, hall, _⟩ := exists_paths_of_run hlimit hr
  rw [hall] at hpaths
  obtain ⟨outcomes', hall', _⟩ := hpaths.exists_right
  have htracks := tracks_run hlimit p' s'
  rw [hall'] at htracks
  exact htracks.ok_or_overflow

end Runs

/-- A step succeeds only if all paths from the states of the configuration do, and counts each
outcome once for every path to it from every copy of a state. If all paths succeed, only an overflow
can prevent the step. -/
theorem step_counts_paths (hlimit : machine.config.timeLimit = none) (program : Program V)
    (c : Configuration V) :
    (∀ r, machine.step program c = .ok r →
      (∀ entry ∈ c.entries, ∃ outcomes, machine.paths [] program entry.1 = .ok outcomes) ∧
        ∀ t, r.count t = (c.entries.map fun entry =>
          entry.2 * (outcomesOf (machine.paths [] program entry.1)).count t).sum) ∧
    ((∀ entry ∈ c.entries, ∃ outcomes, machine.paths [] program entry.1 = .ok outcomes) →
      (∃ r, machine.step program c = .ok r) ∨
        machine.step program c = .error .multiplicityOverflow) := by
  have htracks : Tracks (gather (machine.paths [] program) c.expand) (machine.step program c) :=
    machine.tracks_exec hlimit [] program (represents_expand c)
  constructor
  · intro r hr
    rw [hr] at htracks
    cases htracks with
    | ok hall h =>
      obtain ⟨hpaths, rfl⟩ := (gather_eq_ok_iff _ _ _).mp hall
      refine ⟨fun entry hentry => hpaths _ (Bag.mem_expand.mpr ⟨entry, hentry, rfl⟩), fun t => ?_⟩
      rw [h t, Bag.count_flatMap_expand]
  · intro hpaths
    have hall : ∀ s ∈ c.expand, ∃ outcomes, machine.paths [] program s = .ok outcomes := by
      intro s hs
      obtain ⟨entry, hentry, rfl⟩ := Bag.mem_expand.mp hs
      exact hpaths entry hentry
    rw [gather_of_forall hall] at htracks
    generalize machine.step program c = outcome at htracks
    cases htracks with
    | ok _ _ => exact .inl ⟨_, rfl⟩
    | overflow => exact .inr rfl
    | error h => cases h

/-- Pops a value, either by naming it or into a local variable. -/
def popEitherWay : Program String :=
  .branch (.pop (.constant "v") "l") (.scope ⟨"x", false⟩ (.popVar "x" "l"))

/-- Two paths that end in one state, which is counted twice. -/
theorem step_counts_paths_popEitherWay :
    ∃ r, step {} popEitherWay (.singleton ⟨⟨.ofList [("l", .ofList [.value "v"])]⟩, .empty⟩) = .ok r ∧
      r.count (.ofAlphabet ["l"]) = 2 := by
  let start : State String := ⟨⟨.ofList [("l", .ofList [.value "v"])]⟩, .empty⟩
  obtain ⟨hcount, hok⟩ := step_counts_paths {} rfl popEitherWay (.singleton start)
  have hends : (paths {} [] popEitherWay start).toOption.any fun outcomes =>
      outcomes.count (.ofAlphabet ["l"]) == 2 := by decide +kernel
  obtain ⟨outcomes, hpaths, htwice⟩ := exists_ok_of_any hends
  have hall : ∀ entry ∈ (Bag.singleton start).entries,
      ∃ outcomes, paths {} [] popEitherWay entry.1 = .ok outcomes := by
    intro entry hentry
    obtain rfl := List.mem_singleton.mp hentry
    exact ⟨outcomes, hpaths⟩
  have hfits : (step {} popEitherWay (.singleton start)).isOk := by decide +kernel
  obtain ⟨r, hr⟩ := (hok hall).resolve_right fun hoverflow => by
    rw [hoverflow] at hfits
    cases hfits
  refine ⟨r, hr, ?_⟩
  rw [(hcount r hr).2]
  show [1 * (outcomesOf (paths {} [] popEitherWay start)).count (.ofAlphabet ["l"])].sum = 2
  rw [hpaths, List.sum_singleton, Nat.one_mul]
  exact beq_iff_eq.mp htwice

end Machine

end StackCalculus
