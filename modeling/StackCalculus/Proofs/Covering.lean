import Mathlib
import StackCalculus.Proofs.Counting
import StackCalculus.Proofs.Iteration.Equation

/-!
# Runs that cover others

A map `φ` of states puts a configuration under another if it takes every state to one that counts at
least as much there. A result is covered by another if it succeeds whenever the other does, with a
configuration under the other's. Covering is a simulation in one direction that also transports the
absence of overflows: every operation of the machine adds up or multiplies counts, so what fits for
larger counts fits for smaller ones. If every step of one program is covered by a step of another,
then so is the whole run (`Machine.exec_covered`).
-/

namespace StackCalculus

/-! ## Bags -/

section Bags

variable {α : Type} [BEq α]

/-- `φ` takes every element of `a` to one that counts at least as much in `b`. -/
def Bag.Under (φ : α → α) (a b : Bag α) : Prop := ∀ item, a.count item ≤ b.count (φ item)

/-- Whenever `y` succeeds, so does `x`, with a bag under that of `y`. -/
def Covered (φ : α → α) (x y : Except Fault (Bag α)) : Prop :=
  ∀ b, y = .ok b → ∃ a, x = .ok a ∧ a.Under φ b

variable {φ : α → α}

theorem Covered.bind {x y : Except Fault (Bag α)} {f g : Bag α → Except Fault (Bag α)}
    (h : Covered φ x y) (hf : ∀ a b : Bag α, a.Under φ b → Covered φ (f a) (g b)) :
    Covered φ (x >>= f) (y >>= g) := by
  intro r' hr'
  obtain ⟨b, hb, hr'⟩ := bind_eq_ok_iff.mp hr'
  obtain ⟨a, ha, hab⟩ := h b hb
  obtain ⟨r, hr, hunder⟩ := hf a b hab r' hr'
  exact ⟨r, bind_eq_ok_iff.mpr ⟨a, ha, hr⟩, hunder⟩

theorem covered_ok {a b : Bag α} (h : a.Under φ b) : Covered φ (.ok a) (.ok b) := by
  intro b' hb'
  cases hb'
  exact ⟨a, rfl, h⟩

/-- An exact operation is covered by one with larger counts: these fit, so the smaller ones do. -/
theorem Checked.covered {w w' : α → Nat} {x y : Except Fault (Bag α)} (hx : Checked w x)
    (hy : Checked w' y) (h : ∀ item, w item ≤ w' (φ item)) : Covered φ x y := by
  rintro b rfl
  have hle : ∀ item, w item ≤ b.count (φ item) := fun item => (h item).trans_eq (hy.count_eq _).symm
  obtain ⟨a, ha, hcount⟩ := hx.exists_ok fun item => (hle item).trans (b.count_le _)
  exact ⟨a, ha, fun item => (hcount item).trans_le (hle item)⟩

variable [EquivBEq α]

theorem Bag.under_singleton (hφ : ∀ a b, (φ a == φ b) = (a == b)) {a b : α} (h : φ a == b) :
    (singleton a).Under φ (singleton b) := by
  intro item
  rw [count_singleton, count_singleton, ← BEq.congr_right h, hφ]

theorem Bag.Under.isEmpty {a b : Bag α} (h : a.Under φ b) (hb : b.isEmpty) : a.isEmpty := by
  have hnil : b.entries = [] := List.isEmpty_iff.mp hb
  have hzero : ∀ item, b.count item = 0 := fun item => by rw [count, hnil, countIn]
  have hempty : Represents [] a := fun item => Nat.le_zero.mp ((h item).trans_eq (hzero _))
  exact hempty.isEmpty_iff.mpr rfl

theorem Bag.Under.exists_entry {a b : Bag α} (h : a.Under φ b) {entry : α × Nat}
    (hentry : entry ∈ a.entries) : ∃ entry' ∈ b.entries, φ entry.1 == entry'.1 := by
  have hpos := (a.counted entry hentry).1
  have hle := h entry.1
  rw [count_of_mem hentry] at hle
  obtain ⟨before, entry', after, hentries, heq, _⟩ := exists_of_countIn_pos (Nat.lt_of_lt_of_le hpos hle)
  refine ⟨entry', ?_, heq⟩
  rw [hentries]
  exact List.mem_append_right before List.mem_cons_self

/-- Sums over a bag are at most the sums over a bag that it is under. -/
theorem Bag.Under.sum_le (hφ : ∀ a b, (φ a == φ b) = (a == b)) {a b : Bag α} (h : a.Under φ b)
    (w w' : α → Nat)
    (hw : ∀ entry ∈ a.entries, ∀ entry' ∈ b.entries, φ entry.1 == entry'.1 → w entry.1 ≤ w' entry'.1) :
    (a.entries.map fun entry => w entry.1 * entry.2).sum ≤
      (b.entries.map fun entry => w' entry.1 * entry.2).sum := by
  have hle : ∀ entry ∈ a.entries, entry.2 ≤ countIn (φ entry.1) b.entries := fun entry hentry =>
    (count_of_mem hentry).symm.trans_le (h entry.1)
  -- The entries of `a` are met by different entries of `b`, and there may be others.
  obtain ⟨es, rest, hperm, hes⟩ := exists_matching (fun x y hxy => (hφ x y).symm.trans hxy) a.distinct
    (fun entry hentry => (a.counted entry hentry).1.trans_le (hle entry hentry)) fun _ _ => rfl
  have hterms : List.Forall₂ (fun entry entry' => w entry.1 * entry.2 ≤ w' entry'.1 * entry'.2)
      a.entries es := by
    refine forall₂_imp_of_mem (fun entry hentry entry' hentry' hmet => ?_) hes
    have hmem : entry' ∈ b.entries := hperm.mem_iff.mpr (List.mem_append_left rest hentry')
    exact Nat.mul_le_mul (hw entry hentry entry' hmem hmet.1) ((hle entry hentry).trans_eq hmet.2)
  rw [(hperm.map _).sum_eq, List.map_append, List.sum_append]
  refine Nat.le_trans (List.Forall₂.sum_le_sum ?_) (Nat.le_add_right _ _)
  rw [List.forall₂_map_left_iff, List.forall₂_map_right_iff]
  exact hterms

theorem Bag.Under.union {a a' b b' : Bag α} (ha : a.Under φ a') (hb : b.Under φ b') :
    Covered φ (a.union b) (a'.union b') :=
  (a.checked_union b).covered (a'.checked_union b') fun item => Nat.add_le_add (ha item) (hb item)

/-- Maps of the elements that `φ` commutes with keep bags under each other. -/
theorem Bag.Under.ofCounts_map (hφ : ∀ a b, (φ a == φ b) = (a == b)) {a b : Bag α}
    (h : a.Under φ b) {f g : α → α} (hf : ∀ x y, φ x == y → φ (f x) == g y) :
    Covered φ (ofCounts (a.entries.map fun entry => (f entry.1, entry.2)))
      (ofCounts (b.entries.map fun entry => (g entry.1, entry.2))) := by
  have hweight : ∀ (item : α) (f : α → α) (entries : List (α × Nat)),
      weight item (entries.map fun entry => (f entry.1, entry.2)) =
        (entries.map fun entry => (if item == f entry.1 then 1 else 0) * entry.2).sum := by
    intro item f entries
    induction entries with
    | nil => rfl
    | cons entry rest ih =>
      rw [List.map_cons, weight, List.map_cons, List.sum_cons, ih]
      split
      · rw [Nat.one_mul]
      · rw [Nat.zero_mul]
  refine (checked_ofCounts _).covered (checked_ofCounts _) fun item => ?_
  rw [hweight, hweight]
  refine h.sum_le hφ (fun x => if item == f x then 1 else 0)
    (fun y => if φ item == g y then 1 else 0) fun entry _ entry' _ hentry => ?_
  rw [← BEq.congr_right (hf entry.1 entry'.1 hentry), hφ]

end Bags

/-! ## Visits -/

section Visits

variable {α γ : Type} [BEq α]

/-- The count of an element in the outcome of a computation; nothing counts in a fault. -/
def Bag.countOf (x : Except Fault (Bag α)) (item : α) : Nat :=
  match x with
  | .ok bag => bag.count item
  | .error _ => 0

theorem exists_ok_of_collect {f : γ → Except Fault (Bag α)} {schedule : Schedule γ} {r : Bag α}
    (h : schedule.collect f = .ok r) : ∀ item ∈ schedule.items, ∃ bag, f item = .ok bag := by
  induction schedule generalizing r with
  | idle => exact fun item hitem => absurd hitem List.not_mem_nil
  | visit item =>
    intro other hother
    rw [List.mem_singleton.mp hother]
    exact ⟨r, h⟩
  | join left right ihleft ihright =>
    obtain ⟨leftSum, hleft, h⟩ := bind_eq_ok_iff.mp h
    obtain ⟨rightSum, hright, _⟩ := bind_eq_ok_iff.mp h
    exact List.forall_mem_append.mpr ⟨ihleft hleft, ihright hright⟩

/-- The counts of exact visits add up. -/
theorem checked_collect [EquivBEq α] {f : γ → Except Fault (Bag α)} {w : γ → α → Nat}
    {schedule : Schedule γ} (h : ∀ item ∈ schedule.items, Checked (w item) (f item)) :
    Checked (fun a => (schedule.items.map fun item => w item a).sum) (schedule.collect f) := by
  induction schedule with
  | idle => exact .ok fun _ => rfl
  | visit item => exact (h item List.mem_cons_self).congr fun a => List.sum_singleton.symm
  | join left right ihleft ihright =>
    obtain ⟨hleft, hright⟩ := List.forall_mem_append.mp h
    have ihleft := ihleft hleft
    have ihright := ihright hright
    have hsum : ∀ a, ((left.join right).items.map fun item => w item a).sum =
        (left.items.map fun item => w item a).sum + (right.items.map fun item => w item a).sum := by
      intro a
      rw [Schedule.items, List.map_append, List.sum_append]
    show Checked _ (left.collect f >>= fun leftSum => right.collect f >>= fun rightSum =>
      ofExcept (leftSum.union rightSum))
    generalize left.collect f = x at ihleft
    generalize right.collect f = y at ihright
    cases ihleft with
    | overflow hover => exact .overflow (hover.trans_le ((Nat.le_add_right _ _).trans_eq (hsum _).symm))
    | @ok leftSum hleft =>
      cases ihright with
      | overflow hover => exact .overflow (hover.trans_le ((Nat.le_add_left _ _).trans_eq (hsum _).symm))
      | @ok rightSum hright =>
        show Checked _ (ofExcept (leftSum.union rightSum))
        rw [Machine.ofExcept_eq]
        exact (leftSum.checked_union rightSum).congr fun a => by rw [hsum, hleft, hright]

end Visits

namespace Machine

variable {V : Type} [DecidableEq V] (machine : Machine)

theorem exists_ok_of_forEach {f : State V → Except Fault (Configuration V)} {c r : Configuration V}
    (h : machine.forEach f c = .ok r) : ∀ entry ∈ c.entries, ∃ outcome, f entry.1 = .ok outcome := by
  intro entry hentry
  have hitem := (machine.items_schedule c.entries).mem_iff.mpr hentry
  obtain ⟨_, hvisit⟩ := exists_ok_of_collect h entry hitem
  obtain ⟨outcome, houtcome, _⟩ := bind_eq_ok_iff.mp hvisit
  exact ⟨outcome, houtcome⟩

/-- If all visits succeed, their outcomes are added up, each as often as its state counts. -/
theorem checked_forEach {f : State V → Except Fault (Configuration V)} {c : Configuration V}
    (hf : ∀ entry ∈ c.entries, ∃ outcome, f entry.1 = .ok outcome) :
    Checked (fun t => (c.entries.map fun entry => Bag.countOf (f entry.1) t * entry.2).sum)
      (machine.forEach f c) := by
  have hitems := machine.items_schedule c.entries
  have hvisit : ∀ entry ∈ (machine.schedule c.entries).items,
      Checked (fun t => Bag.countOf (f entry.1) t * entry.2)
        (f entry.1 >>= fun outcome => ofExcept (outcome.scale entry.2)) := by
    intro entry hentry
    obtain ⟨outcome, houtcome⟩ := hf entry (hitems.mem_iff.mp hentry)
    rw [houtcome]
    show Checked _ (ofExcept (outcome.scale entry.2))
    rw [ofExcept_eq]
    exact outcome.checked_scale entry.2
  exact (checked_collect hvisit).congr fun t => (hitems.map _).sum_eq

variable {φ : State V → State V}

/-- Visits that cover each other are summed up to results that do. -/
theorem covered_forEach (hφ : ∀ s u, (φ s == φ u) = (s == u))
    {f g : State V → Except Fault (Configuration V)} (hf : ∀ s s', φ s == s' → Covered φ (f s) (g s'))
    {c c' : Configuration V} (hc : c.Under φ c') :
    Covered φ (machine.forEach f c) (machine.forEach g c') := by
  intro r' hr'
  have hg := machine.exists_ok_of_forEach hr'
  have hf' : ∀ entry ∈ c.entries, ∃ outcome, f entry.1 = .ok outcome := by
    intro entry hentry
    obtain ⟨entry', hentry', heq⟩ := hc.exists_entry hentry
    obtain ⟨outcome', houtcome'⟩ := hg entry' hentry'
    obtain ⟨outcome, houtcome, _⟩ := hf _ _ heq outcome' houtcome'
    exact ⟨outcome, houtcome⟩
  refine (machine.checked_forEach hf').covered (machine.checked_forEach hg) (fun t => ?_) r' hr'
  refine hc.sum_le hφ (fun s => Bag.countOf (f s) t) (fun s' => Bag.countOf (g s') (φ t))
    fun entry _ entry' hentry' heq => ?_
  obtain ⟨outcome', houtcome'⟩ := hg entry' hentry'
  obtain ⟨outcome, houtcome, hunder⟩ := hf _ _ heq outcome' houtcome'
  rw [houtcome, houtcome']
  exact hunder t

/-! ## Iterations -/

/-- What a loop has summed up stays in its outcome. -/
theorem count_le_of_closeFrom {machine : Machine} (hlimit : machine.config.timeLimit = none)
    {body : Configuration V → Except Fault (Configuration V)} {budget rounds : Nat}
    {sum frontier : Configuration V} {fixpoint : Fixpoint V}
    (h : machine.closeFrom body budget rounds sum frontier = .ok fixpoint) (t : State V) :
    sum.count t ≤ fixpoint.configuration.count t := by
  have hsum : ∀ t, sum.count t = sum.count t + (Bag.empty : Configuration V).count t := fun _ => rfl
  obtain ⟨fixpoint', _, hcount⟩ := exists_closeFrom_later hlimit (Nat.le_refl budget) rounds hsum h
  exact (Nat.le_add_right _ _).trans_eq (hcount t).symm

/-- A loop that is covered round by round is covered. It may run out of states earlier than the
other. -/
theorem exists_closeFrom_under {machine : Machine} (hlimit : machine.config.timeLimit = none)
    {body body' : Configuration V → Except Fault (Configuration V)}
    (hbody : ∀ c c', c.Under φ c' → Covered φ (body c) (body' c')) {budget rounds rounds' : Nat}
    {sum sum' frontier frontier' : Configuration V} (hsum : sum.Under φ sum')
    (hfrontier : frontier.Under φ frontier') {fixpoint' : Fixpoint V}
    (h : machine.closeFrom body' budget rounds' sum' frontier' = .ok fixpoint') :
    ∃ fixpoint, machine.closeFrom body budget rounds sum frontier = .ok fixpoint ∧
      fixpoint.configuration.Under φ fixpoint'.configuration := by
  induction budget using Nat.strongRecOn generalizing rounds rounds' sum sum' frontier frontier' with
  | _ budget ih =>
    by_cases hstates : frontier.isEmpty
    · refine ⟨⟨sum, rounds⟩, machine.closeFrom_of_isEmpty _ _ _ _ hstates, fun t => ?_⟩
      exact (hsum t).trans (count_le_of_closeFrom hlimit h (φ t))
    · have hstates' : ¬ frontier'.isEmpty := fun hempty => hstates (hfrontier.isEmpty hempty)
      obtain ⟨left, next', grown', rfl, hnext', hgrown', h⟩ := exists_first_round hlimit hstates' h
      obtain ⟨next, hnext, hunder⟩ := hbody _ _ hfrontier next' hnext'
      obtain ⟨grown, hgrown, hsum⟩ := hsum.union hunder grown' hgrown'
      rw [closeFrom_round hlimit hstates hnext hgrown]
      exact ih left (Nat.lt_succ_self left) hsum hunder h

end Machine

/-! ## Programs -/

section Simulation

variable {V : Type} [DecidableEq V] [ToString V] (φ : State V → State V)

/-- What a step of a covered program may do: end like the other, fail its branch, or do anything
where the other ends its run. -/
inductive StepCovered : Except Fault (State V) → Except Fault (State V) → Prop where
  | ok {u u' : State V} (h : φ u == u') : StepCovered (.ok u) (.ok u')
  | failed {e : Fault} {y : Except Fault (State V)} (h : e.isBranchFailure = true) :
      StepCovered (.error e) y
  | fatal {x : Except Fault (State V)} {e' : Fault} (h : e'.isBranchFailure = false) :
      StepCovered x (.error e')

variable (P : List Var → List Var → Program V → Program V → Prop)

/-- What one step of related programs has to keep, form by form, for the first to be covered by the
second. `P` relates programs together with the variables reserved around them. -/
inductive StepsCovered (r r' : List Var) : Program V → Program V → Prop where
  | skip : StepsCovered r r' .skip .skip
  | fail : StepsCovered r r' .fail .fail
  | seq {p p' q q' : Program V} (hp : P r r' p p') (hq : P r r' q q') :
      StepsCovered r r' (.seq p q) (.seq p' q')
  | branch {p p' q q' : Program V} (hp : P r r' p p') (hq : P r r' q q') :
      StepsCovered r r' (.branch p q) (.branch p' q')
  | iterate {p p' : Program V} (hp : P r r' p p') : StepsCovered r r' (.iterate p) (.iterate p')
  | push {t t' : Term V} {l l' : String}
      (h : ∀ s s', φ s == s' → StepCovered φ (s.push t l) (s'.push t' l')) :
      StepsCovered r r' (.push t l) (.push t' l')
  | pop {t t' : Term V} {l l' : String}
      (h : ∀ s s', φ s == s' → StepCovered φ (s.pop t l) (s'.pop t' l')) :
      StepsCovered r r' (.pop t l) (.pop t' l')
  | scope {x x' : Var} {p p' : Program V}
      (h : ∀ s s', φ s == s' →
        P (r ++ [freshFor x p s r]) (r' ++ [freshFor x' p' s' r'])
          (p.rename x (freshFor x p s r)) (p'.rename x' (freshFor x' p' s' r')) ∧
        ∀ u u', φ u == u' →
          φ (u.project (freshFor x p s r)) == u'.project (freshFor x' p' s' r')) :
      StepsCovered r r' (.scope x p) (.scope x' p')

variable {φ P}

omit [ToString V] in
theorem StepCovered.settle (hφ : ∀ s u, (φ s == φ u) = (s == u)) {x y : Except Fault (State V)}
    (h : StepCovered φ x y) :
    Covered φ (Machine.settle x : Except Fault (Configuration V)) (Machine.settle y) := by
  rw [Machine.settle_eq, Machine.settle_eq]
  cases h with
  | ok h => exact covered_ok (Bag.under_singleton hφ h)
  | failed h => exact fun b _ => ⟨.empty, if_pos h, fun _ => Nat.zero_le _⟩
  | fatal h =>
    intro b hb
    simp only [h] at hb
    cases hb

omit [ToString V] in
theorem StepCovered.of_alike {x y : Except Fault (State V)}
    (h : Alike SameFate (fun u u' => φ u == u') x y) : StepCovered φ x y := by
  cases h with
  | ok hu => exact .ok hu
  | @error e e' hfate =>
    cases he : e.isBranchFailure with
    | true => exact .failed he
    | false => exact .fatal (hfate.symm.trans he)

/-- Steps that keep states related are covered, if `φ` takes a state to the states related to it. -/
theorem StepsAlike.covered {S : Unit → State V → State V → Prop}
    {P : Unit → List Var → List Var → Program V → Program V → Prop} {r r' : List Var}
    {p p' : Program V} (hS : ∀ s s', S () s s' ↔ φ s == s') (h : StepsAlike S P () r r' p p') :
    StepsCovered φ (P ()) r r' p p' := by
  have hcovered : ∀ {x y : Except Fault (State V)}, Alike SameFate (S ()) x y → StepCovered φ x y :=
    fun h => .of_alike (h.mono (fun _ _ he => he) fun u u' => (hS u u').mp)
  cases h with
  | skip => exact .skip
  | fail => exact .fail
  | seq hp hq => exact .seq hp hq
  | branch hp hq => exact .branch hp hq
  | iterate hp => exact .iterate hp
  | push h => exact .push fun s s' hs => hcovered (h s s' ((hS s s').mpr hs))
  | pop h => exact .pop fun s s' hs => hcovered (h s s' ((hS s s').mpr hs))
  | scope h =>
    refine .scope fun s s' hs => ?_
    obtain ⟨_, _, hbody, hproject⟩ := h s s' ((hS s s').mpr hs)
    exact ⟨hbody, fun u u' hu => (hS _ _).mp (hproject u u' ((hS u u').mpr hu))⟩

/-- If every step of related programs is covered, so are their runs, from a configuration under the
other. -/
theorem Machine.exec_covered (machine : Machine) (hlimit : machine.config.timeLimit = none)
    (hφ : ∀ s u, (φ s == φ u) = (s == u))
    (hstep : ∀ r r' p p', P r r' p p' → StepsCovered φ P r r' p p') {r r' : List Var}
    {p p' : Program V} (hprogram : P r r' p p') {c c' : Configuration V} (hc : c.Under φ c') :
    Covered φ (machine.exec r p c : Except Fault (Configuration V)) (machine.exec r' p' c') := by
  induction p using Program.enter_induction generalizing r r' p' c c' with
  | skip =>
    cases hstep _ _ _ _ hprogram
    rw [exec_skip, exec_skip]
    exact covered_ok hc
  | fail =>
    cases hstep _ _ _ _ hprogram
    rw [exec_fail, exec_fail]
    exact covered_ok fun _ => Nat.zero_le _
  | seq p q ihp ihq =>
    cases hstep _ _ _ _ hprogram with
    | seq hp hq =>
      rw [exec_seq, exec_seq]
      exact (ihp hp hc).bind fun middle middle' hmiddle => ihq hq hmiddle
  | branch p q ihp ihq =>
    cases hstep _ _ _ _ hprogram with
    | branch hp hq =>
      rw [exec_branch, exec_branch]
      refine machine.covered_forEach hφ (fun s s' hs => ?_) hc
      have hs := Bag.under_singleton hφ hs
      refine (ihp hp hs).bind fun left left' hleft => (ihq hq hs).bind fun right right' hright => ?_
      exact hleft.union hright
  | iterate p ih =>
    cases hstep _ _ _ _ hprogram with
    | iterate hp =>
      rw [exec_iterate, exec_iterate]
      intro r' hr'
      cases hclose : (machine.close (machine.exec _ _) c' : Except Fault (Fixpoint V)) with
      | error e =>
        rw [hclose] at hr'
        cases hr'
      | ok fixpoint' =>
        rw [hclose] at hr'
        cases hr'
        obtain ⟨fixpoint, hfixpoint, hunder⟩ :=
          exists_closeFrom_under hlimit (fun _ _ h => ih hp h) hc hc hclose
        exact ⟨fixpoint.configuration, by rw [close, hfixpoint]; rfl, hunder⟩
  | push t location =>
    cases hstep _ _ _ _ hprogram with
    | push h =>
      rw [exec_push, exec_push]
      exact machine.covered_forEach hφ (fun s s' hs => (h s s' hs).settle hφ) hc
  | pop t location =>
    cases hstep _ _ _ _ hprogram with
    | pop h =>
      rw [exec_pop, exec_pop]
      exact machine.covered_forEach hφ (fun s s' hs => (h s s' hs).settle hφ) hc
  | scope x p ih =>
    cases hstep _ _ _ _ hprogram with
    | scope h =>
      rw [exec_scope, exec_scope]
      refine machine.covered_forEach hφ (fun s s' hs => ?_) hc
      obtain ⟨hbody, hproject⟩ := h s s' hs
      refine (ih _ hbody (Bag.under_singleton hφ hs)).bind fun inner inner' hinner => ?_
      exact hinner.ofCounts_map hφ hproject

end Simulation

end StackCalculus
