import Mathlib
import StackCalculus.Proofs.Counting
import StackCalculus.Proofs.Renaming.Program
import StackCalculus.Proofs.Schedule.Possible

/-!
# Schedules do not matter

Adding counts is checked, so a sum can overflow before all its parts are in. It does so only if the
whole sum overflows: partial sums are below it. A run that succeeds under one schedule therefore
succeeds with the same counts under every other schedule, at every level of the program
(`settles_possible`), and a run that overflows under one schedule fails under all of them
(`schedule_independent`).
-/

namespace StackCalculus

open Scheduled

/-! ## Settled results -/

section Settles

variable {α β : Type} [BEq α] [BEq β]

/-- Whatever the schedules, there is a result, and it satisfies `P`. -/
def Surely (x : Scheduled α) (P : α → Prop) : Prop := ∀ o ∈ x, ∃ a, o = .ok a ∧ P a

/-- Whatever the schedules, the result is the bag with the counts `w`. -/
def Settles (x : Scheduled (Bag α)) (w : α → Nat) : Prop :=
  Surely x fun bag => ∀ item, bag.count item = w item

omit [BEq α] in
theorem surely_pure {a : α} {P : α → Prop} (h : P a) : Surely (pure a) P := by
  intro o ho
  exact ⟨a, mem_pure.mp ho, h⟩

omit [BEq α] [BEq β] in
theorem Surely.bind {x : Scheduled α} {f : α → Scheduled β} {P : α → Prop} {Q : β → Prop}
    (hx : Surely x P) (hf : ∀ a, P a → Surely (f a) Q) : Surely (x >>= f) Q := by
  intro o ho
  rcases mem_bind.mp ho with ⟨a, ha, ho⟩ | ⟨e, he, _⟩
  · obtain ⟨a', heq, hP⟩ := hx _ ha
    cases heq
    exact hf a hP o ho
  · obtain ⟨a, ha, _⟩ := hx _ he
    cases ha

theorem Checked.settles {w : α → Nat} {x : Except Fault (Bag α)} (h : Checked w x)
    (hfits : ∀ item, w item ≤ maxCount) : Settles (ofExcept x) w := by
  intro o ho
  rw [mem_ofExcept.mp ho]
  exact h.exists_ok hfits

/-! ## Sums -/

/-- The sum of the counts that the bags of a list give to an element. -/
def sumCounts (bags : List (Bag β)) (item : β) : Nat := (bags.map fun bag => bag.count item).sum

omit [BEq α] in
theorem exists_bags_of_collect [EquivBEq β] {f : α → Scheduled (Bag β)} {schedule : Schedule α}
    {r : Bag β} (h : .ok r ∈ schedule.collect f) :
    ∃ bags, List.Forall₂ (fun bag item => .ok bag ∈ f item) bags schedule.items ∧
      ∀ item, r.count item = sumCounts bags item := by
  induction schedule generalizing r with
  | idle =>
    have hr : r = .empty := Except.ok.inj (mem_pure.mp h)
    exact ⟨[], .nil, fun item => by rw [hr]; rfl⟩
  | visit item => exact ⟨[r], .cons h .nil, fun item => (Nat.add_zero _).symm⟩
  | join left right ihleft ihright =>
    obtain ⟨leftSum, hleft, h⟩ := ok_mem_bind.mp h
    obtain ⟨rightSum, hright, h⟩ := ok_mem_bind.mp h
    obtain ⟨leftBags, hleftBags, hleftCount⟩ := ihleft hleft
    obtain ⟨rightBags, hrightBags, hrightCount⟩ := ihright hright
    have hunion := leftSum.checked_union rightSum
    rw [← mem_ofExcept.mp h] at hunion
    refine ⟨leftBags ++ rightBags, List.rel_append hleftBags hrightBags, fun item => ?_⟩
    rw [hunion.count_eq, hleftCount, hrightCount, sumCounts, sumCounts, sumCounts, List.map_append,
      List.sum_append]

omit [BEq α] in
/-- If every visit settles and the sum of all outcomes fits, every partial sum fits too. -/
theorem settles_collect [EquivBEq β] {f : α → Scheduled (Bag β)} {schedule : Schedule α}
    {bags : List (Bag β)}
    (h : List.Forall₂ (fun bag item => Settles (f item) bag.count) bags schedule.items)
    (hfits : ∀ item, sumCounts bags item ≤ maxCount) :
    Settles (schedule.collect f) (sumCounts bags) := by
  induction schedule generalizing bags with
  | idle =>
    cases h
    exact surely_pure fun item => rfl
  | visit item =>
    cases h with
    | cons hvisit hnil =>
      cases hnil
      intro o ho
      obtain ⟨bag, hbag, hcount⟩ := hvisit o ho
      exact ⟨bag, hbag, fun item => (hcount item).trans (Nat.add_zero _).symm⟩
  | join left right ihleft ihright =>
    -- The outcomes are split where the schedule is.
    have hleft := List.forall₂_take_append bags left.items right.items h
    have hright := List.forall₂_drop_append bags left.items right.items h
    have hsum : ∀ item, sumCounts bags item =
        sumCounts (bags.take left.items.length) item +
          sumCounts (bags.drop left.items.length) item := by
      intro item
      rw [sumCounts, sumCounts, sumCounts, ← List.sum_append, ← List.map_append,
        List.take_append_drop]
    have hfitsLeft : ∀ item, sumCounts (bags.take left.items.length) item ≤ maxCount := by
      intro item
      have hitem := hfits item
      rw [hsum] at hitem
      omega
    have hfitsRight : ∀ item, sumCounts (bags.drop left.items.length) item ≤ maxCount := by
      intro item
      have hitem := hfits item
      rw [hsum] at hitem
      omega
    refine (ihleft hleft hfitsLeft).bind fun leftSum hleftSum => ?_
    refine (ihright hright hfitsRight).bind fun rightSum hrightSum => ?_
    have hunion := (leftSum.checked_union rightSum).congr fun item =>
      show _ = sumCounts bags item by rw [hleftSum, hrightSum, hsum]
    exact hunion.settles hfits

end Settles

theorem forall₂_of_perm {α β : Type} {R : α → β → Prop} {xs : List α} {ys zs : List β}
    (h : List.Forall₂ R xs ys) (hperm : ys.Perm zs) :
    ∃ xs', xs.Perm xs' ∧ List.Forall₂ R xs' zs := by
  have hcomp : Relation.Comp (List.Forall₂ R) List.Perm xs zs := ⟨ys, h, hperm⟩
  rwa [List.forall₂_comp_perm_eq_perm_comp_forall₂] at hcomp

theorem sumCounts_perm {β : Type} [BEq β] {bags bags' : List (Bag β)} (h : bags.Perm bags')
    (item : β) : sumCounts bags item = sumCounts bags' item := by
  have hcounts := h.map fun bag => bag.count item
  exact hcounts.sum_eq

/-! ## The machine -/

namespace Machine

variable {V : Type} [DecidableEq V] {machine machine' : Machine}

theorem settles_forEach {f f' : State V → Scheduled (Configuration V)}
    (hf : ∀ s s' r, s == s' → .ok r ∈ f s → Settles (f' s') r.count) {c c' r : Configuration V}
    (hc : ∀ s, c.count s = c'.count s) (h : .ok r ∈ machine.forEach f c) :
    Settles (machine'.forEach f' c') r.count := by
  have hvisit : ∀ (bag : Configuration V) (entry entry' : State V × Nat),
      (.ok bag ∈ f entry.1 >>= fun outcome => ofExcept (outcome.scale entry.2)) →
      Bag.SameEntry entry entry' →
      Settles (f' entry'.1 >>= fun outcome => ofExcept (outcome.scale entry'.2)) bag.count := by
    rintro bag entry entry' hbag ⟨hstate, hcopies⟩
    obtain ⟨outcome, houtcome, hbag⟩ := ok_mem_bind.mp hbag
    have hscale := outcome.checked_scale entry.2
    rw [← mem_ofExcept.mp hbag] at hscale
    refine (hf _ _ _ hstate houtcome).bind fun outcome' houtcome' => ?_
    have hscale' := (outcome'.checked_scale entry'.2).congr fun s =>
      show _ = bag.count s by rw [hscale.count_eq, houtcome', hcopies]
    exact hscale'.settles bag.count_le
  obtain ⟨schedule, harrange, h⟩ := ok_mem_bind.mp h
  obtain ⟨_, hperm, hschedule⟩ := mem_arrange.mp harrange
  cases hschedule
  obtain ⟨bags, hbags, hcount⟩ := exists_bags_of_collect h
  obtain ⟨es, hes, hsame⟩ := Bag.exists_perm_of_count_eq hc
  -- The outcomes in the order of the entries of `c`, then of those of `c'`, then of the visits.
  obtain ⟨bags₁, hbags₁, hvisits₁⟩ := forall₂_of_perm hbags hperm
  have hvisits₂ := forall₂_comp hvisit hvisits₁ hsame
  intro o ho
  rcases mem_bind.mp ho with ⟨schedule', harrange', ho⟩ | ⟨e, he, _⟩
  · obtain ⟨_, hperm', hschedule'⟩ := mem_arrange.mp harrange'
    cases hschedule'
    obtain ⟨bags₃, hbags₃, hvisits₃⟩ := forall₂_of_perm hvisits₂ (hes.symm.trans hperm'.symm)
    have hsum : ∀ s, sumCounts bags₃ s = r.count s := by
      intro s
      rw [hcount, sumCounts_perm hbags₁, sumCounts_perm hbags₃]
    have hfits : ∀ s, sumCounts bags₃ s ≤ maxCount := by
      intro s
      rw [hsum]
      exact r.count_le s
    obtain ⟨bag, hbag, hbagCount⟩ := settles_collect hvisits₃ hfits o ho
    exact ⟨bag, hbag, fun s => (hbagCount s).trans (hsum s)⟩
  · obtain ⟨_, _, h⟩ := mem_arrange.mp he
    cases h

theorem isEmpty_congr {c c' : Configuration V} (hc : ∀ s, c.count s = c'.count s) :
    c.isEmpty = c'.isEmpty := by
  have hrepresents : Represents c.expand c' := fun s => (hc s).symm.trans (represents_expand c s)
  rw [Bool.eq_iff_iff, (represents_expand c).isEmpty_iff, hrepresents.isEmpty_iff]

/-- An iteration that comes to an end comes to the same end after as many rounds, whatever the
schedules. -/
theorem settles_closeFrom {body body' : Configuration V → Scheduled (Configuration V)}
    (hbody : ∀ c c' r, (∀ s, c.count s = c'.count s) → .ok r ∈ body c → Settles (body' c') r.count)
    (hlimit : machine.config.timeLimit = none) (hlimit' : machine'.config.timeLimit = none)
    (budget rounds : Nat) {sum sum' frontier frontier' : Configuration V}
    (hsum : ∀ s, sum.count s = sum'.count s)
    (hfrontier : ∀ s, frontier.count s = frontier'.count s) {fixpoint : Fixpoint V}
    (h : .ok fixpoint ∈ machine.closeFrom body budget rounds sum frontier) :
    Surely (machine'.closeFrom body' budget rounds sum' frontier') fun fixpoint' =>
      fixpoint'.rounds = fixpoint.rounds ∧
        ∀ s, fixpoint'.configuration.count s = fixpoint.configuration.count s := by
  -- Without states left the iteration is over, whatever the budget.
  have hdone : ∀ (budget rounds : Nat) (sum sum' frontier frontier' : Configuration V),
      (∀ s, sum.count s = sum'.count s) → frontier.isEmpty → frontier'.isEmpty →
      .ok fixpoint ∈ machine.closeFrom body budget rounds sum frontier →
      Surely (machine'.closeFrom body' budget rounds sum' frontier') fun fixpoint' =>
        fixpoint'.rounds = fixpoint.rounds ∧
          ∀ s, fixpoint'.configuration.count s = fixpoint.configuration.count s := by
    intro budget rounds sum sum' frontier frontier' hsum hempty hempty' h
    rw [machine.closeFrom_of_isEmpty _ _ _ _ hempty] at h
    rw [machine'.closeFrom_of_isEmpty _ _ _ _ hempty']
    cases mem_pure.mp h
    exact surely_pure ⟨rfl, fun s => (hsum s).symm⟩
  induction budget generalizing rounds sum sum' frontier frontier' with
  | zero =>
    have hiff := isEmpty_congr hfrontier
    by_cases hempty : frontier.isEmpty
    · exact hdone _ _ _ _ _ _ hsum hempty (hiff ▸ hempty) h
    · rw [machine.closeFrom_zero _ _ _ hlimit hempty] at h
      cases mem_throw.mp h
  | succ budget ih =>
    have hiff := isEmpty_congr hfrontier
    by_cases hempty : frontier.isEmpty
    · exact hdone _ _ _ _ _ _ hsum hempty (hiff ▸ hempty) h
    · rw [machine.closeFrom_succ _ _ _ _ hlimit hempty] at h
      rw [machine'.closeFrom_succ _ _ _ _ hlimit' (hiff ▸ hempty)]
      obtain ⟨next, hnext, h⟩ := ok_mem_bind.mp h
      obtain ⟨_, _, h⟩ := ok_mem_bind.mp h
      obtain ⟨grown, hgrown, h⟩ := ok_mem_bind.mp h
      have hunion := sum.checked_union next
      rw [← mem_ofExcept.mp hgrown] at hunion
      refine (hbody _ _ _ hfrontier hnext).bind fun next' hnext' => ?_
      refine (surely_pure (P := fun _ => True) trivial).bind fun _ _ => ?_
      have hunion' := (sum'.checked_union next').congr fun s =>
        show _ = grown.count s by rw [hunion.count_eq, hsum, hnext']
      refine (hunion'.settles grown.count_le).bind fun grown' hgrown' => ?_
      exact ih (rounds + 1) (fun s => (hgrown' s).symm) (fun s => (hnext' s).symm) h

theorem count_singleton_congr {s s' : State V} (h : s == s') (u : State V) :
    (Bag.singleton s).count u = (Bag.singleton s').count u := by
  rw [Bag.count_singleton, Bag.count_singleton, BEq.congr_right h]

theorem settles_settle {x x' : Except Fault (State V)} (hx : Alike SameFate (State.Renamed 1) x x')
    {r : Configuration V} (h : .ok r ∈ (ofExcept (settle x) : Scheduled (Configuration V))) :
    Settles (ofExcept (settle x')) r.count := by
  intro o ho
  have hr := mem_ofExcept.mp h
  obtain rfl := mem_ofExcept.mp ho
  rw [settle_eq] at hr ⊢
  cases hx with
  | ok hs =>
    cases hr
    exact ⟨_, rfl, fun u => (count_singleton_congr ((State.renamed_one_iff _ _).mp hs) u).symm⟩
  | @error e e' hfate =>
    have hfate : e.isBranchFailure = e'.isBranchFailure := hfate
    by_cases hbranch : e.isBranchFailure
    · cases hr.trans (if_pos hbranch)
      exact ⟨_, if_pos (hfate ▸ hbranch), fun u => rfl⟩
    · cases hr.trans (if_neg hbranch)

/-- The counts after a projection are sums of counts before it. -/
theorem settles_project {inner inner' r : Configuration V} (x : Var)
    (hinner : ∀ s, inner'.count s = inner.count s)
    (h : Bag.ofCounts (inner.entries.map fun entry => (entry.1.project x, entry.2)) = .ok r) :
    Settles (ofExcept
      (Bag.ofCounts (inner'.entries.map fun entry => (entry.1.project x, entry.2)))) r.count := by
  obtain ⟨es, hes, hsame⟩ := Bag.exists_perm_of_count_eq hinner
  have hprojected : List.Forall₂ Bag.SameEntry
      (inner'.entries.map fun entry => (entry.1.project x, entry.2))
      (es.map fun entry => (entry.1.project x, entry.2)) := by
    rw [List.forall₂_map_left_iff, List.forall₂_map_right_iff]
    exact hsame.imp fun entry entry' hentry => ⟨State.project_beq hentry.1 x, hentry.2⟩
  have hcount := Bag.checked_ofCounts (inner.entries.map fun entry => (entry.1.project x, entry.2))
  rw [h] at hcount
  refine ((Bag.checked_ofCounts _).congr fun s => ?_).settles r.count_le
  rw [hcount.count_eq, Bag.weight_sameEntry s hprojected, Bag.weight_perm s (hes.map _)]

variable [ToString V]

/-- If a program can succeed under some schedules, then under any schedules it does, with the same
counts, from every configuration with the same counts. -/
theorem settles_possible (hbound : machine.config.maxIterations = machine'.config.maxIterations)
    (hlimit : machine.config.timeLimit = none) (hlimit' : machine'.config.timeLimit = none)
    (reserved : List Var) (program : Program V) {c c' r : Configuration V}
    (hc : ∀ s, c.count s = c'.count s) (h : .ok r ∈ machine.possible reserved program c) :
    Settles (machine'.possible reserved program c') r.count := by
  induction program using Program.enter_induction generalizing reserved c c' r with
  | skip =>
    rw [possible_skip] at h ⊢
    cases mem_pure.mp h
    exact surely_pure fun s => (hc s).symm
  | fail =>
    rw [possible_fail] at h ⊢
    cases mem_pure.mp h
    exact surely_pure fun s => rfl
  | seq p q ihp ihq =>
    rw [possible_seq] at h ⊢
    obtain ⟨middle, hmiddle, h⟩ := ok_mem_bind.mp h
    refine (ihp reserved hc hmiddle).bind fun middle' hmiddle' => ?_
    exact ihq reserved (fun s => (hmiddle' s).symm) h
  | iterate p ih =>
    rw [possible_iterate] at h ⊢
    obtain ⟨fixpoint, hfixpoint, h⟩ := ok_mem_bind.mp h
    cases mem_pure.mp h
    unfold close at hfixpoint ⊢
    rw [← hbound]
    have hbody := fun c c' r hc h => @ih reserved c c' r hc h
    refine (settles_closeFrom hbody hlimit hlimit' _ 0 hc hc hfixpoint).bind ?_
    rintro fixpoint' ⟨_, hcount⟩
    exact surely_pure hcount
  | branch p q ihp ihq =>
    rw [possible_branch] at h ⊢
    refine settles_forEach (fun s s' r hs h => ?_) hc h
    obtain ⟨left, hleft, h⟩ := ok_mem_bind.mp h
    obtain ⟨right, hright, h⟩ := ok_mem_bind.mp h
    have hunion := left.checked_union right
    rw [← mem_ofExcept.mp h] at hunion
    have hleft' := ihp reserved (count_singleton_congr hs) hleft
    have hright' := ihq reserved (count_singleton_congr hs) hright
    refine hleft'.bind fun left' hleft' => hright'.bind fun right' hright' => ?_
    have hunion' := (left'.checked_union right').congr fun u =>
      show _ = r.count u by rw [hunion.count_eq, hleft', hright']
    exact hunion'.settles r.count_le
  | push t location =>
    rw [possible_push] at h ⊢
    refine settles_forEach (fun s s' r hs h => settles_settle ?_ h) hc h
    exact ((State.renamed_one_iff s s').mpr hs).push t.renamed_one location
  | pop t location =>
    rw [possible_pop] at h ⊢
    refine settles_forEach (fun s s' r hs h => settles_settle ?_ h) hc h
    exact ((State.renamed_one_iff s s').mpr hs).pop t.renamed_one location
  | scope x p ih =>
    rw [possible_scope] at h ⊢
    refine settles_forEach (fun s s' r hs h => ?_) hc h
    -- Equal states differ in flags only, which the choice of a name does not look at.
    have hreserved : List.Forall₂ (Var.Renamed 1) reserved reserved :=
      List.forall₂_same.mpr fun _ _ => rfl
    have hfresh : freshFor x p s' reserved = freshFor x p s reserved :=
      freshFor_congr rfl fun y =>
        (p.renamed_one.inUse_eq ((State.renamed_one_iff s s').mpr hs) hreserved rfl).symm
    obtain ⟨inner, hinner, h⟩ := ok_mem_bind.mp h
    rw [hfresh]
    refine (ih _ _ (count_singleton_congr hs) hinner).bind fun inner' hinner' => ?_
    exact settles_project _ hinner' (mem_ofExcept.mp h).symm

/-- The schedule of a machine is one of the possible ones, and any two of them, of machines that may
differ in when they split, end alike: in equal bags, or both in a fault. -/
theorem schedule_independent (machine machine' : Machine)
    (hbound : machine.config.maxIterations = machine'.config.maxIterations)
    (hlimit : machine.config.timeLimit = none) (hlimit' : machine'.config.timeLimit = none)
    (program : Program V) (c : Configuration V) :
    machine.step program c ∈ machine.possible [] program c ∧
      machine'.step program c ∈ machine'.possible [] program c ∧
      ∀ o ∈ machine.possible [] program c, ∀ o' ∈ machine'.possible [] program c,
        ((∃ r, o = .ok r) ↔ ∃ r', o' = .ok r') ∧
          ∀ r r', o = .ok r → o' = .ok r' → r == r' := by
  refine ⟨machine.exec_mem_possible .., machine'.exec_mem_possible .., fun o ho o' ho' => ?_⟩
  have hforth : ∀ r, o = .ok r → ∃ r', o' = .ok r' ∧ ∀ s, r'.count s = r.count s := by
    rintro r rfl
    exact settles_possible hbound hlimit hlimit' [] program (fun _ => rfl) ho o' ho'
  have hback : ∀ r', o' = .ok r' → ∃ r, o = .ok r ∧ ∀ s, r.count s = r'.count s := by
    rintro r' rfl
    exact settles_possible hbound.symm hlimit' hlimit [] program (fun _ => rfl) ho' o ho
  refine ⟨⟨?_, ?_⟩, ?_⟩
  · rintro ⟨r, hr⟩
    obtain ⟨r', hr', _⟩ := hforth r hr
    exact ⟨r', hr'⟩
  · rintro ⟨r', hr'⟩
    obtain ⟨r, hr, _⟩ := hback r' hr'
    exact ⟨r, hr⟩
  · intro r r' hr hr'
    obtain ⟨r'', hr'', hcount⟩ := hforth r hr
    cases hr'.symm.trans hr''
    exact (Bag.beq_iff_count_eq r r').mpr fun s => (hcount s).symm

/-- Two states that a pop of `x` takes to one state, with counts whose sum does not fit. -/
def meetingStates : Configuration String where
  entries :=
    let memory : Memory String := ⟨.ofList [("l", .ofList [.value "v"])]⟩
    [(⟨memory, .empty⟩, maxCount), (⟨memory, .set .empty ⟨"x", false⟩ (.value "v")⟩, 1)]
  distinct := by
    refine .cons ?_ (List.pairwise_singleton _ _)
    intro entry hentry
    obtain rfl := List.mem_singleton.mp hentry
    rfl
  counted := by
    simp [maxCount]

/-- Where two states meet and overflow, no schedule avoids the fault. -/
theorem schedule_independent_meetingStates :
    step { config := { parallelThreshold := 2 } } (.popVar "x" "l") meetingStates =
        .error .multiplicityOverflow ∧
      ∀ o ∈ possible { config := { parallel := false } } [] (.popVar "x" "l") meetingStates,
        ¬ ∃ r, o = .ok r := by
  have hrun : step { config := { parallelThreshold := 2 } } (.popVar "x" "l") meetingStates =
      .error .multiplicityOverflow := by cbv
  obtain ⟨hmem, _, hall⟩ := schedule_independent { config := { parallelThreshold := 2 } }
    { config := { parallel := false } } rfl rfl rfl (.popVar "x" "l") meetingStates
  refine ⟨hrun, fun o ho hok => ?_⟩
  obtain ⟨r, hr⟩ := (hall _ hmem o ho).1.mpr hok
  cases hrun.symm.trans hr

end Machine

end StackCalculus
