import StackCalculus.Bag

/-!
# Counts of bags

What each operation does to the counts, for elements compared by an equivalence. `weight` sums up the
counts that a list of pairs gives to an element; adding the list to a bag succeeds exactly when every
sum fits, and then adds the weights (`insertAll_isOk_iff`, `count_insertAll`).
-/

namespace StackCalculus.Bag

variable {α : Type} [BEq α]

/-- The sum of the counts that a list of pairs gives to an element. -/
def weight (item : α) : List (α × Nat) → Nat
  | [] => 0
  | pair :: rest => (if item == pair.1 then pair.2 else 0) + weight item rest

@[simp] theorem count_empty (item : α) : (empty : Bag α).count item = 0 := rfl

@[simp] theorem count_singleton (a item : α) :
    (singleton a).count item = if item == a then 1 else 0 := rfl

/-! ## Entry lists -/

theorem countIn_le {item : α} {entries : List (α × Nat)}
    (hcounted : ∀ entry ∈ entries, 0 < entry.2 ∧ entry.2 ≤ maxCount) :
    countIn item entries ≤ maxCount := by
  induction entries with
  | nil => exact Nat.zero_le _
  | cons head rest ih =>
    unfold countIn
    split
    · exact (hcounted head List.mem_cons_self).2
    · exact ih fun entry hentry => hcounted entry (List.mem_cons_of_mem _ hentry)

theorem count_le (bag : Bag α) (item : α) : bag.count item ≤ maxCount := countIn_le bag.counted

theorem contains_iff (bag : Bag α) (item : α) : bag.contains item ↔ 0 < bag.count item := by
  rw [Nat.pos_iff_ne_zero, Ne, count, countIn_eq_zero_iff bag.counted, contains, List.any_eq_true]
  constructor
  · rintro ⟨entry, hentry, heq⟩ hnone
    rw [hnone entry hentry] at heq
    exact absurd heq (by decide)
  · intro hsome
    apply Classical.byContradiction
    intro hnone
    exact hsome fun entry hentry => Bool.eq_false_iff.mpr fun heq => hnone ⟨entry, hentry, heq⟩

/-! ## When adding succeeds -/

theorem insert_isOk_iff (bag : Bag α) (a : α) (copies : Nat) :
    (bag.insert a copies).isOk ↔ bag.count a + copies ≤ maxCount := by
  unfold insert
  split
  · rename_i hzero
    subst hzero
    exact ⟨fun _ => bag.count_le a, fun _ => rfl⟩
  · split
    · rename_i hfits
      split <;> exact ⟨fun _ => hfits, fun _ => rfl⟩
    · rename_i hfits
      exact ⟨fun h => absurd h Bool.false_ne_true, fun h => absurd h hfits⟩

theorem eq_overflow_of_insert {bag : Bag α} {a : α} {copies : Nat} {fault : Fault}
    (h : bag.insert a copies = .error fault) : fault = .multiplicityOverflow := by
  unfold insert at h
  split at h
  · cases h
  · split at h
    · split at h <;> cases h
    · cases h
      rfl

/-! ## Operations that change nothing -/

theorem scale_one (bag : Bag α) : bag.scale 1 = .ok bag := by
  have hfits : ∀ entry ∈ bag.entries, entry.2 * 1 ≤ maxCount := fun entry hentry => by
    rw [Nat.mul_one]
    exact (bag.counted entry hentry).2
  unfold scale
  rw [dif_neg Nat.one_ne_zero, dif_pos hfits]
  refine congrArg Except.ok (ext ?_)
  show bag.entries.map (fun entry => (entry.1, entry.2 * 1)) = bag.entries
  simp only [Nat.mul_one]
  exact List.map_id _

theorem empty_union (bag : Bag α) : (empty : Bag α).union bag = .ok bag := by
  unfold union
  split
  · rfl
  · next hsize =>
    -- Not larger than the empty bag: both are empty.
    have hnil : bag.entries = [] := List.eq_nil_of_length_eq_zero (Nat.le_zero.mp (Nat.not_lt.mp hsize))
    rw [hnil]
    exact congrArg Except.ok (ext hnil.symm)

/-! ## Counts under an equivalence -/

section Equivalence

variable [EquivBEq α]

theorem countIn_congr {a b : α} (h : a == b) (entries : List (α × Nat)) :
    countIn a entries = countIn b entries := by
  induction entries with
  | nil => rfl
  | cons head rest ih => rw [countIn, countIn, BEq.congr_left h, ih]

theorem countIn_addIn (a item : α) (copies : Nat) {entries : List (α × Nat)}
    (hmem : entries.any fun entry => a == entry.1) :
    countIn item (addIn a copies entries) =
      countIn item entries + if item == a then copies else 0 := by
  induction entries with
  | nil => exact absurd hmem (by simp)
  | cons head rest ih =>
    unfold addIn
    by_cases h : a == head.1
    · -- The entry of `a` comes first: its count changes for the elements equal to `a` only.
      rw [if_pos h, countIn, countIn]
      have hsame : (item == head.1) = (item == a) := (BEq.congr_right h).symm
      rw [hsame]
      split <;> rfl
    · have hrest : rest.any fun entry => a == entry.1 := by
        rw [List.any_cons, Bool.eq_false_iff.mpr h, Bool.false_or] at hmem
        exact hmem
      rw [if_neg h, countIn, countIn]
      by_cases hitem : item == head.1
      · have hne : (item == a) = false := Bool.eq_false_iff.mpr fun heq =>
          h (BEq.trans (BEq.symm heq) hitem)
        rw [if_pos hitem, if_pos hitem, hne]
        rfl
      · rw [if_neg hitem, if_neg hitem, ih hrest]

theorem count_insert {bag grown : Bag α} {a : α} {copies : Nat}
    (h : bag.insert a copies = .ok grown) (item : α) :
    grown.count item = bag.count item + if item == a then copies else 0 := by
  unfold insert at h
  split at h
  · rename_i hzero
    cases h
    rw [hzero, ite_self, Nat.add_zero]
  · split at h
    · split at h
      · rename_i habsent
        cases h
        show countIn item ((a, copies) :: bag.entries) = _
        rw [countIn]
        by_cases heq : item == a
        · have hzero : bag.count item = 0 := by
            rw [count, countIn_congr heq]
            exact habsent
          rw [if_pos heq, if_pos heq, hzero, Nat.zero_add]
        · rw [if_neg heq, if_neg heq, Nat.add_zero]
          rfl
      · rename_i hpresent
        cases h
        exact countIn_addIn a item copies ((contains_iff bag a).mpr (Nat.pos_of_ne_zero hpresent))
    · cases h

theorem count_insertAll {pairs : List (α × Nat)} {bag grown : Bag α}
    (h : bag.insertAll pairs = .ok grown) (item : α) :
    grown.count item = bag.count item + weight item pairs := by
  induction pairs generalizing bag with
  | nil =>
    cases h
    rfl
  | cons pair rest ih =>
    rw [insertAll, List.foldlM_cons] at h
    cases hinsert : bag.insert pair.1 pair.2 with
    | error fault =>
      rw [hinsert] at h
      cases h
    | ok next =>
      rw [hinsert] at h
      rw [ih h, count_insert hinsert, weight, Nat.add_assoc]

theorem insertAll_isOk_iff (pairs : List (α × Nat)) (bag : Bag α) :
    (bag.insertAll pairs).isOk ↔ ∀ item, bag.count item + weight item pairs ≤ maxCount := by
  induction pairs generalizing bag with
  | nil => exact ⟨fun _ item => bag.count_le item, fun _ => rfl⟩
  | cons pair rest ih =>
    rw [insertAll, List.foldlM_cons]
    cases hinsert : bag.insert pair.1 pair.2 with
    | error fault =>
      have hbig : ¬ bag.count pair.1 + pair.2 ≤ maxCount := fun hfits => by
        have hok := (insert_isOk_iff bag pair.1 pair.2).mpr hfits
        rw [hinsert] at hok
        exact absurd hok Bool.false_ne_true
      refine ⟨fun h => absurd h Bool.false_ne_true, fun h => absurd (h pair.1) ?_⟩
      rw [weight, BEq.refl, if_pos rfl]
      omega
    | ok next =>
      show (next.insertAll rest).isOk ↔ _
      rw [ih]
      constructor <;> intro h item <;> have hitem := h item <;>
        rw [count_insert hinsert] at * <;> rw [weight] at * <;> omega

end Equivalence

end StackCalculus.Bag
