import Mathlib
import StackCalculus.Bag.Lemmas
import StackCalculus.Proofs.Result

/-!
# Counts of bags and of lists

The operations on bags are exact: each gives the bag with the counts that arithmetic without a bound
gives, or an overflow if one of these does not fit (`Checked`). A list of elements stands for a bag
if each element occurs in it as often as its count says (`Represents`); unions are then appended
lists. Two lists for one bag agree up to order and `==` (`SameCounts.exists_perm`), so the mass that a
bag gives to a class of elements can be counted in any list for it (`Represents.mass_eq`).
-/

namespace StackCalculus

variable {α : Type} [BEq α]

/-! ## Exact operations -/

/-- The bag with the counts `w`, or an overflow if one of the counts does not fit. -/
inductive Checked (w : α → Nat) : Except Fault (Bag α) → Prop where
  | ok {bag : Bag α} (h : ∀ item, bag.count item = w item) : Checked w (.ok bag)
  | overflow {item : α} (h : maxCount < w item) : Checked w (.error .multiplicityOverflow)

theorem Checked.count_eq {w : α → Nat} {bag : Bag α} (h : Checked w (.ok bag)) (item : α) :
    bag.count item = w item := by
  cases h with
  | ok h => exact h item

theorem Checked.exists_ok {w : α → Nat} {x : Except Fault (Bag α)} (h : Checked w x)
    (hfits : ∀ item, w item ≤ maxCount) : ∃ bag, x = .ok bag ∧ ∀ item, bag.count item = w item := by
  cases h with
  | ok h => exact ⟨_, rfl, h⟩
  | overflow h => exact absurd (hfits _) (Nat.not_le_of_lt h)

theorem Checked.congr {w w' : α → Nat} {x : Except Fault (Bag α)} (h : Checked w x)
    (hw : ∀ item, w item = w' item) : Checked w' x := by
  rwa [show w' = w from (funext hw).symm]

namespace Bag

theorem weight_eq_zero {item : α} {pairs : List (α × Nat)}
    (h : ∀ pair ∈ pairs, (item == pair.1) = false) : weight item pairs = 0 := by
  induction pairs with
  | nil => rfl
  | cons pair rest ih =>
    obtain ⟨hpair, hrest⟩ := List.forall_mem_cons.mp h
    rw [weight, hpair, ih hrest]
    rfl

variable [EquivBEq α]

/-- The entries of a bag are different, so the weight of an element in them is its count. -/
theorem weight_entries (bag : Bag α) (item : α) : weight item bag.entries = bag.count item := by
  have hentries : ∀ {entries : List (α × Nat)},
      entries.Pairwise (fun a b => (a.1 == b.1) = false) →
        weight item entries = countIn item entries := by
    intro entries hdistinct
    induction entries with
    | nil => rfl
    | cons entry rest ih =>
      obtain ⟨hentry, hrest⟩ := List.pairwise_cons.mp hdistinct
      rw [weight, countIn]
      by_cases heq : item == entry.1
      · have hzero : weight item rest = 0 := weight_eq_zero fun other hother => by
          rw [BEq.congr_left heq]
          exact hentry other hother
        rw [if_pos heq, if_pos heq, hzero, Nat.add_zero]
      · rw [if_neg heq, if_neg heq, Nat.zero_add, ih hrest]
  exact hentries bag.distinct

theorem count_of_mem {bag : Bag α} {entry : α × Nat} (h : entry ∈ bag.entries) :
    bag.count entry.1 = entry.2 := by
  have hentries : ∀ {entries : List (α × Nat)},
      entries.Pairwise (fun a b => (a.1 == b.1) = false) → entry ∈ entries →
        countIn entry.1 entries = entry.2 := by
    intro entries hdistinct hmem
    induction entries with
    | nil => exact absurd hmem List.not_mem_nil
    | cons head rest ih =>
      obtain ⟨hhead, hrest⟩ := List.pairwise_cons.mp hdistinct
      rw [countIn]
      rcases List.mem_cons.mp hmem with rfl | hmem
      · rw [if_pos (BEq.refl _)]
      · have hne : ¬ entry.1 == head.1 := by
          rw [BEq.comm, hhead entry hmem]
          exact Bool.false_ne_true
        rw [if_neg hne, ih hrest hmem]
  exact hentries bag.distinct h

theorem checked_insertAll (bag : Bag α) (pairs : List (α × Nat)) :
    Checked (fun item => bag.count item + weight item pairs) (bag.insertAll pairs) := by
  have hiff := insertAll_isOk_iff pairs bag
  cases h : bag.insertAll pairs with
  | ok grown => exact .ok (count_insertAll h)
  | error fault =>
    have hfault : ∀ {pairs : List (α × Nat)} {bag : Bag α}, bag.insertAll pairs = .error fault →
        fault = .multiplicityOverflow := by
      intro pairs
      induction pairs with
      | nil =>
        intro bag h
        cases h
      | cons pair rest ih =>
        intro bag h
        rw [insertAll, List.foldlM_cons] at h
        cases hinsert : bag.insert pair.1 pair.2 with
        | error fault' =>
          rw [hinsert] at h
          cases h
          exact eq_overflow_of_insert hinsert
        | ok next =>
          rw [hinsert] at h
          exact ih h
    obtain rfl := hfault h
    rw [h] at hiff
    have hbig : ¬ ∀ item, bag.count item + weight item pairs ≤ maxCount := fun hfits =>
      Bool.false_ne_true (hiff.mpr hfits)
    obtain ⟨item, hitem⟩ := not_forall.mp hbig
    exact .overflow (Nat.lt_of_not_le hitem)

/-- A union adds the counts, whichever bag is added to the other. -/
theorem checked_union (left right : Bag α) :
    Checked (fun item => left.count item + right.count item) (left.union right) := by
  unfold union
  split
  · refine (right.checked_insertAll left.entries).congr fun item => ?_
    rw [weight_entries, Nat.add_comm]
  · refine (left.checked_insertAll right.entries).congr fun item => ?_
    rw [weight_entries]

theorem count_union {left right sum : Bag α} (h : left.union right = .ok sum) (item : α) :
    sum.count item = left.count item + right.count item := by
  have hunion := left.checked_union right
  rw [h] at hunion
  exact hunion.count_eq item

theorem checked_ofCounts (pairs : List (α × Nat)) :
    Checked (fun item => weight item pairs) (ofCounts pairs) :=
  (empty.checked_insertAll pairs).congr fun item => by rw [count_empty, Nat.zero_add]

theorem checked_scale (bag : Bag α) (factor : Nat) :
    Checked (fun item => bag.count item * factor) (bag.scale factor) := by
  have hscaled : ∀ (item : α) (entries : List (α × Nat)),
      countIn item (entries.map fun entry => (entry.1, entry.2 * factor)) =
        countIn item entries * factor := by
    intro item entries
    induction entries with
    | nil => exact (Nat.zero_mul factor).symm
    | cons entry rest ih =>
      rw [List.map_cons, countIn, countIn, ih]
      split <;> rfl
  unfold scale
  split
  · rename_i hzero
    refine .ok fun item => ?_
    rw [hzero, Nat.mul_zero]
    rfl
  · split
    · exact .ok fun item => hscaled item bag.entries
    · rename_i hbig
      obtain ⟨entry, hentry⟩ := not_forall.mp hbig
      obtain ⟨hmem, hentry⟩ := Classical.not_imp.mp hentry
      have hover : maxCount < bag.count entry.1 * factor := by
        rw [count_of_mem hmem]
        exact Nat.lt_of_not_le hentry
      exact .overflow hover

/-! ### Equality -/

/-- The same element up to `==`, with the same count. -/
def SameEntry (entry entry' : α × Nat) : Prop := entry.1 == entry'.1 ∧ entry.2 = entry'.2

omit [EquivBEq α] in
theorem exists_of_countIn_pos {item : α} {entries : List (α × Nat)}
    (h : 0 < countIn item entries) :
    ∃ before entry after, entries = before ++ entry :: after ∧ item == entry.1 ∧
      countIn item entries = entry.2 := by
  induction entries with
  | nil => exact absurd h (Nat.lt_irrefl 0)
  | cons head rest ih =>
    rw [countIn] at h ⊢
    split
    · rename_i heq
      exact ⟨[], head, rest, rfl, heq, rfl⟩
    · rename_i hne
      rw [if_neg hne] at h
      obtain ⟨before, entry, after, rfl, heq, hcount⟩ := ih h
      exact ⟨head :: before, entry, after, rfl, heq, hcount⟩

omit [EquivBEq α] in
theorem countIn_drop {item : α} {entry : α × Nat} (hne : ¬ item == entry.1)
    (before after : List (α × Nat)) :
    countIn item (before ++ entry :: after) = countIn item (before ++ after) := by
  induction before with
  | nil => exact if_neg hne
  | cons head rest ih => rw [List.cons_append, List.cons_append, countIn, countIn, ih]

/-- If `φ` takes different entries to elements that have the counts `w` in `ys`, they are met by
different entries of `ys`. -/
theorem exists_matching {φ : α → α} (hφ : ∀ a b, φ a == φ b → a == b) {w : α × Nat → Nat}
    {xs ys : List (α × Nat)} (hdistinct : xs.Pairwise fun a b => (a.1 == b.1) = false)
    (hpos : ∀ entry ∈ xs, 0 < w entry) (hcount : ∀ entry ∈ xs, countIn (φ entry.1) ys = w entry) :
    ∃ es rest, ys.Perm (es ++ rest) ∧
      List.Forall₂ (fun entry entry' => φ entry.1 == entry'.1 ∧ w entry = entry'.2) xs es := by
  induction xs generalizing ys with
  | nil => exact ⟨[], ys, .refl _, .nil⟩
  | cons x xs ih =>
    obtain ⟨hx, hxs⟩ := List.pairwise_cons.mp hdistinct
    obtain ⟨hposx, hposxs⟩ := List.forall_mem_cons.mp hpos
    obtain ⟨hcountx, hcountxs⟩ := List.forall_mem_cons.mp hcount
    have hfound : 0 < countIn (φ x.1) ys := by omega
    obtain ⟨before, y, after, rfl, hxy, hy⟩ := exists_of_countIn_pos hfound
    have hothers : ∀ entry ∈ xs, countIn (φ entry.1) (before ++ after) = w entry := by
      intro entry hentry
      have hne : ¬ φ entry.1 == y.1 := by
        intro heq
        have hsame := hφ _ _ (BEq.trans hxy (BEq.symm heq))
        rw [hx entry hentry] at hsame
        exact Bool.false_ne_true hsame
      rw [← countIn_drop hne before after]
      exact hcountxs entry hentry
    obtain ⟨es, rest, hperm, hes⟩ := ih hxs hposxs hothers
    have hmet : φ x.1 == y.1 ∧ w x = y.2 := ⟨hxy, hcountx.symm.trans hy⟩
    exact ⟨y :: es, rest, List.perm_middle.trans (hperm.cons y), .cons hmet hes⟩

/-- If different entries have their counts in `ys`, they are met by different entries of `ys`. -/
theorem exists_sameEntry {xs ys : List (α × Nat)}
    (hdistinct : xs.Pairwise fun a b => (a.1 == b.1) = false) (hpos : ∀ entry ∈ xs, 0 < entry.2)
    (hcount : ∀ entry ∈ xs, countIn entry.1 ys = entry.2) :
    ∃ es rest, ys.Perm (es ++ rest) ∧ List.Forall₂ SameEntry xs es :=
  exists_matching (φ := id) (fun _ _ h => h) hdistinct hpos hcount

omit [EquivBEq α] in
theorem weight_perm (item : α) {xs ys : List (α × Nat)} (h : xs.Perm ys) :
    weight item xs = weight item ys := by
  induction h with
  | nil => rfl
  | cons entry _ ih => rw [weight, weight, ih]
  | swap a b rest =>
    simp only [weight]
    omega
  | trans _ _ ih ih' => exact ih.trans ih'

theorem weight_sameEntry (item : α) {xs ys : List (α × Nat)} (h : List.Forall₂ SameEntry xs ys) :
    weight item xs = weight item ys := by
  induction h with
  | nil => rfl
  | cons hentry _ ih => rw [weight, weight, BEq.congr_right hentry.1, hentry.2, ih]

/-- The entries of bags with the same counts are the same up to order and `==`. -/
theorem exists_perm_of_count_eq {a b : Bag α} (h : ∀ item, a.count item = b.count item) :
    ∃ es, b.entries.Perm es ∧ List.Forall₂ SameEntry a.entries es := by
  have hcount : ∀ {a b : Bag α}, (∀ item, a.count item = b.count item) →
      ∀ entry ∈ a.entries, countIn entry.1 b.entries = entry.2 := fun h entry hentry =>
    (h entry.1).symm.trans (count_of_mem hentry)
  obtain ⟨es, rest, hperm, hes⟩ :=
    exists_sameEntry a.distinct (fun entry he => (a.counted entry he).1) (hcount h)
  obtain ⟨es', rest', hperm', hes'⟩ :=
    exists_sameEntry b.distinct (fun entry he => (b.counted entry he).1) (hcount fun item => (h item).symm)
  -- Each bag has room for the other, so no entry is left over.
  have hlength := hperm.length_eq
  have hlength' := hperm'.length_eq
  rw [List.length_append, ← hes.length_eq] at hlength
  rw [List.length_append, ← hes'.length_eq] at hlength'
  obtain rfl : rest = [] := List.eq_nil_of_length_eq_zero (by omega)
  rw [List.append_nil] at hperm
  exact ⟨es, hperm, hes⟩

/-- Bags are equal exactly when they have the same counts. -/
theorem beq_iff_count_eq (a b : Bag α) : a == b ↔ ∀ item, a.count item = b.count item := by
  have hbeq : a == b ↔ a.size = b.size ∧ ∀ entry ∈ a.entries, b.count entry.1 = entry.2 := by
    show (a.size == b.size && a.entries.all fun entry => b.count entry.1 == entry.2) = true ↔ _
    rw [Bool.and_eq_true, beq_iff_eq, List.all_eq_true]
    simp only [beq_iff_eq]
  rw [hbeq]
  constructor
  · rintro ⟨hsize, hcount⟩ item
    obtain ⟨es, rest, hperm, hes⟩ :=
      exists_sameEntry a.distinct (fun entry he => (a.counted entry he).1) hcount
    have hlength := hperm.length_eq
    rw [List.length_append, ← hes.length_eq] at hlength
    have hsizes : a.entries.length = b.entries.length := hsize
    obtain rfl : rest = [] := List.eq_nil_of_length_eq_zero (by omega)
    rw [List.append_nil] at hperm
    rw [← a.weight_entries, ← b.weight_entries, weight_sameEntry item hes, weight_perm item hperm]
  · intro h
    obtain ⟨es, hperm, hes⟩ := exists_perm_of_count_eq h
    refine ⟨hes.length_eq.trans hperm.length_eq.symm, fun entry hentry => ?_⟩
    exact (h entry.1).symm.trans (count_of_mem hentry)

end Bag

/-! ## Lists with the same counts -/

section Lists

variable [EquivBEq α]

/-- Every element occurs equally often in both lists. -/
def SameCounts (xs ys : List α) : Prop := ∀ item, xs.count item = ys.count item

/-- Lists with the same counts agree up to order and `==`. -/
theorem SameCounts.exists_perm {xs ys : List α} (h : SameCounts xs ys) :
    ∃ zs, xs.Perm zs ∧ List.Forall₂ (fun a b => a == b) zs ys := by
  induction ys generalizing xs with
  | nil =>
    cases xs with
    | nil => exact ⟨[], .refl _, .nil⟩
    | cons x xs =>
      have hx := h x
      rw [List.count_cons, if_pos (BEq.refl x), List.count_nil] at hx
      omega
  | cons y ys ih =>
    have hpos : 0 < xs.count y := by
      rw [h y, List.count_cons, if_pos (BEq.refl y)]
      omega
    obtain ⟨x, hx, hxy⟩ := List.countP_pos_iff.mp hpos
    obtain ⟨before, after, rfl⟩ := List.append_of_mem hx
    have hfront : (before ++ x :: after).Perm (x :: (before ++ after)) := List.perm_middle
    have hrest : SameCounts (before ++ after) ys := by
      intro item
      have hitem := h item
      have hmoved : (before ++ x :: after).count item = (x :: (before ++ after)).count item :=
        hfront.countP_eq _
      rw [hmoved, List.count_cons, List.count_cons, BEq.congr_left hxy] at hitem
      omega
    obtain ⟨zs, hperm, hzs⟩ := ih hrest
    exact ⟨x :: zs, hfront.trans (hperm.cons x), .cons hxy hzs⟩

omit [EquivBEq α] in
theorem SameCounts.of_perm {xs ys : List α} (h : xs.Perm ys) : SameCounts xs ys := fun _ =>
  h.countP_eq _

omit [BEq α] [EquivBEq α] in
theorem countP_eq_of_forall₂ {R : α → α → Prop} {p : α → Bool} (hp : ∀ a b, R a b → p a = p b)
    {xs ys : List α} (h : List.Forall₂ R xs ys) : xs.countP p = ys.countP p := by
  induction h with
  | nil => rfl
  | cons hab _ ih => rw [List.countP_cons, List.countP_cons, hp _ _ hab, ih]

theorem SameCounts.of_forall₂ {xs ys : List α} (h : List.Forall₂ (fun a b => a == b) xs ys) :
    SameCounts xs ys := fun _ => countP_eq_of_forall₂ (fun _ _ hab => BEq.congr_left hab) h

/-- Lists with the same counts have equally many elements in a class that respects `==`. -/
theorem SameCounts.countP_eq {xs ys : List α} (h : SameCounts xs ys) {p : α → Bool}
    (hp : ∀ a b, a == b → p a = p b) : xs.countP p = ys.countP p := by
  obtain ⟨zs, hperm, hzs⟩ := h.exists_perm
  rw [hperm.countP_eq, countP_eq_of_forall₂ hp hzs]

/-- A computation that respects `==` gathers alike from lists with the same counts. -/
theorem SameCounts.gather {f : α → Except Fault (List α)}
    (hf : ∀ a b, a == b → Alike AnyFault (List.Forall₂ fun c d => c == d) (f a) (f b))
    {xs ys : List α} (h : SameCounts xs ys) :
    Alike AnyFault SameCounts (StackCalculus.gather f xs) (StackCalculus.gather f ys) := by
  obtain ⟨zs, hperm, hzs⟩ := h.exists_perm
  refine ((gather_perm f hperm).trans (gather_forall₂ hzs hf)).mono (fun _ _ h => h) ?_
  rintro as cs ⟨bs, hab, hbc⟩ item
  rw [SameCounts.of_perm hab item, SameCounts.of_forall₂ hbc item]

end Lists

/-! ## Lists for bags -/

/-- The list has the elements of the bag, each as often as its count says. -/
def Represents (xs : List α) (bag : Bag α) : Prop := ∀ item, bag.count item = xs.count item

namespace Bag

/-- The elements of a bag, each repeated as often as its count says. -/
def expand (bag : Bag α) : List α :=
  bag.entries.flatMap fun entry => List.replicate entry.2 entry.1

theorem mem_expand {bag : Bag α} {item : α} :
    item ∈ bag.expand ↔ ∃ entry ∈ bag.entries, entry.1 = item := by
  rw [expand, List.mem_flatMap]
  constructor
  · rintro ⟨entry, hentry, hitem⟩
    exact ⟨entry, hentry, (List.eq_of_mem_replicate hitem).symm⟩
  · rintro ⟨entry, hentry, rfl⟩
    have hpos := (bag.counted entry hentry).1
    exact ⟨entry, hentry, List.mem_replicate.mpr ⟨Nat.ne_of_gt hpos, rfl⟩⟩

/-- What comes out of each element is counted as often as the element is. -/
theorem count_flatMap_expand (bag : Bag α) (f : α → List α) (item : α) :
    (bag.expand.flatMap f).count item =
      (bag.entries.map fun entry => entry.2 * (f entry.1).count item).sum := by
  rw [expand, List.flatMap_assoc, List.count_flatMap]
  congr 1
  refine List.map_congr_left fun entry _ => ?_
  show List.count item ((List.replicate entry.2 entry.1).flatMap f) = _
  rw [List.flatMap_replicate, List.count_flatten, List.map_replicate, List.sum_replicate, smul_eq_mul]

open Classical in
/-- The sum of the counts of the elements in a class. -/
noncomputable def mass (bag : Bag α) (P : α → Prop) : Nat :=
  (bag.entries.map fun entry => if P entry.1 then entry.2 else 0).sum

open Classical in
theorem mass_eq_countP_expand (bag : Bag α) (P : α → Prop) :
    bag.mass P = bag.expand.countP fun a => P a := by
  have hentries : ∀ entries : List (α × Nat),
      (entries.map fun entry => if P entry.1 then entry.2 else 0).sum =
        (entries.flatMap fun entry => List.replicate entry.2 entry.1).countP fun a => P a := by
    intro entries
    induction entries with
    | nil => rfl
    | cons entry rest ih =>
      rw [List.map_cons, List.sum_cons, List.flatMap_cons, List.countP_append, ih,
        List.countP_replicate]
      simp only [decide_eq_true_eq]
  exact hentries bag.entries

open Classical in
theorem mass_singleton (a : α) (P : α → Prop) : (singleton a).mass P = if P a then 1 else 0 :=
  List.sum_singleton

end Bag

theorem represents_empty : Represents ([] : List α) .empty := fun _ => rfl

section Representation

variable [EquivBEq α]

theorem represents_singleton (a : α) : Represents [a] (.singleton a) := by
  intro item
  rw [Bag.count_singleton, List.count_singleton, BEq.comm]

/-- The weight of an element is the number of its copies when every pair is written out. -/
theorem Bag.weight_eq_count (item : α) (pairs : List (α × Nat)) :
    weight item pairs = (pairs.flatMap fun pair => List.replicate pair.2 pair.1).count item := by
  induction pairs with
  | nil => rfl
  | cons pair rest ih =>
    have hcopies : (List.replicate pair.2 pair.1).count item =
        if pair.1 == item then pair.2 else 0 := List.countP_replicate ..
    rw [weight, List.flatMap_cons, List.count_append, hcopies, ih, BEq.comm]

theorem represents_expand (bag : Bag α) : Represents bag.expand bag := by
  intro item
  rw [← bag.weight_entries, Bag.weight_eq_count]
  rfl

namespace Represents

variable {xs ys : List α} {a : Bag α}

omit [EquivBEq α] in
theorem sameCounts (h : Represents xs a) (h' : Represents ys a) : SameCounts xs ys := fun item =>
  (h item).symm.trans (h' item)

omit [EquivBEq α] in
theorem congr (h : Represents xs a) (hxs : SameCounts xs ys) : Represents ys a := fun item =>
  (h item).trans (hxs item)

theorem isEmpty_iff (h : Represents xs a) : a.isEmpty ↔ xs = [] := by
  constructor
  · intro hempty
    have hnil : a.entries = [] := List.isEmpty_iff.mp hempty
    cases xs with
    | nil => rfl
    | cons x xs =>
      have hx := h x
      rw [Bag.count, hnil, List.count_cons, if_pos (BEq.refl x)] at hx
      exact absurd hx (Nat.succ_ne_zero _).symm
  · rintro rfl
    cases hentries : a.entries with
    | nil =>
      rw [Bag.isEmpty, hentries]
      rfl
    | cons entry rest =>
      have hmem : entry ∈ a.entries := hentries ▸ List.mem_cons_self
      have hpos := (a.counted entry hmem).1
      have hcount := h entry.1
      rw [Bag.count_of_mem hmem, List.count_nil] at hcount
      omega

open Classical in
/-- The mass of a class that respects `==` is the number of its elements in a list for the bag. -/
theorem mass_eq (h : Represents xs a) {P : α → Prop} (hP : ∀ c d, c == d → (P c ↔ P d)) :
    a.mass P = xs.countP fun c => P c := by
  rw [Bag.mass_eq_countP_expand]
  exact ((represents_expand a).sameCounts h).countP_eq fun c d hcd => decide_eq_decide.mpr (hP c d hcd)

/-- The counts that arise when a function that respects `==` is mapped over the elements. -/
theorem weight_map (h : Represents xs a) {f : α → α} (hf : ∀ c d, c == d → f c == f d) (item : α) :
    Bag.weight item (a.entries.map fun entry => (f entry.1, entry.2)) = (xs.map f).count item := by
  have hweight : ∀ entries : List (α × Nat),
      Bag.weight item (entries.map fun entry => (f entry.1, entry.2)) =
        (entries.flatMap fun entry => List.replicate entry.2 entry.1).countP
          fun c => f c == item := by
    intro entries
    induction entries with
    | nil => rfl
    | cons entry rest ih =>
      rw [List.map_cons, Bag.weight, List.flatMap_cons, List.countP_append, List.countP_replicate, ih,
        BEq.comm]
  have hclass : ∀ c d, c == d → (f c == item) = (f d == item) := fun c d hcd =>
    BEq.congr_left (hf c d hcd)
  have hcount := ((represents_expand a).sameCounts h).countP_eq hclass
  rw [hweight, List.count, List.countP_map]
  exact hcount

end Represents

/-- Equal bags give the same mass to a class that respects `==`. -/
theorem Bag.mass_of_beq {a b : Bag α} (h : a == b) {P : α → Prop}
    (hP : ∀ c d, c == d → (P c ↔ P d)) : a.mass P = b.mass P := by
  have hcounts := (Bag.beq_iff_count_eq a b).mp h
  have hab : Represents b.expand a := fun item => (hcounts item).trans (represents_expand b item)
  rw [hab.mass_eq hP, Bag.mass_eq_countP_expand]

end Representation

end StackCalculus
