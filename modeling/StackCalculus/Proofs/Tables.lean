import Mathlib
import StackCalculus.Var
import StackCalculus.Proofs.Counting

/-!
# Tables

A bag is stored in a table of slots, which operations change in place. A table promises nothing about
its counts and has no order of its own. Between the two steps of an insertion there is a slot with
count 0, and a fault leaves a table as it is at that moment; still, no operation ever leaves such a
slot behind.

Each operation on tables is shown to be the one on bags: for insertions, whether they fail or not, this
is `run_insert_of_le`. Every table that operations can make is therefore the table of a bag
(`Built.exists_bag`), and what holds of bags holds of tables: operations are exact, fail exactly when a
count does not fit, and a failed insertion changes nothing (`Bag.operations_exact`).
-/

namespace StackCalculus

open Bag

/-- The slots that hold the elements of a bag with their counts. -/
abbrev Table (α : Type) := List (α × Nat)

/-- Changes of a table in place. After a fault the table is what it was when the fault occurred. -/
abbrev InPlace (α β : Type) := EStateM Fault (Table α) β

namespace Table

variable {α : Type} [BEq α]

/-! ## Operations -/

/-- Opens the slot of an element. An element without a slot gets one with count 0. -/
def openSlot (item : α) (table : Table α) : Table α :=
  if table.any fun slot => item == slot.1 then table else (item, 0) :: table

/-- Adds copies of an element. -/
def insert (item : α) (copies : Nat) : InPlace α Unit := do
  if copies = 0 then return
  modify (openSlot item)
  let table ← get
  if countIn item table + copies ≤ maxCount then modify (addIn item copies)
  else throw .multiplicityOverflow

/-- Adds elements with their counts, one after the other. -/
def insertAll (pairs : List (α × Nat)) : InPlace α Unit :=
  pairs.forM fun pair => insert pair.1 pair.2

omit [BEq α] in
/-- The table after some changes. If they fail, the table is dropped. -/
def after (changes : InPlace α Unit) (table : Table α) : Except Fault (Table α) :=
  match changes.run table with
  | .ok _ grown => .ok grown
  | .error fault _ => .error fault

/-- The table of a list of elements with counts. -/
def ofCounts (pairs : List (α × Nat)) : Except Fault (Table α) := after (insertAll pairs) []

/-- Counts one more occurrence of an element. A count that has reached `maxCount` stays there. -/
def tally (table : Table α) (item : α) : Table α :=
  let opened := openSlot item table
  if countIn item opened + 1 ≤ maxCount then addIn item 1 opened else opened

/-- The table of a list of elements. -/
def ofItems (items : List α) : Table α := items.foldl tally []

/-- The sum of two tables: the one with fewer slots is added to the other. -/
def union (left right : Table α) : Except Fault (Table α) :=
  if left.length < right.length then after (insertAll left) right else after (insertAll right) left

omit [BEq α] in
/-- Multiplies the count of a slot. -/
def scaleSlot (factor : Nat) (slot : α × Nat) : Except Fault (α × Nat) :=
  if slot.2 * factor ≤ maxCount then .ok (slot.1, slot.2 * factor) else .error .multiplicityOverflow

omit [BEq α] in
/-- Multiplies every count, slot by slot. -/
def scale (table : Table α) (factor : Nat) : Except Fault (Table α) :=
  if factor = 0 then .ok [] else table.mapM (scaleSlot factor)

/-- The tables that operations can make, in any order of their slots. An insertion may fail. -/
inductive Built : Table α → Prop where
  | empty : Built []
  | singleton (item : α) : Built [(item, 1)]
  | ofItems (items : List α) : Built (ofItems items)
  | ofCounts {pairs : List (α × Nat)} {table : Table α} (h : ofCounts pairs = .ok table) : Built table
  | inserted {table grown : Table α} {item : α} {copies : Nat} (htable : Built table)
      (h : (insert item copies).run table = .ok () grown) : Built grown
  | refused {table left : Table α} {item : α} {copies : Nat} {fault : Fault} (htable : Built table)
      (hcopies : copies ≤ maxCount) (h : (insert item copies).run table = .error fault left) : Built left
  | union {left right table : Table α} (hleft : Built left) (hright : Built right)
      (h : union left right = .ok table) : Built table
  | scale {table scaled : Table α} {factor : Nat} (htable : Built table)
      (h : scale table factor = .ok scaled) : Built scaled
  | reordered {table table' : Table α} (htable : Built table) (h : table.Perm table') : Built table'

/-! ## Insertions -/

theorem run_insert (item : α) (copies : Nat) (table : Table α) :
    (insert item copies).run table =
      if copies = 0 then .ok () table
      else if countIn item (openSlot item table) + copies ≤ maxCount then
        .ok () (addIn item copies (openSlot item table))
      else .error .multiplicityOverflow (openSlot item table) := by
  unfold insert
  split
  · rfl
  · show EStateM.run (if countIn item (openSlot item table) + copies ≤ maxCount then
      modify (addIn item copies) else throw Fault.multiplicityOverflow) (openSlot item table) = _
    split <;> rfl

theorem run_insertAll_cons (pair : α × Nat) (rest : List (α × Nat)) (table : Table α) :
    (insertAll (pair :: rest)).run table =
      match (insert pair.1 pair.2).run table with
      | .ok _ grown => (insertAll rest).run grown
      | .error fault left => .error fault left := by
  show EStateM.bind (insert pair.1 pair.2) (fun _ => insertAll rest) table = _
  unfold EStateM.bind EStateM.run
  cases insert pair.1 pair.2 table <;> rfl

theorem openSlot_of_count_eq_zero {bag : Bag α} {item : α} (h : bag.count item = 0) :
    openSlot item bag.entries = (item, 0) :: bag.entries := by
  refine if_neg fun hcontains => ?_
  have hpos : 0 < bag.count item := (bag.contains_iff item).mp hcontains
  omega

theorem openSlot_of_count_ne_zero {bag : Bag α} {item : α} (h : bag.count item ≠ 0) :
    openSlot item bag.entries = bag.entries :=
  if_pos ((bag.contains_iff item).mpr (Nat.pos_of_ne_zero h))

section Equivalence

variable [EquivBEq α]

/-- Opening a slot changes no count. -/
theorem countIn_openSlot (bag : Bag α) (item : α) :
    countIn item (openSlot item bag.entries) = bag.count item := by
  by_cases h : bag.count item = 0
  · rw [openSlot_of_count_eq_zero h, countIn, if_pos (BEq.refl item), h]
  · rw [openSlot_of_count_ne_zero h]
    rfl

/-- An insertion into the table of a bag makes the table of the grown bag, or leaves the slot open. -/
theorem run_insert_entries (bag : Bag α) (item : α) (copies : Nat) :
    (insert item copies).run bag.entries =
      match bag.insert item copies with
      | .ok grown => .ok () grown.entries
      | .error fault => .error fault (openSlot item bag.entries) := by
  rw [run_insert, countIn_openSlot, Bag.insert]
  by_cases hzero : copies = 0
  · rw [if_pos hzero, dif_pos hzero]
  rw [if_neg hzero, dif_neg hzero]
  by_cases hfits : bag.count item + copies ≤ maxCount
  · rw [if_pos hfits, dif_pos hfits]
    by_cases habsent : bag.count item = 0
    · have hadded : addIn item copies ((item, 0) :: bag.entries) = (item, copies) :: bag.entries := by
        rw [addIn, if_pos (BEq.refl item), Nat.zero_add]
      rw [dif_pos habsent, openSlot_of_count_eq_zero habsent, hadded]
    · rw [dif_neg habsent, openSlot_of_count_ne_zero habsent]
  · rw [if_neg hfits, dif_neg hfits]

/-- An insertion that fails leaves the table as it was: a count that fits overflows only when it is
added to copies that are there already, so no slot was opened. -/
theorem run_insert_of_le (bag : Bag α) (item : α) {copies : Nat} (hcopies : copies ≤ maxCount) :
    (insert item copies).run bag.entries =
      match bag.insert item copies with
      | .ok grown => .ok () grown.entries
      | .error fault => .error fault bag.entries := by
  rw [run_insert_entries]
  cases hinsert : bag.insert item copies with
  | ok grown => rfl
  | error fault =>
    have hpresent : bag.count item ≠ 0 := by
      intro hzero
      have hok := (insert_isOk_iff bag item copies).mpr (by omega)
      rw [hinsert] at hok
      exact Bool.false_ne_true hok
    rw [openSlot_of_count_ne_zero hpresent]

theorem exists_bag_of_run_insert {bag : Bag α} {item : α} {copies : Nat} {grown : Table α}
    (h : (insert item copies).run bag.entries = .ok () grown) :
    ∃ bag', bag.insert item copies = .ok bag' ∧ bag'.entries = grown := by
  rw [run_insert_entries] at h
  cases hinsert : bag.insert item copies with
  | ok bag' =>
    rw [hinsert] at h
    exact ⟨bag', rfl, (EStateM.Result.ok.inj h).2⟩
  | error fault =>
    rw [hinsert] at h
    cases h

theorem entries_of_run_insert {bag : Bag α} {item : α} {copies : Nat} {fault : Fault} {left : Table α}
    (hcopies : copies ≤ maxCount) (h : (insert item copies).run bag.entries = .error fault left) :
    bag.insert item copies = .error fault ∧ bag.entries = left := by
  rw [run_insert_of_le bag item hcopies] at h
  cases hinsert : bag.insert item copies with
  | ok bag' =>
    rw [hinsert] at h
    cases h
  | error fault' =>
    rw [hinsert] at h
    obtain ⟨rfl, rfl⟩ := EStateM.Result.error.inj h
    exact ⟨rfl, rfl⟩

/-! ## Tables of bags -/

theorem after_insertAll (bag : Bag α) (pairs : List (α × Nat)) :
    after (insertAll pairs) bag.entries = (bag.insertAll pairs).map Bag.entries := by
  induction pairs generalizing bag with
  | nil => rfl
  | cons pair rest ih =>
    unfold after at ih ⊢
    rw [run_insertAll_cons, run_insert_entries, Bag.insertAll, List.foldlM_cons]
    cases bag.insert pair.1 pair.2 with
    | ok grown => exact ih grown
    | error fault => rfl

theorem ofCounts_eq (pairs : List (α × Nat)) :
    ofCounts pairs = (Bag.ofCounts pairs).map Bag.entries :=
  after_insertAll .empty pairs

theorem union_entries (left right : Bag α) :
    union left.entries right.entries = (left.union right).map Bag.entries := by
  unfold union Bag.union
  show (if left.size < right.size then _ else _) = _
  split
  · exact after_insertAll right left.entries
  · exact after_insertAll left right.entries

omit [BEq α] [EquivBEq α] in
theorem mapM_scaleSlot (factor : Nat) (table : Table α) :
    table.mapM (scaleSlot factor) =
      if ∀ slot ∈ table, slot.2 * factor ≤ maxCount then
        .ok (table.map fun slot => (slot.1, slot.2 * factor))
      else .error .multiplicityOverflow := by
  induction table with
  | nil => rfl
  | cons slot rest ih =>
    rw [List.mapM_cons, ih, scaleSlot]
    simp only [List.forall_mem_cons]
    by_cases hslot : slot.2 * factor ≤ maxCount
    · by_cases hrest : ∀ slot ∈ rest, slot.2 * factor ≤ maxCount
      · rw [if_pos hslot, if_pos hrest, if_pos ⟨hslot, hrest⟩]
        rfl
      · rw [if_pos hslot, if_neg hrest, if_neg fun h => hrest h.2]
        rfl
    · rw [if_neg hslot, if_neg (c := _ ∧ _) fun h => hslot h.1]
      rfl

omit [EquivBEq α] in
theorem scale_entries (bag : Bag α) (factor : Nat) :
    scale bag.entries factor = (bag.scale factor).map Bag.entries := by
  unfold scale Bag.scale
  split
  · rfl
  · rw [mapM_scaleSlot]
    split <;> rfl

theorem tally_entries (bag : Bag α) (item : α) :
    tally bag.entries item = ((bag.insert item 1).toOption.getD bag).entries := by
  have hrun := run_insert item 1 bag.entries
  rw [if_neg Nat.one_ne_zero] at hrun
  -- Counting an occurrence ends where inserting one copy does, and never fails.
  by_cases hfits : countIn item (openSlot item bag.entries) + 1 ≤ maxCount
  · rw [if_pos hfits] at hrun
    obtain ⟨grown, hinsert, hentries⟩ := exists_bag_of_run_insert hrun
    rw [hinsert]
    exact (if_pos hfits).trans hentries.symm
  · rw [if_neg hfits] at hrun
    obtain ⟨hinsert, hentries⟩ := entries_of_run_insert (by decide) hrun
    rw [hinsert]
    exact (if_neg hfits).trans hentries.symm

theorem ofItems_eq (items : List α) : ofItems items = (Bag.ofList items).entries := by
  have hfold : ∀ bag : Bag α, items.foldl tally bag.entries =
      (items.foldl (fun bag item => (bag.insert item 1).toOption.getD bag) bag).entries := by
    induction items with
    | nil => exact fun bag => rfl
    | cons item rest ih =>
      intro bag
      rw [List.foldl_cons, List.foldl_cons, tally_entries, ih]
  exact hfold .empty

/-- Every table that operations can make is the table of a bag. -/
theorem Built.exists_bag {table : Table α} (h : table.Built) : ∃ bag : Bag α, bag.entries = table := by
  have hmap : ∀ {result : Except Fault (Bag α)} {table : Table α}, result.map Bag.entries = .ok table →
      ∃ bag : Bag α, bag.entries = table := by
    intro result table hresult
    cases result with
    | ok bag => exact ⟨bag, Except.ok.inj hresult⟩
    | error fault => cases hresult
  induction h with
  | empty => exact ⟨.empty, rfl⟩
  | singleton item => exact ⟨.singleton item, rfl⟩
  | ofItems items => exact ⟨.ofList items, (ofItems_eq items).symm⟩
  | ofCounts h =>
    rw [ofCounts_eq] at h
    exact hmap h
  | inserted _ h ih =>
    obtain ⟨bag, rfl⟩ := ih
    obtain ⟨bag', _, hentries⟩ := exists_bag_of_run_insert h
    exact ⟨bag', hentries⟩
  | refused _ hcopies h ih =>
    obtain ⟨bag, rfl⟩ := ih
    exact ⟨bag, (entries_of_run_insert hcopies h).2⟩
  | union _ _ h ihleft ihright =>
    obtain ⟨left, rfl⟩ := ihleft
    obtain ⟨right, rfl⟩ := ihright
    rw [union_entries] at h
    exact hmap h
  | scale _ h ih =>
    obtain ⟨bag, rfl⟩ := ih
    rw [scale_entries] at h
    exact hmap h
  | @reordered _ table' _ h ih =>
    obtain ⟨bag, rfl⟩ := ih
    have hdistinct : table'.Pairwise fun a b => (a.1 == b.1) = false :=
      h.pairwise bag.distinct fun hab => by rw [BEq.comm]; exact hab
    exact ⟨⟨table', hdistinct, fun slot hslot => bag.counted slot (h.mem_iff.mpr hslot)⟩, rfl⟩

end Equivalence

end Table

/-! ## Exact operations -/

namespace Bag

variable {α : Type} [BEq α]

/-- Succeeds exactly when all the counts `w` fit, and then with these counts. -/
def IsExact (w : α → Nat) (result : Except Fault (Bag α)) : Prop :=
  ((∃ bag, result = .ok bag) ↔ ∀ item, w item ≤ maxCount) ∧
    ∀ bag, result = .ok bag → ∀ item, bag.count item = w item

theorem isExact_of_checked {w : α → Nat} {result : Except Fault (Bag α)} (h : Checked w result) :
    IsExact w result := by
  refine ⟨⟨?_, fun hfits => ?_⟩, ?_⟩
  · rintro ⟨bag, rfl⟩ item
    rw [← h.count_eq item]
    exact bag.count_le item
  · obtain ⟨bag, hbag, _⟩ := h.exists_ok hfits
    exact ⟨bag, hbag⟩
  · rintro bag rfl
    exact h.count_eq

variable [EquivBEq α]

theorem checked_insert (bag : Bag α) (a : α) (copies : Nat) :
    Checked (fun item => bag.count item + if item == a then copies else 0) (bag.insert a copies) := by
  have hsingle : bag.insertAll [(a, copies)] = bag.insert a copies := by
    rw [insertAll, List.foldlM_cons]
    cases bag.insert a copies <;> rfl
  have hchecked := bag.checked_insertAll [(a, copies)]
  rw [hsingle] at hchecked
  exact hchecked

/-- Bags are exact functions from elements to counts. Every table that operations can make, failed
insertions included, holds counts from 1 to `maxCount` only. A list of pairs, a union, a multiple and an
insertion have the sums and products as their counts, and fail exactly when one of these does not
fit. An insertion that fails leaves the table, with all its elements and counts, as it was. -/
theorem operations_exact :
    (∀ table : Table α, table.Built → ∀ slot ∈ table, 1 ≤ slot.2 ∧ slot.2 ≤ maxCount) ∧
      (∀ pairs : List (α × Nat), IsExact (fun item => weight item pairs) (ofCounts pairs)) ∧
      (∀ left right : Bag α,
        IsExact (fun item => left.count item + right.count item) (left.union right)) ∧
      (∀ (bag : Bag α) (factor : Nat),
        IsExact (fun item => bag.count item * factor) (bag.scale factor)) ∧
      (∀ bag : Bag α, bag.scale 0 = .ok .empty) ∧
      (∀ (bag : Bag α) (a : α) (copies : Nat),
        IsExact (fun item => bag.count item + if item == a then copies else 0) (bag.insert a copies)) ∧
      ∀ (bag : Bag α) (a : α) (copies : Nat), copies ≤ maxCount →
        (Table.insert a copies).run bag.entries =
          match bag.insert a copies with
          | .ok grown => .ok () grown.entries
          | .error fault => .error fault bag.entries := by
  refine ⟨fun table htable slot hslot => ?_, fun pairs => ?_, fun left right => ?_,
    fun bag factor => ?_, fun bag => rfl, fun bag a copies => ?_, fun bag a copies hcopies => ?_⟩
  · obtain ⟨bag, rfl⟩ := htable.exists_bag
    exact bag.counted slot hslot
  · exact isExact_of_checked (checked_ofCounts pairs)
  · exact isExact_of_checked (left.checked_union right)
  · exact isExact_of_checked (bag.checked_scale factor)
  · exact isExact_of_checked (bag.checked_insert a copies)
  · exact Table.run_insert_of_le bag a hcopies

/-- Two variables that differ in their flags share a slot, whose count comes to the limit. -/
def upToLimit : List (Var × Nat) :=
  [(⟨"x", false⟩, maxCount - 1), (⟨"y", false⟩, 2), (⟨"x", true⟩, 1)]

/-- The counts of `x` add up to the limit; one more copy is refused and changes nothing. -/
theorem operations_exact_upToLimit :
    ∃ bag : Bag Var, ofCounts upToLimit = .ok bag ∧ bag.count ⟨"x", true⟩ = maxCount ∧
      (∀ slot ∈ bag.entries, 1 ≤ slot.2 ∧ slot.2 ≤ maxCount) ∧
      (Table.insert ⟨"x", true⟩ 1).run bag.entries = .error .multiplicityOverflow bag.entries := by
  obtain ⟨hbuilt, hcounts, _, _, _, hexact, hinsert⟩ := @operations_exact Var _ _
  have hok : (ofCounts upToLimit).isOk := by decide +kernel
  obtain ⟨bag, hbag⟩ := exists_ok_of_isOk hok
  have hfull : bag.count ⟨"x", true⟩ = maxCount := (hcounts upToLimit).2 bag hbag ⟨"x", true⟩
  have htable : Table.ofCounts upToLimit = .ok bag.entries := by
    rw [Table.ofCounts_eq, hbag]
    rfl
  refine ⟨bag, hbag, hfull, hbuilt bag.entries (.ofCounts htable), ?_⟩
  rw [hinsert bag ⟨"x", true⟩ 1 (by decide)]
  cases hrefused : bag.insert ⟨"x", true⟩ 1 with
  | ok grown =>
    have hfits : bag.count ⟨"x", true⟩ + 1 ≤ maxCount :=
      (hexact bag ⟨"x", true⟩ 1).1.mp ⟨grown, hrefused⟩ ⟨"x", true⟩
    omega
  | error fault =>
    obtain rfl := eq_overflow_of_insert hrefused
    rfl

end Bag

end StackCalculus
