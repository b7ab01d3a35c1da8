import StackCalculus.Fault

/-!
# Bags

A bag gives each of its elements a count from 1 to `maxCount`; every other element has count 0 and is
not stored. Adding and multiplying counts is checked: a count above `maxCount` is a fault. Elements
that are equal under `==` share one entry, and the element that was there first stays.
-/

namespace StackCalculus

/-- The largest count that a bag can hold: counts have 64 bits. -/
def maxCount : Nat := UInt64.size - 1

/-- Elements with counts from 1 to `maxCount`, in no particular order. -/
structure Bag (α : Type) [BEq α] where
  entries : List (α × Nat)
  distinct : entries.Pairwise fun a b => (a.1 == b.1) = false
  counted : ∀ entry ∈ entries, 0 < entry.2 ∧ entry.2 ≤ maxCount

namespace Bag

variable {α : Type} [BEq α]

/-! ## Entry lists -/

/-- The count of the first entry equal to an element, 0 if there is none. -/
def countIn (item : α) : List (α × Nat) → Nat
  | [] => 0
  | entry :: rest => if item == entry.1 then entry.2 else countIn item rest

/-- Adds to the count of the first entry equal to an element. -/
def addIn (item : α) (count : Nat) : List (α × Nat) → List (α × Nat)
  | [] => []
  | entry :: rest =>
    if item == entry.1 then (entry.1, entry.2 + count) :: rest else entry :: addIn item count rest

theorem map_fst_addIn (item : α) (count : Nat) (entries : List (α × Nat)) :
    (addIn item count entries).map Prod.fst = entries.map Prod.fst := by
  induction entries with
  | nil => rfl
  | cons entry rest ih =>
    unfold addIn
    split
    · rfl
    · rw [List.map_cons, List.map_cons, ih]

theorem pairwise_addIn (item : α) (count : Nat) {entries : List (α × Nat)}
    (h : entries.Pairwise fun a b => (a.1 == b.1) = false) :
    (addIn item count entries).Pairwise fun a b => (a.1 == b.1) = false := by
  have hkeys : (entries.map Prod.fst).Pairwise fun a b => (a == b) = false := List.pairwise_map.mpr h
  rw [← map_fst_addIn item count] at hkeys
  exact List.pairwise_map.mp hkeys

theorem counted_addIn {item : α} {count : Nat} {entries : List (α × Nat)}
    (hcounted : ∀ entry ∈ entries, 0 < entry.2 ∧ entry.2 ≤ maxCount)
    (hfits : countIn item entries + count ≤ maxCount) :
    ∀ entry ∈ addIn item count entries, 0 < entry.2 ∧ entry.2 ≤ maxCount := by
  induction entries with
  | nil => exact fun entry hentry => absurd hentry List.not_mem_nil
  | cons head rest ih =>
    intro entry hentry
    have hhead := hcounted head List.mem_cons_self
    unfold addIn at hentry
    unfold countIn at hfits
    split at hentry
    · rename_i heq
      rw [if_pos heq] at hfits
      rcases List.mem_cons.mp hentry with rfl | hentry
      · exact ⟨Nat.add_pos_left hhead.1 count, hfits⟩
      · exact hcounted entry (List.mem_cons_of_mem _ hentry)
    · rename_i hne
      rw [if_neg hne] at hfits
      rcases List.mem_cons.mp hentry with rfl | hentry
      · exact hhead
      · exact ih (fun e he => hcounted e (List.mem_cons_of_mem _ he)) hfits entry hentry

theorem countIn_eq_zero_iff {item : α} {entries : List (α × Nat)}
    (hcounted : ∀ entry ∈ entries, 0 < entry.2 ∧ entry.2 ≤ maxCount) :
    countIn item entries = 0 ↔ ∀ entry ∈ entries, (item == entry.1) = false := by
  induction entries with
  | nil => exact ⟨fun _ _ h => absurd h List.not_mem_nil, fun _ => rfl⟩
  | cons head rest ih =>
    have ih := ih fun entry hentry => hcounted entry (List.mem_cons_of_mem _ hentry)
    have hpos := (hcounted head List.mem_cons_self).1
    unfold countIn
    by_cases h : item == head.1
    · rw [if_pos h]
      constructor
      · intro hzero
        omega
      · intro hall
        rw [hall head List.mem_cons_self] at h
        exact absurd h (by decide)
    · rw [if_neg h, ih, List.forall_mem_cons]
      exact ⟨fun hall => ⟨Bool.eq_false_iff.mpr h, hall⟩, fun hall => hall.2⟩

/-! ## Bags -/

/-- The bag without elements. -/
def empty : Bag α := ⟨[], .nil, fun _ h => absurd h List.not_mem_nil⟩

instance : EmptyCollection (Bag α) := ⟨empty⟩
instance : Inhabited (Bag α) := ⟨empty⟩

/-- One copy of one element. -/
def singleton (item : α) : Bag α :=
  ⟨[(item, 1)], List.pairwise_singleton _ _, fun entry h => by
    obtain rfl := List.mem_singleton.mp h
    exact ⟨Nat.one_pos, show 1 ≤ maxCount by decide⟩⟩

/-- The count of an element. -/
def count (bag : Bag α) (item : α) : Nat := countIn item bag.entries

/-- Whether an element is in the bag. -/
def contains (bag : Bag α) (item : α) : Bool := bag.entries.any fun entry => item == entry.1

/-- The number of different elements. -/
def size (bag : Bag α) : Nat := bag.entries.length

/-- Whether there is no element. -/
def isEmpty (bag : Bag α) : Bool := bag.entries.isEmpty

/-- The sum of all counts. -/
def total (bag : Bag α) : Nat := bag.entries.foldr (fun entry sum => entry.2 + sum) 0

/-- The different elements. -/
def elements (bag : Bag α) : List α := bag.entries.map Prod.fst

/-- Adds copies of an element. -/
def insert (bag : Bag α) (item : α) (copies : Nat) : Except Fault (Bag α) :=
  if hzero : copies = 0 then .ok bag
  else if hfits : bag.count item + copies ≤ maxCount then
    if habsent : bag.count item = 0 then
      .ok {
        entries := (item, copies) :: bag.entries
        distinct := List.pairwise_cons.mpr
          ⟨(countIn_eq_zero_iff bag.counted).mp habsent, bag.distinct⟩
        counted := fun entry hentry => by
          rcases List.mem_cons.mp hentry with rfl | hentry
          · exact ⟨Nat.pos_of_ne_zero hzero, Nat.le_trans (Nat.le_add_left _ _) hfits⟩
          · exact bag.counted entry hentry }
    else
      .ok ⟨addIn item copies bag.entries, pairwise_addIn item copies bag.distinct,
        counted_addIn bag.counted hfits⟩
  else .error .multiplicityOverflow

/-- Adds elements with their counts, one after the other. -/
def insertAll (bag : Bag α) (pairs : List (α × Nat)) : Except Fault (Bag α) :=
  pairs.foldlM (fun bag pair => bag.insert pair.1 pair.2) bag

/-- The bag of a list of elements with counts. -/
def ofCounts (pairs : List (α × Nat)) : Except Fault (Bag α) := empty.insertAll pairs

/-- The bag of a list of elements, each with the number of its occurrences. A count that has reached
`maxCount` stays there. -/
def ofList (items : List α) : Bag α :=
  items.foldl (fun bag item => (bag.insert item 1).toOption.getD bag) empty

/-- The sum of two bags. The one with fewer different elements is added to the other, and the right
one to the left one if they have equally many. -/
def union (left right : Bag α) : Except Fault (Bag α) :=
  if left.size < right.size then right.insertAll left.entries else left.insertAll right.entries

/-- Multiplies every count. -/
def scale (bag : Bag α) (factor : Nat) : Except Fault (Bag α) :=
  if hzero : factor = 0 then .ok empty
  else if hfits : ∀ entry ∈ bag.entries, entry.2 * factor ≤ maxCount then
    .ok {
      entries := bag.entries.map fun entry => (entry.1, entry.2 * factor)
      distinct := bag.distinct.map _ fun _ _ h => h
      counted := fun entry hentry => by
        obtain ⟨source, hsource, rfl⟩ := List.mem_map.mp hentry
        exact ⟨Nat.mul_pos (bag.counted source hsource).1 (Nat.pos_of_ne_zero hzero),
          hfits source hsource⟩ }
  else .error .multiplicityOverflow

instance : BEq (Bag α) :=
  ⟨fun a b => a.size == b.size && a.entries.all fun entry => b.count entry.1 == entry.2⟩

/-- The order in which entries are shown: by text, and for equal texts by count. -/
def shownBefore (a b : String × Nat) : Bool := a.1 < b.1 || (a.1 == b.1 && a.2 ≤ b.2)

/-- The text of an entry: a count other than 1 stands behind the element. -/
def renderEntry (entry : String × Nat) : String :=
  if entry.2 = 1 then entry.1 else s!"{entry.1} ×{entry.2}"

/-- The text of a bag: its entries in order of their texts, between braces. -/
def render [ToString α] (bag : Bag α) : String :=
  let shown := (bag.entries.map fun entry => (toString entry.1, entry.2)).mergeSort shownBefore
  "\x7b" ++ String.intercalate ", " (shown.map renderEntry) ++ "\x7d"

instance [ToString α] : ToString (Bag α) := ⟨render⟩

@[ext] theorem ext {a b : Bag α} (h : a.entries = b.entries) : a = b := by
  cases a; cases b; cases h; rfl

end Bag

end StackCalculus
