/-!
# Finite maps keyed by name

A `NameMap` lists its entries in strictly increasing order of their names. A map therefore has
exactly one representation: two maps with the same lookups are equal (`NameMap.ext_get?`), and
listing the entries shows them in order without sorting.
-/

namespace StackCalculus

/-- A finite map from names, listed in increasing order of the names. -/
structure NameMap (β : Type) where
  entries : List (String × β)
  ordered : entries.Pairwise fun a b => a.1 < b.1

namespace NameMap

variable {β γ : Type}

/-! ## Entry lists -/

/-- Puts an entry at its place in an ordered list. An entry of the same name is replaced. -/
def place (name : String) (item : β) : List (String × β) → List (String × β)
  | [] => [(name, item)]
  | head :: rest =>
    if name < head.1 then (name, item) :: head :: rest
    else if name = head.1 then (name, item) :: rest
    else head :: place name item rest

theorem mem_place {name : String} {item : β} {entry : String × β} {entries : List (String × β)}
    (h : entry ∈ place name item entries) : entry = (name, item) ∨ entry ∈ entries := by
  induction entries with
  | nil => exact Or.inl (by simpa [place] using h)
  | cons head rest ih =>
    rw [place] at h
    split at h
    · simpa using h
    · split at h
      · rcases List.mem_cons.mp h with h | h
        · exact Or.inl h
        · exact Or.inr (List.mem_cons_of_mem _ h)
      · rcases List.mem_cons.mp h with h | h
        · exact Or.inr (h ▸ List.mem_cons_self)
        · exact (ih h).imp id (List.mem_cons_of_mem _)

theorem lt_of_not_lt_of_ne {a b : String} (hlt : ¬ a < b) (hne : a ≠ b) : b < a := by
  grind

theorem pairwise_place (name : String) (item : β) {entries : List (String × β)}
    (h : entries.Pairwise fun a b => a.1 < b.1) :
    (place name item entries).Pairwise fun a b => a.1 < b.1 := by
  induction entries with
  | nil => simp [place]
  | cons head rest ih =>
    obtain ⟨hhead, hrest⟩ := List.pairwise_cons.mp h
    rw [place]
    split
    · rename_i hlt
      refine List.pairwise_cons.mpr ⟨fun entry hentry => ?_, h⟩
      rcases List.mem_cons.mp hentry with rfl | hentry
      · exact hlt
      · exact String.lt_trans hlt (hhead entry hentry)
    · rename_i hlt
      split
      · rename_i heq
        exact List.pairwise_cons.mpr ⟨fun entry hentry => heq ▸ hhead entry hentry, hrest⟩
      · rename_i hne
        refine List.pairwise_cons.mpr ⟨fun entry hentry => ?_, ih hrest⟩
        rcases mem_place hentry with rfl | hentry
        · exact lt_of_not_lt_of_ne hlt hne
        · exact hhead entry hentry

theorem lookup_place_self (name : String) (item : β) (entries : List (String × β)) :
    (place name item entries).lookup name = some item := by
  induction entries with
  | nil => simp [place]
  | cons head rest ih =>
    rw [place]
    split
    · simp
    · split
      · simp
      · rename_i hne
        rw [List.lookup_cons, beq_false_of_ne hne, ih]

theorem lookup_place_of_ne {name other : String} (hne : other ≠ name) (item : β)
    (entries : List (String × β)) :
    (place name item entries).lookup other = entries.lookup other := by
  induction entries with
  | nil => simp [place, List.lookup_cons, beq_false_of_ne hne]
  | cons head rest ih =>
    rw [place]
    split
    · rw [List.lookup_cons, beq_false_of_ne hne]
    · split
      · rename_i heq
        rw [List.lookup_cons, List.lookup_cons, beq_false_of_ne hne,
          beq_false_of_ne (heq ▸ hne)]
      · rw [List.lookup_cons, List.lookup_cons, ih]

/-! ## Maps -/

/-- The map without entries. -/
def empty : NameMap β := ⟨[], .nil⟩

instance : EmptyCollection (NameMap β) := ⟨empty⟩
instance : Inhabited (NameMap β) := ⟨empty⟩

/-- The item stored under a name. -/
def get? (map : NameMap β) (name : String) : Option β := map.entries.lookup name

/-- Whether an item is stored under a name. -/
def contains (map : NameMap β) (name : String) : Bool := (map.get? name).isSome

/-- The number of entries. -/
def size (map : NameMap β) : Nat := map.entries.length

/-- The names in increasing order. -/
def names (map : NameMap β) : List String := map.entries.map Prod.fst

/-- Stores an item under a name, in place of an item already there. -/
def insert (map : NameMap β) (name : String) (item : β) : NameMap β :=
  ⟨place name item map.entries, pairwise_place name item map.ordered⟩

/-- Removes the entry of a name. -/
def erase (map : NameMap β) (name : String) : NameMap β :=
  ⟨map.entries.filter fun entry => entry.1 != name, map.ordered.filter _⟩

/-- Applies a function to every item. -/
def map (f : β → γ) (map : NameMap β) : NameMap γ :=
  ⟨map.entries.map fun entry => (entry.1, f entry.2), map.ordered.map _ fun _ _ h => h⟩

/-- The map of a list of entries. Of two entries with one name the later one counts. -/
def ofList (entries : List (String × β)) : NameMap β :=
  entries.foldl (fun map entry => map.insert entry.1 entry.2) empty

instance [BEq β] : BEq (NameMap β) := ⟨fun m n => m.entries == n.entries⟩

/-! ## Lookups -/

@[simp] theorem get?_empty (name : String) : (empty : NameMap β).get? name = none := rfl

@[simp] theorem get?_insert_self (map : NameMap β) (name : String) (item : β) :
    (map.insert name item).get? name = some item :=
  lookup_place_self name item map.entries

theorem get?_insert_of_ne (map : NameMap β) {name other : String} (hne : other ≠ name) (item : β) :
    (map.insert name item).get? other = map.get? other :=
  lookup_place_of_ne hne item map.entries

theorem get?_insert (map : NameMap β) (name other : String) (item : β) :
    (map.insert name item).get? other = if other = name then some item else map.get? other := by
  split
  · next h => rw [h, get?_insert_self]
  · next h => exact get?_insert_of_ne map h item

@[simp] theorem get?_erase_self (map : NameMap β) (name : String) :
    (map.erase name).get? name = none := by
  refine List.lookup_eq_none_iff.mpr fun entry hentry => ?_
  have hne : entry.1 ≠ name := by simpa using (List.mem_filter.mp hentry).2
  simpa using fun h => hne h.symm

theorem get?_erase_of_ne (map : NameMap β) {name other : String} (hne : other ≠ name) :
    (map.erase name).get? other = map.get? other := by
  simp only [get?, erase]
  induction map.entries with
  | nil => rfl
  | cons head rest ih =>
    by_cases h : head.1 = name
    · rw [List.filter_cons_of_neg (by simp [h]), ih, List.lookup_cons,
        beq_false_of_ne (h ▸ hne)]
    · rw [List.filter_cons_of_pos (by simp [h]), List.lookup_cons, List.lookup_cons, ih]

@[simp] theorem get?_map (f : β → γ) (map : NameMap β) (name : String) :
    (map.map f).get? name = (map.get? name).map f := by
  simp only [get?, NameMap.map]
  induction map.entries with
  | nil => rfl
  | cons head rest ih =>
    rw [List.map_cons, List.lookup_cons, List.lookup_cons]
    by_cases h : name = head.1
    · simp [h]
    · simp [beq_false_of_ne h, ih]

theorem mem_of_lookup {name : String} {item : β} {entries : List (String × β)}
    (h : entries.lookup name = some item) : (name, item) ∈ entries := by
  induction entries with
  | nil => simp at h
  | cons head rest ih =>
    rw [List.lookup_cons] at h
    by_cases heq : name = head.1
    · simp only [heq, beq_self_eq_true] at h
      obtain rfl : head.2 = item := by simpa using h
      rw [heq]
      exact List.mem_cons_self
    · rw [beq_false_of_ne heq] at h
      exact List.mem_cons_of_mem _ (ih h)

theorem lookup_of_mem {name : String} {item : β} {entries : List (String × β)}
    (hordered : entries.Pairwise fun a b => a.1 < b.1) (h : (name, item) ∈ entries) :
    entries.lookup name = some item := by
  induction entries with
  | nil => simp at h
  | cons head rest ih =>
    obtain ⟨hhead, hrest⟩ := List.pairwise_cons.mp hordered
    rw [List.lookup_cons]
    rcases List.mem_cons.mp h with h | h
    · subst h
      simp
    · have hlt : head.1 < name := hhead _ h
      have hne : name ≠ head.1 := fun heq => String.lt_irrefl _ (heq ▸ hlt)
      rw [beq_false_of_ne hne]
      exact ih hrest h

theorem mem_entries_iff {map : NameMap β} {name : String} {item : β} :
    (name, item) ∈ map.entries ↔ map.get? name = some item :=
  ⟨lookup_of_mem map.ordered, mem_of_lookup⟩

theorem mem_names_iff {map : NameMap β} {name : String} :
    name ∈ map.names ↔ ∃ item, map.get? name = some item := by
  rw [names, List.mem_map]
  constructor
  · rintro ⟨⟨_, item⟩, hmem, rfl⟩
    exact ⟨item, mem_entries_iff.mp hmem⟩
  · rintro ⟨item, hget⟩
    exact ⟨(name, item), mem_entries_iff.mpr hget, rfl⟩

/-! ## Extensionality -/

@[ext] theorem ext {m n : NameMap β} (h : m.entries = n.entries) : m = n := by
  cases m; cases n; cases h; rfl

theorem eq_of_mem_iff {xs ys : List (String × β)} (hxs : xs.Pairwise fun a b => a.1 < b.1)
    (hys : ys.Pairwise fun a b => a.1 < b.1) (h : ∀ entry, entry ∈ xs ↔ entry ∈ ys) : xs = ys := by
  induction xs generalizing ys with
  | nil =>
    cases ys with
    | nil => rfl
    | cons y ys => exact absurd ((h y).mpr List.mem_cons_self) List.not_mem_nil
  | cons x xs ih =>
    cases ys with
    | nil => exact absurd ((h x).mp List.mem_cons_self) List.not_mem_nil
    | cons y ys =>
      obtain ⟨hx, hxs'⟩ := List.pairwise_cons.mp hxs
      obtain ⟨hy, hys'⟩ := List.pairwise_cons.mp hys
      have hxy : x = y := by
        rcases List.mem_cons.mp ((h x).mp List.mem_cons_self) with hxy | hmem
        · exact hxy
        rcases List.mem_cons.mp ((h y).mpr List.mem_cons_self) with hyx | hmem'
        · exact hyx.symm
        · exact absurd (hx y hmem') (String.lt_asymm (hy x hmem))
      subst hxy
      congr 1
      refine ih hxs' hys' fun entry => ⟨fun hmem => ?_, fun hmem => ?_⟩
      · rcases List.mem_cons.mp ((h entry).mp (List.mem_cons_of_mem _ hmem)) with heq | hmem'
        · exact absurd (heq ▸ hx entry hmem) (String.lt_irrefl _)
        · exact hmem'
      · rcases List.mem_cons.mp ((h entry).mpr (List.mem_cons_of_mem _ hmem)) with heq | hmem'
        · exact absurd (heq ▸ hy entry hmem) (String.lt_irrefl _)
        · exact hmem'

/-- Maps with the same lookups are equal. -/
theorem ext_get? {m n : NameMap β} (h : ∀ name, m.get? name = n.get? name) : m = n :=
  ext <| eq_of_mem_iff m.ordered n.ordered fun (name, item) => by
    rw [mem_entries_iff, mem_entries_iff, h name]

/-- Of two items stored under one name the second stays. -/
@[simp] theorem insert_insert (map : NameMap β) (name : String) (first second : β) :
    (map.insert name first).insert name second = map.insert name second := by
  refine ext_get? fun other => ?_
  rw [get?_insert, get?_insert, get?_insert]
  split <;> rfl

/-- Storing what is there changes nothing. -/
theorem insert_of_get? {map : NameMap β} {name : String} {item : β} (h : map.get? name = some item) :
    map.insert name item = map := by
  refine ext_get? fun other => ?_
  rw [get?_insert]
  split
  · next heq => rw [heq, h]
  · rfl

end NameMap

end StackCalculus
