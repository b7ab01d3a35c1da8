import Mathlib
import StackCalculus.Machine.Scope

/-!
# Fresh names

`freshFor` takes the least index whose name is not in use (`freshFor_spec`). Its search has a budget,
which is never used up: the names in use fit into a list of that length, and different indices give
different names (`Var.indexed_injective`), so one of the indices up to the budget is free. The choice
is therefore a function of the names in use alone (`freshFor_congr`), and its index is at most their
number (`freshFor_least`).
-/

namespace StackCalculus

variable {V : Type}

/-! ## Indexed names -/

theorem Var.toList_indexed (base : String) (i : Nat) :
    (Var.indexed base i).name.toList = (Var.stem base).toList ++ '#' :: (Nat.repr i).toList := by
  show (Var.stem base ++ "#" ++ Nat.repr i).toList = _
  simp [String.toList_append]

theorem Var.indexed_injective (base : String) {i j : Nat}
    (h : (Var.indexed base i).name = (Var.indexed base j).name) : i = j := by
  have hlist := congrArg String.toList h
  rw [Var.toList_indexed, Var.toList_indexed] at hlist
  have htail := List.append_cancel_left hlist
  have hdigits : (Nat.repr i).toList = (Nat.repr j).toList := (List.cons.inj htail).2
  exact Nat.repr_injective (String.toList_injective hdigits)

/-- Different indices give different names, so a set that has the first `n` of them is no smaller. -/
theorem Var.le_card_of_indexed_mem {base : String} {names : Finset String} {n : Nat}
    (h : ∀ i < n, (Var.indexed base i).name ∈ names) : n ≤ names.card := by
  have hmem : ∀ i ∈ Finset.range n, (Var.indexed base i).name ∈ names := fun i hi =>
    h i (Finset.mem_range.mp hi)
  calc n = (Finset.range n).card := (Finset.card_range n).symm
    _ ≤ names.card :=
      Finset.card_le_card_of_injOn _ hmem fun i _ j _ heq => Var.indexed_injective base heq

theorem Var.hash_mem_indexed (base : String) (i : Nat) : '#' ∈ (Var.indexed base i).name.toList := by
  rw [Var.toList_indexed]
  exact List.mem_append_right _ List.mem_cons_self

/-! ## The names that a state mentions -/

/-- The names of the variables that the cells of a list refer to. -/
def refNames (cells : List (Cell V)) : List String :=
  cells.filterMap fun c => c.asVar?.map Var.name

theorem any_refersTo_iff (cells : List (Cell V)) (x : Var) :
    cells.any (Cell.refersTo x) ↔ x.name ∈ refNames cells := by
  rw [List.any_eq_true, refNames, List.mem_filterMap]
  constructor
  · rintro ⟨c, hc, href⟩
    cases c with
    | value v => cases href
    | ref y => exact ⟨.ref y, hc, congrArg some (Var.beq_iff.mp href)⟩
  · rintro ⟨c, hc, hname⟩
    cases c with
    | value v => cases hname
    | ref y => exact ⟨.ref y, hc, Var.beq_iff.mpr (Option.some.inj hname)⟩

theorem Substitution.mentions_iff (s : Substitution V) (x : Var) :
    s.mentions x ↔ (∃ c, s.get? x = some c) ∨ ∃ z c, s.get? z = some c ∧ c.refersTo x := by
  rw [Substitution.mentions, Bool.or_eq_true, Substitution.contains, Option.isSome_iff_exists,
    List.any_eq_true]
  refine or_congr Iff.rfl ⟨?_, ?_⟩
  · rintro ⟨⟨name, binding⟩, hmem, href⟩
    refine ⟨⟨name, binding.isLocal⟩, binding.cell, ?_, href⟩
    exact Option.map_eq_some_iff.mpr ⟨binding, NameMap.mem_entries_iff.mp hmem, rfl⟩
  · rintro ⟨z, c, hget, href⟩
    obtain ⟨binding, hbinding, rfl⟩ := Option.map_eq_some_iff.mp hget
    exact ⟨(z.name, binding), NameMap.mem_entries_iff.mpr hbinding, href⟩

theorem Memory.mentions_iff (m : Memory V) (x : Var) :
    m.mentions x ↔ ∃ location stack, m.table.get? location = some stack ∧ stack.mentions x := by
  rw [Memory.mentions, List.any_eq_true]
  constructor
  · rintro ⟨⟨location, stack⟩, hmem, hx⟩
    exact ⟨location, stack, NameMap.mem_entries_iff.mp hmem, hx⟩
  · rintro ⟨location, stack, hget, hx⟩
    exact ⟨(location, stack), NameMap.mem_entries_iff.mpr hget, hx⟩

theorem length_refNames_le (cells : List (Cell V)) : (refNames cells).length ≤ cells.length :=
  List.length_filterMap_le _ cells

namespace State

/-- The names of the variables that the memory or the substitution mentions, with repetitions. -/
def mentionedNames (state : State V) : List String :=
  state.substitution.bindings.names ++
    refNames (state.substitution.bindings.entries.map fun entry => entry.2.cell) ++
    state.memory.table.entries.flatMap fun entry => refNames entry.2.cells

theorem mentions_iff (state : State V) (x : Var) :
    state.mentions x ↔ x.name ∈ state.mentionedNames := by
  have hbound : state.substitution.contains x ↔ x.name ∈ state.substitution.bindings.names := by
    rw [Substitution.contains, Substitution.get?, Option.isSome_map, Option.isSome_iff_exists,
      NameMap.mem_names_iff]
  have htarget : (state.substitution.bindings.entries.any fun entry => entry.2.cell.refersTo x) ↔
      x.name ∈ refNames (state.substitution.bindings.entries.map fun entry => entry.2.cell) := by
    rw [← any_refersTo_iff, List.any_map]
    rfl
  have hmemory : state.memory.mentions x ↔
      x.name ∈ state.memory.table.entries.flatMap fun entry => refNames entry.2.cells := by
    rw [Memory.mentions, List.any_eq_true, List.mem_flatMap]
    simp only [Stack.mentions, any_refersTo_iff]
  rw [mentions, Substitution.mentions, Bool.or_eq_true, Bool.or_eq_true, hbound, htarget, hmemory,
    mentionedNames, List.mem_append, List.mem_append]

theorem length_mentionedNames_le (state : State V) :
    state.mentionedNames.length ≤ state.mentionBound := by
  have htargets := length_refNames_le
    (state.substitution.bindings.entries.map fun entry => entry.2.cell)
  have hmemory : ∀ entries : List (String × Stack V),
      (entries.flatMap fun entry => refNames entry.2.cells).length ≤
        entries.foldr (fun entry sum => entry.2.size + sum) 0 := by
    intro entries
    induction entries with
    | nil => exact le_refl _
    | cons entry rest ih =>
      have hstack := length_refNames_le entry.2.cells
      rw [List.flatMap_cons, List.length_append, List.foldr_cons, entry.2.size_eq]
      omega
  have hcells := hmemory state.memory.table.entries
  rw [List.length_map] at htargets
  rw [mentionedNames, List.length_append, List.length_append, NameMap.names, List.length_map,
    mentionBound, Substitution.size, NameMap.size, Memory.cellCount]
  omega

end State

/-! ## The search -/

theorem firstFree_spec (taken : Nat → Bool) (budget index : Nat) :
    (∀ j, index ≤ j → j < firstFree taken budget index → taken j = true) ∧
      (taken (firstFree taken budget index) = true →
        ∀ j, index ≤ j → j ≤ index + budget → taken j = true) := by
  induction budget generalizing index with
  | zero =>
    refine ⟨fun j hle hlt => ?_, fun htaken j hle hle' => ?_⟩
    · rw [firstFree] at hlt
      omega
    · rwa [show j = index by omega]
  | succ budget ih =>
    obtain ⟨hbefore, hall⟩ := ih (index + 1)
    rw [firstFree]
    split
    · rename_i hindex
      refine ⟨fun j hle hlt => ?_, fun htaken j hle hle' => ?_⟩
      · rcases Nat.eq_or_lt_of_le hle with rfl | hlt'
        · exact hindex
        · exact hbefore j hlt' hlt
      · rcases Nat.eq_or_lt_of_le hle with rfl | hlt'
        · exact hindex
        · exact hall htaken j hlt' (by omega)
    · rename_i hindex
      refine ⟨fun j hle hlt => ?_, fun htaken => absurd htaken hindex⟩
      omega

/-- The names that a fresh variable has to avoid, with repetitions. -/
def usedNames (bodyVars : VarSet) (state : State V) (reserved : List Var) : List String :=
  bodyVars.flags.names ++ reserved.map Var.name ++ state.mentionedNames

theorem inUse_iff (bodyVars : VarSet) (state : State V) (reserved : List Var) (x : Var) :
    inUse bodyVars state reserved x ↔ x.name ∈ usedNames bodyVars state reserved := by
  have hbody : bodyVars.contains x ↔ x.name ∈ bodyVars.flags.names := by
    rw [VarSet.contains, NameMap.contains, Option.isSome_iff_exists, NameMap.mem_names_iff]
  have hreserved : reserved.contains x ↔ x.name ∈ reserved.map Var.name := by
    rw [List.contains_iff_exists_mem_beq, List.mem_map]
    constructor
    · rintro ⟨y, hy, heq⟩
      exact ⟨y, hy, (Var.beq_iff.mp heq).symm⟩
    · rintro ⟨y, hy, heq⟩
      exact ⟨y, hy, Var.beq_iff.mpr heq.symm⟩
  rw [inUse, Bool.or_eq_true, Bool.or_eq_true, hbody, hreserved, state.mentions_iff, usedNames,
    List.mem_append, List.mem_append]

theorem length_usedNames_le (body : Program V) (state : State V) (reserved : List Var) :
    (usedNames body.freeVars state reserved).length ≤
      body.freeVars.size + reserved.length + state.mentionBound := by
  have hmentioned := state.length_mentionedNames_le
  rw [usedNames, List.length_append, List.length_append, NameMap.names, List.length_map,
    List.length_map, VarSet.size, NameMap.size]
  omega

/-- `freshFor` gives the local variable with the least index that is not in use. -/
theorem freshFor_spec (x : Var) (body : Program V) (state : State V) (reserved : List Var) :
    ∃ i, freshFor x body state reserved = .indexed x.name i ∧
      inUse body.freeVars state reserved (.indexed x.name i) = false ∧
      ∀ j < i, inUse body.freeVars state reserved (.indexed x.name j) = true := by
  let budget := body.freeVars.size + reserved.length + state.mentionBound
  let taken : Nat → Bool := fun i => inUse body.freeVars state reserved (.indexed x.name i)
  obtain ⟨hbefore, hall⟩ := firstFree_spec taken budget 0
  refine ⟨firstFree taken budget 0, rfl, ?_, fun j hj => hbefore j (Nat.zero_le j) hj⟩
  rw [← Bool.not_eq_true]
  intro htaken
  -- Otherwise the indices from 0 to the budget all stand for names in use, and these are too few.
  have hused : ∀ i < budget + 1,
      (Var.indexed x.name i).name ∈ (usedNames body.freeVars state reserved).toFinset := by
    intro i hi
    exact List.mem_toFinset.mpr ((inUse_iff _ _ _ _).mp (hall htaken i (Nat.zero_le i) (by omega)))
  have hcard := Var.le_card_of_indexed_mem hused
  have hlength := length_usedNames_le body state reserved
  have hle := List.toFinset_card_le (usedNames body.freeVars state reserved)
  omega

theorem inUse_freshFor (x : Var) (body : Program V) (state : State V) (reserved : List Var) :
    inUse body.freeVars state reserved (freshFor x body state reserved) = false := by
  obtain ⟨i, hfresh, hfree, _⟩ := freshFor_spec x body state reserved
  rw [hfresh]
  exact hfree

theorem contains_freshFor (x : Var) (body : Program V) (state : State V) (reserved : List Var) :
    body.freeVars.contains (freshFor x body state reserved) = false := by
  have hfree := inUse_freshFor x body state reserved
  rw [inUse, Bool.or_eq_false_iff, Bool.or_eq_false_iff] at hfree
  exact hfree.1.1

theorem mentions_freshFor (x : Var) (body : Program V) (state : State V) (reserved : List Var) :
    state.mentions (freshFor x body state reserved) = false := by
  have hfree := inUse_freshFor x body state reserved
  rw [inUse, Bool.or_eq_false_iff] at hfree
  exact hfree.2

/-- The choice of a fresh variable depends on the names in use only. -/
theorem freshFor_congr {x x' : Var} {body body' : Program V} {state state' : State V}
    {reserved reserved' : List Var} (hx : x.name = x'.name)
    (huse : ∀ y, inUse body.freeVars state reserved y = inUse body'.freeVars state' reserved' y) :
    freshFor x body state reserved = freshFor x' body' state' reserved' := by
  obtain ⟨i, hi, hfree, hbefore⟩ := freshFor_spec x body state reserved
  obtain ⟨j, hj, hfree', hbefore'⟩ := freshFor_spec x' body' state' reserved'
  rw [← hx] at hj hfree' hbefore'
  simp only [← huse] at hfree' hbefore'
  have hij : i = j := by
    rcases Nat.lt_trichotomy i j with hlt | heq | hlt
    · rw [hbefore' i hlt] at hfree
      cases hfree
    · exact heq
    · rw [hbefore j hlt] at hfree'
      cases hfree'
  rw [hi, hj, hij]

/-! ## The least index -/

/-- The set of names that a fresh variable has to avoid. -/
def takenNames (body : Program V) (state : State V) (reserved : List Var) : Finset String :=
  (usedNames body.freeVars state reserved).toFinset

theorem mem_takenNames_iff {body : Program V} {state : State V} {reserved : List Var} {x : Var} :
    x.name ∈ takenNames body state reserved ↔ inUse body.freeVars state reserved x := by
  rw [takenNames, List.mem_toFinset, inUse_iff]

/-- The largest index of 64 bits. -/
def maxIndex : Nat := UInt64.size - 1

/-- A fresh variable avoids the names that are free in the body, reserved by an enclosing scope, or
mentioned in a binding or a stack of the state. It is local, and its index is the least one with that
property. The index is at most the number of these names, so a search through the indices of 64 bits
finds it, unless there are as many names as indices. -/
theorem freshFor_least (x : Var) (body : Program V) (state : State V) (reserved : List Var) :
    let taken := takenNames body state reserved
    (∀ y : Var, y.name ∈ taken ↔ body.freeVars.contains y ∨ reserved.contains y ∨
      state.substitution.mentions y ∨ state.memory.mentions y) ∧
    ∃ i, freshFor x body state reserved = ⟨Var.stem x.name ++ "#" ++ toString i, true⟩ ∧
      IsLeast {j | (Var.indexed x.name j).name ∉ taken} i ∧ i ≤ taken.card ∧
      (taken.card < maxIndex →
        (List.range maxIndex).find? (fun j => (Var.indexed x.name j).name ∉ taken) = some i) := by
  intro taken
  refine ⟨fun y => ?_, ?_⟩
  · rw [mem_takenNames_iff, inUse, State.mentions, Bool.or_eq_true, Bool.or_eq_true, Bool.or_eq_true,
      or_assoc]
  obtain ⟨i, hfresh, hfree, hbefore⟩ := freshFor_spec x body state reserved
  have hnot : (Var.indexed x.name i).name ∉ taken := fun hmem => by
    rw [mem_takenNames_iff.mp hmem] at hfree
    cases hfree
  have htaken : ∀ j < i, (Var.indexed x.name j).name ∈ taken := fun j hj =>
    mem_takenNames_iff.mpr (hbefore j hj)
  have hcard : i ≤ taken.card := Var.le_card_of_indexed_mem htaken
  refine ⟨i, hfresh, ⟨hnot, fun j hj => ?_⟩, hcard, fun hsmall => ?_⟩
  · exact Nat.le_of_not_lt fun hlt => hj (htaken j hlt)
  · rw [List.find?_range_eq_some]
    refine ⟨decide_eq_true hnot, List.mem_range.mpr (by omega), fun j hj => ?_⟩
    simpa using htaken j hj

/-- Mentions `x#2` in a binding and `x#3` on a stack. -/
def mentioningTwo : State String :=
  ⟨⟨.ofList [("l", .ofList [.ref ⟨"x#3", true⟩])]⟩, .ofList [(⟨"y", false⟩, .ref ⟨"x#2", true⟩)]⟩

/-- Each of the four sources of names takes one index. The index of `x#7` itself does not count. -/
theorem freshFor_least_mentioningTwo :
    let body : Program String := .push (.var ⟨"x#0", true⟩) "l"
    let taken := takenNames body mentioningTwo [⟨"x#1", true⟩]
    taken.card < maxIndex ∧ freshFor ⟨"x#7", true⟩ body mentioningTwo [⟨"x#1", true⟩] = ⟨"x#4", true⟩ ∧
      IsLeast {j | (Var.indexed "x#7" j).name ∉ taken} 4 ∧
      (List.range maxIndex).find? (fun j => (Var.indexed "x#7" j).name ∉ taken) = some 4 := by
  intro body taken
  have hsmall : taken.card < maxIndex := by decide +kernel
  obtain ⟨_, i, hfresh, hleast, _, hfind⟩ :=
    freshFor_least ⟨"x#7", true⟩ body mentioningTwo [⟨"x#1", true⟩]
  have hname : (freshFor ⟨"x#7", true⟩ body mentioningTwo [⟨"x#1", true⟩]).name =
      (Var.indexed "x#7" 4).name := by decide +kernel
  obtain rfl : i = 4 := Var.indexed_injective "x#7" ((congrArg Var.name hfresh).symm.trans hname)
  have hlast : Var.stem "x#7" ++ "#" ++ toString 4 = "x#4" := by decide +kernel
  exact ⟨hsmall, hfresh.trans (congrArg (Var.mk · true) hlast), hleast, hfind hsmall⟩

end StackCalculus
