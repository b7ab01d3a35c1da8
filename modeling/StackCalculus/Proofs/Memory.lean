import Mathlib
import StackCalculus.Memory
import StackCalculus.Proofs.Result

/-!
# Memories with related cells

`Memory.Related R` says that two memories have the same locations, stacks of the same heights, and
cells that are related by `R` position by position. The operations on memories keep this up: they
move cells, but do not look at them.
-/

namespace StackCalculus

variable {V : Type}

theorem forall₂_comp {α β γ : Type} {R : α → β → Prop} {S : β → γ → Prop} {T : α → γ → Prop}
    (hcomp : ∀ a b c, R a b → S b c → T a c) {xs : List α} {ys : List β} {zs : List γ}
    (h : List.Forall₂ R xs ys) (h' : List.Forall₂ S ys zs) : List.Forall₂ T xs zs := by
  induction h generalizing zs with
  | nil =>
    cases h'
    exact .nil
  | cons hhead _ ih =>
    cases h' with
    | cons hhead' htail' => exact .cons (hcomp _ _ _ hhead hhead') (ih htail')

theorem exists_forall₂ {α β : Type} {R : α → β → Prop} {xs : List α} (h : ∀ a ∈ xs, ∃ b, R a b) :
    ∃ ys, List.Forall₂ R xs ys := by
  induction xs with
  | nil => exact ⟨[], .nil⟩
  | cons x xs ih =>
    obtain ⟨hhead, htail⟩ := List.forall_mem_cons.mp h
    obtain ⟨y, hy⟩ := hhead
    obtain ⟨ys, hys⟩ := ih htail
    exact ⟨y :: ys, .cons hy hys⟩

theorem forall₂_exists_right {α β : Type} {R : α → β → Prop} {xs : List α} {ys : List β}
    (h : List.Forall₂ R xs ys) {a : α} (ha : a ∈ xs) : ∃ b ∈ ys, R a b := by
  induction h with
  | nil => exact absurd ha List.not_mem_nil
  | cons hhead _ ih =>
    rcases List.mem_cons.mp ha with rfl | ha
    · exact ⟨_, List.mem_cons_self, hhead⟩
    · obtain ⟨b, hb, hab⟩ := ih ha
      exact ⟨b, List.mem_cons_of_mem _ hb, hab⟩

theorem forall₂_imp_of_mem {α β : Type} {R S : α → β → Prop} {xs : List α} {ys : List β}
    (hRS : ∀ a ∈ xs, ∀ b ∈ ys, R a b → S a b) (h : List.Forall₂ R xs ys) : List.Forall₂ S xs ys := by
  induction h with
  | nil => exact .nil
  | cons hhead _ ih =>
    have hfirst := hRS _ List.mem_cons_self _ List.mem_cons_self hhead
    refine .cons hfirst (ih fun a ha b hb => ?_)
    exact hRS a (List.mem_cons_of_mem _ ha) b (List.mem_cons_of_mem _ hb)

/-- Equal lists have equal members at each place. -/
theorem forall₂_of_beq {α : Type} [BEq α] {xs ys : List α} (h : xs == ys) :
    List.Forall₂ (fun a b => a == b) xs ys := by
  induction xs generalizing ys with
  | nil =>
    cases ys with
    | nil => exact .nil
    | cons y ys => cases h
  | cons x xs ih =>
    cases ys with
    | nil => cases h
    | cons y ys =>
      rw [List.cons_beq_cons, Bool.and_eq_true] at h
      exact .cons h.1 (ih h.2)

theorem Memory.locations_eq_iff (m m' : Memory V) : m.locations = m'.locations ↔
    ∀ location, (m.table.get? location).isSome = (m'.table.get? location).isSome := by
  constructor
  · intro h location
    have hnames : m.table.names = m'.table.names := h
    rw [Bool.eq_iff_iff, Option.isSome_iff_exists, Option.isSome_iff_exists, ← NameMap.mem_names_iff,
      ← NameMap.mem_names_iff, hnames]
  · intro h
    have hmap : m.table.map (fun _ => ()) = m'.table.map (fun _ => ()) := by
      refine NameMap.ext_get? fun location => ?_
      have hlocation := h location
      rw [NameMap.get?_map, NameMap.get?_map]
      cases hget : m.table.get? location with
      | none =>
        rw [hget] at hlocation
        rw [Option.not_isSome_iff_eq_none.mp (Bool.eq_false_iff.mp hlocation.symm)]
      | some stack =>
        rw [hget] at hlocation
        obtain ⟨stack', hget'⟩ := Option.isSome_iff_exists.mp hlocation.symm
        rw [hget']
        rfl
    have hnames : ∀ table : NameMap (Stack V), table.names = (table.map fun _ => ()).names := by
      intro table
      rw [NameMap.names, NameMap.names, NameMap.map, List.map_map]
      rfl
    rw [Memory.locations, Memory.locations, hnames, hmap, ← hnames]

theorem Memory.stackAt_eq_ok_iff {m : Memory V} {location : String} {stack : Stack V} :
    m.stackAt location = .ok stack ↔ m.table.get? location = some stack := by
  unfold stackAt
  cases m.table.get? location with
  | none => exact ⟨nofun, nofun⟩
  | some stack' => rw [Except.ok.injEq, Option.some.injEq]

/-- Exchanging a stack keeps the alphabet. -/
theorem Memory.locations_insert {m : Memory V} {location : String} {old : Stack V}
    (hget : m.table.get? location = some old) (new : Stack V) :
    Memory.locations ⟨m.table.insert location new⟩ = m.locations := by
  refine (Memory.locations_eq_iff _ _).mpr fun other => ?_
  show ((m.table.insert location new).get? other).isSome = _
  rw [NameMap.get?_insert]
  split
  · next heq => rw [heq, hget, Option.isSome_some, Option.isSome_some]
  · rfl

theorem Memory.locations_replaceRefs (m : Memory V) (x : Var) (c : Cell V) :
    (m.replaceRefs x c).locations = m.locations := by
  refine (Memory.locations_eq_iff _ _).mpr fun location => ?_
  show ((m.table.map _).get? location).isSome = _
  rw [NameMap.get?_map, Option.isSome_map]

theorem Stack.map_replaceRef_of_mentions_eq_false {stack : Stack V} {x : Var}
    (h : stack.mentions x = false) (c : Cell V) : stack.map (Cell.replaceRef x c) = stack := by
  refine Stack.ext ((List.map_congr_left fun d hd => ?_).trans (List.map_id _))
  have hd := List.any_eq_false.mp h d hd
  exact Cell.replaceRef_of_refersTo_eq_false (Bool.eq_false_iff.mpr hd) c

/-- The same number of cells, related one by one. -/
def Stack.Related (R : Cell V → Cell V → Prop) (s s' : Stack V) : Prop :=
  List.Forall₂ R s.cells s'.cells

/-- The same locations, with related stacks. -/
def Memory.Related (R : Cell V → Cell V → Prop) (m m' : Memory V) : Prop :=
  ∀ location, Option.Rel (Stack.Related R) (m.table.get? location) (m'.table.get? location)

namespace Memory.Related

variable {R S T : Cell V → Cell V → Prop} {m m' m'' : Memory V}

theorem exists_right (h : m.Related R m') {location : String} {stack : Stack V}
    (hget : m.table.get? location = some stack) :
    ∃ stack', m'.table.get? location = some stack' ∧ stack.Related R stack' := by
  have hrel := h location
  rw [hget] at hrel
  generalize m'.table.get? location = o at hrel ⊢
  cases hrel with
  | some hstack => exact ⟨_, rfl, hstack⟩

/-- Only the cells that are there have to be related. -/
theorem mono_of_mem (h : m.Related R m') (hRS : ∀ location stack,
      m.table.get? location = some stack → ∀ c ∈ stack.cells, ∀ c', R c c' → S c c') :
    m.Related S m' := by
  intro location
  have hrel := h location
  cases hget : m.table.get? location with
  | none =>
    rw [hget] at hrel
    generalize m'.table.get? location = o at hrel ⊢
    cases hrel
    exact .none
  | some stack =>
    obtain ⟨stack', hget', hstack⟩ := h.exists_right hget
    rw [hget']
    exact .some (forall₂_imp_of_mem (fun c hc c' _ => hRS location stack hget c hc c') hstack)

theorem mono (h : m.Related R m') (hRS : ∀ c c', R c c' → S c c') : m.Related S m' :=
  h.mono_of_mem fun _ _ _ c _ c' => hRS c c'

theorem symm (h : m.Related R m') (hRS : ∀ c c', R c c' → S c' c) : m'.Related S m := by
  intro location
  have hrel := h location
  generalize m.table.get? location = o at hrel ⊢
  generalize m'.table.get? location = o' at hrel ⊢
  cases hrel with
  | none => exact .none
  | some hstack => exact .some (List.Forall₂.flip (List.Forall₂.imp hRS hstack))

theorem trans (h : m.Related R m') (h' : m'.Related S m'')
    (hcomp : ∀ a b c, R a b → S b c → T a c) : m.Related T m'' := by
  intro location
  have hrel := h location
  have hrel' := h' location
  generalize m.table.get? location = o at hrel ⊢
  generalize m'.table.get? location = o' at hrel hrel'
  generalize m''.table.get? location = o'' at hrel' ⊢
  cases hrel with
  | none =>
    cases hrel'
    exact .none
  | some hstack =>
    cases hrel' with
    | some hstack' => exact .some (forall₂_comp hcomp hstack hstack')

theorem insert (h : m.Related R m') (location : String) {s s' : Stack V} (hs : s.Related R s') :
    Memory.Related R ⟨m.table.insert location s⟩ ⟨m'.table.insert location s'⟩ := by
  intro other
  show Option.Rel _ ((m.table.insert location s).get? other)
    ((m'.table.insert location s').get? other)
  rw [NameMap.get?_insert, NameMap.get?_insert]
  split
  · exact .some hs
  · exact h other

theorem stackAt (h : m.Related R m') (location : String) :
    Alike Eq (Stack.Related R) (m.stackAt location) (m'.stackAt location) := by
  unfold Memory.stackAt
  have hrel := h location
  generalize m.table.get? location = o at hrel ⊢
  generalize m'.table.get? location = o' at hrel ⊢
  cases hrel with
  | none => exact .error rfl
  | some hs => exact .ok hs

theorem push (h : m.Related R m') (location : String) {c c' : Cell V} (hc : R c c') :
    Alike Eq (Memory.Related R) (m.push location c) (m'.push location c') :=
  (h.stackAt location).bind fun _ _ hs => .ok (h.insert location (List.Forall₂.cons hc hs))

theorem pop (h : m.Related R m') (location : String) :
    Alike Eq (fun r r' => R r.1 r'.1 ∧ Memory.Related R r.2 r'.2) (m.pop location)
      (m'.pop location) := by
  refine (h.stackAt location).bind fun s s' hs => ?_
  obtain ⟨cells, size, hsize⟩ := s
  obtain ⟨cells', size', hsize'⟩ := s'
  cases hs with
  | nil => exact .error rfl
  | cons htop hrest => exact .ok ⟨htop, h.insert location hrest⟩

theorem replaceRefs (h : m.Related R m') {x x' : Var} {r r' : Cell V}
    (hreplace : ∀ c c', R c c' → S (Cell.replaceRef x r c) (Cell.replaceRef x' r' c')) :
    Memory.Related S (m.replaceRefs x r) (m'.replaceRefs x' r') := by
  intro location
  show Option.Rel _ ((m.table.map _).get? location) ((m'.table.map _).get? location)
  rw [NameMap.get?_map, NameMap.get?_map]
  have hrel := h location
  generalize m.table.get? location = o at hrel ⊢
  generalize m'.table.get? location = o' at hrel ⊢
  cases hrel with
  | none => exact .none
  | some hs =>
    refine .some ?_
    show List.Forall₂ S (List.map _ _) (List.map _ _)
    rw [List.forall₂_map_left_iff, List.forall₂_map_right_iff]
    exact List.Forall₂.imp hreplace hs

end Memory.Related

end StackCalculus
