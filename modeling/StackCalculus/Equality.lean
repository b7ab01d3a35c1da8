import StackCalculus.State

/-!
# Equality of states

Variables are compared by name and the local flag is left out, so `==` on cells, stacks, memories,
substitutions and states is coarser than identity. It is an equivalence relation all the way up.
-/

namespace StackCalculus

section Structural

variable {α β : Type} [BEq α] [BEq β] [EquivBEq α] [EquivBEq β]

omit [BEq β] [EquivBEq β] in
theorem list_beq_symm {xs ys : List α} (h : xs == ys) : ys == xs := by
  induction xs generalizing ys with
  | nil =>
    cases ys with
    | nil => exact h
    | cons y ys => exact absurd h (by simp)
  | cons x xs ih =>
    cases ys with
    | nil => exact absurd h (by simp)
    | cons y ys =>
      rw [List.cons_beq_cons, Bool.and_eq_true] at h ⊢
      exact ⟨BEq.symm h.1, ih h.2⟩

omit [BEq β] [EquivBEq β] in
theorem list_beq_trans {xs ys zs : List α} (h : xs == ys) (h' : ys == zs) : xs == zs := by
  induction xs generalizing ys zs with
  | nil =>
    cases ys with
    | nil => exact h'
    | cons y ys => exact absurd h (by simp)
  | cons x xs ih =>
    cases ys with
    | nil => exact absurd h (by simp)
    | cons y ys =>
      cases zs with
      | nil => exact absurd h' (by simp)
      | cons z zs =>
        rw [List.cons_beq_cons, Bool.and_eq_true] at h h' ⊢
        exact ⟨BEq.trans h.1 h'.1, ih h.2 h'.2⟩

omit [EquivBEq α] [EquivBEq β] in
theorem pair_beq (p q : α × β) : (p == q) = (p.1 == q.1 && p.2 == q.2) := rfl

instance equivBEqList : EquivBEq (List α) where
  symm := list_beq_symm
  trans := list_beq_trans
  rfl := BEq.refl _

instance equivBEqPair : EquivBEq (α × β) where
  symm h := by
    rw [pair_beq, Bool.and_eq_true] at h ⊢
    exact ⟨BEq.symm h.1, BEq.symm h.2⟩
  trans h h' := by
    rw [pair_beq, Bool.and_eq_true] at h h' ⊢
    exact ⟨BEq.trans h.1 h'.1, BEq.trans h.2 h'.2⟩
  rfl {p} := by
    rw [pair_beq, BEq.refl, BEq.refl]
    rfl

/-- Comparing by a view with an equivalence is an equivalence. -/
theorem equivBEq_of_view {γ : Type} [BEq γ] (view : γ → α) (h : ∀ a b, (a == b) = (view a == view b)) :
    EquivBEq γ where
  symm {a b} hab := by
    rw [h] at hab ⊢
    exact BEq.symm hab
  trans {a b c} hab hbc := by
    rw [h] at hab hbc ⊢
    exact BEq.trans hab hbc
  rfl {a} := by rw [h, BEq.refl]

instance : EquivBEq (NameMap α) := equivBEq_of_view NameMap.entries fun _ _ => rfl

end Structural

variable {V : Type} [DecidableEq V]

instance : EquivBEq (Binding V) := equivBEq_of_view Binding.cell fun _ _ => rfl

instance : EquivBEq (Substitution V) := equivBEq_of_view Substitution.bindings fun _ _ => rfl

instance : EquivBEq (Stack V) := equivBEq_of_view Stack.cells Stack.beq_eq

instance : EquivBEq (Memory V) := equivBEq_of_view Memory.table fun _ _ => rfl

instance : EquivBEq (State V) :=
  equivBEq_of_view (fun state => (state.memory, state.substitution)) fun _ _ => rfl

end StackCalculus
