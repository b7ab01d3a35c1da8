import Mathlib
import StackCalculus.Equality
import StackCalculus.Machine.Exec
import StackCalculus.Value
import StackCalculus.Proofs.Counting
import StackCalculus.Proofs.Memory

/-!
# Stable texts

The entries of a bag come in no particular order, and its text does not show the order. Entries are
shown in the lexicographic order of their texts and counts (`Bag.shownBefore_iff_toLex_le`), so that
there is one sorted listing of them, also where elements that differ have the same text
(`Bag.render_of_sorted`). Texts of states do not show flags, through all parts of a state
(`State.toString_eq_of_beq`). Hence the text of a configuration depends on its counts alone
(`Bag.render_stable`).
-/

namespace StackCalculus

/-! ## Listings of entries -/

namespace Bag

theorem shownBefore_iff_toLex_le (a b : String × Nat) : shownBefore a b = true ↔ toLex a ≤ toLex b := by
  rw [shownBefore, Prod.Lex.toLex_le_toLex, Bool.or_eq_true, decide_eq_true_eq, Bool.and_eq_true,
    beq_iff_eq, decide_eq_true_eq]

theorem shownBefore_trans (a b c : String × Nat) (hab : shownBefore a b = true)
    (hbc : shownBefore b c = true) : shownBefore a c = true := by
  rw [shownBefore_iff_toLex_le] at hab hbc ⊢
  exact le_trans hab hbc

theorem shownBefore_total (a b : String × Nat) : (shownBefore a b || shownBefore b a) = true := by
  rw [Bool.or_eq_true, shownBefore_iff_toLex_le, shownBefore_iff_toLex_le]
  exact le_total _ _

variable {α : Type} [BEq α] [ToString α]

/-- The text and the count of each entry. -/
def shownEntries (entries : List (α × Nat)) : List (String × Nat) :=
  entries.map fun entry => (toString entry.1, entry.2)

/-- Any sorted listing of the texts and counts gives the text of a bag: there is only one. -/
theorem render_of_sorted (bag : Bag α) {shown : List (String × Nat)}
    (hperm : shown.Perm (shownEntries bag.entries))
    (hsorted : shown.Pairwise fun a b => shownBefore a b = true) :
    bag.render = "\x7b" ++ String.intercalate ", " (shown.map renderEntry) ++ "\x7d" := by
  have hantisymm : ∀ a b, a ∈ shown → b ∈ (shownEntries bag.entries).mergeSort shownBefore →
      shownBefore a b = true → shownBefore b a = true → a = b := by
    intro a b _ _
    simp only [shownBefore_iff_toLex_le]
    exact fun hab hba => toLex.injective (le_antisymm hab hba)
  have hmerge := List.pairwise_mergeSort shownBefore_trans shownBefore_total (shownEntries bag.entries)
  rw [List.Perm.eq_of_pairwise hantisymm hsorted hmerge
    (hperm.trans (List.mergeSort_perm _ shownBefore).symm)]
  rfl

theorem exists_sorted_listing (entries : List (String × Nat)) :
    ∃ shown : List (String × Nat), shown.Perm entries ∧
      shown.Pairwise fun a b => shownBefore a b = true :=
  ⟨entries.mergeSort shownBefore, List.mergeSort_perm _ _,
    List.pairwise_mergeSort shownBefore_trans shownBefore_total _⟩

theorem render_eq_of_perm {a b : Bag α} (h : (shownEntries a.entries).Perm (shownEntries b.entries)) :
    a.render = b.render := by
  obtain ⟨shown, hperm, hsorted⟩ := exists_sorted_listing (shownEntries a.entries)
  rw [a.render_of_sorted hperm hsorted, b.render_of_sorted (hperm.trans h) hsorted]

/-- Bags with the same counts have the same text, if equal elements have the same text. -/
theorem render_eq_of_beq [EquivBEq α] (htext : ∀ x y : α, x == y → toString x = toString y)
    {a b : Bag α} (h : a == b) : a.render = b.render := by
  obtain ⟨es, hperm, hsame⟩ := exists_perm_of_count_eq ((beq_iff_count_eq a b).mp h)
  have hshown : shownEntries a.entries = shownEntries es := by
    rw [shownEntries, shownEntries, ← List.forall₂_eq_eq_eq, List.forall₂_map_left_iff,
      List.forall₂_map_right_iff]
    exact hsame.imp fun entry entry' hentry => Prod.ext (htext _ _ hentry.1) hentry.2
  apply render_eq_of_perm
  rw [hshown]
  exact (hperm.map _).symm

end Bag

/-! ## Texts of equal states -/

theorem map_eq_of_beq {α β : Type} [BEq α] {f : α → β} (hf : ∀ a b, a == b → f a = f b)
    {xs ys : List α} (h : xs == ys) : xs.map f = ys.map f := by
  rw [← List.forall₂_eq_eq_eq, List.forall₂_map_left_iff, List.forall₂_map_right_iff]
  exact (forall₂_of_beq h).imp hf

section States

variable {V : Type} [DecidableEq V] [ToString V]

/-- The text of a reference is a name. -/
theorem Cell.toString_eq_of_beq {c d : Cell V} (h : c == d) : toString c = toString d := by
  cases c with
  | value v =>
    cases d with
    | value w => rw [beq_iff_eq.mp (show (v == w) = true from h)]
    | ref y => cases h
  | ref x =>
    cases d with
    | value w => cases h
    | ref y => exact Var.beq_iff.mp h

theorem Stack.toString_eq_of_beq {s t : Stack V} (h : s == t) : toString s = toString t := by
  rw [Stack.beq_eq] at h
  have hcells : s.cells.map toString = t.cells.map toString :=
    map_eq_of_beq (fun _ _ => Cell.toString_eq_of_beq) h
  show String.intercalate " " (s.cells.reverse.map toString) =
    String.intercalate " " (t.cells.reverse.map toString)
  rw [List.map_reverse, List.map_reverse, hcells]

theorem Memory.toString_eq_of_beq {m n : Memory V} (h : m == n) : toString m = toString n := by
  have hentries : m.table.entries == n.table.entries := h
  refine congrArg (String.intercalate " ") (map_eq_of_beq (fun entry other heq => ?_) hentries)
  rw [pair_beq, Bool.and_eq_true, beq_iff_eq] at heq
  show s!"{entry.1}[{entry.2}]" = s!"{other.1}[{other.2}]"
  rw [heq.1, Stack.toString_eq_of_beq heq.2]

theorem Substitution.toString_eq_of_beq {σ τ : Substitution V} (h : σ == τ) :
    toString σ = toString τ := by
  have hentries : σ.bindings.entries == τ.bindings.entries := h
  refine congrArg (fun texts => "\x7b" ++ String.intercalate ", " texts ++ "\x7d")
    (?_ : σ.toList.map _ = τ.toList.map _)
  rw [toList, toList, List.map_map, List.map_map]
  refine map_eq_of_beq (fun entry other heq => ?_) hentries
  rw [pair_beq, Bool.and_eq_true, beq_iff_eq] at heq
  show s!"{entry.1} ↦ {entry.2.cell}" = s!"{other.1} ↦ {other.2.cell}"
  rw [heq.1, Cell.toString_eq_of_beq heq.2]

theorem State.toString_eq_of_beq {s t : State V} (h : s == t) : toString s = toString t := by
  obtain ⟨hmemory, hsubstitution⟩ : s.memory == t.memory ∧ s.substitution == t.substitution :=
    Bool.and_eq_true_iff.mp h
  show s!"{s.memory} {s.substitution}" = s!"{t.memory} {t.substitution}"
  rw [Memory.toString_eq_of_beq hmemory, Substitution.toString_eq_of_beq hsubstitution]

/-- The text of a configuration lists the texts and counts of its states, sorted. It is the same for
every order of the entries and for all equal configurations, whatever their flags. -/
theorem Bag.render_stable (c : Configuration V) :
    (∃ shown : List (String × Nat), shown.Perm (shownEntries c.entries) ∧
        (shown.Pairwise fun a b => shownBefore a b = true) ∧
        c.render = "\x7b" ++ String.intercalate ", " (shown.map renderEntry) ++ "\x7d") ∧
      (∀ c' : Configuration V, c.entries.Perm c'.entries → c.render = c'.render) ∧
      ∀ c' : Configuration V, c == c' → c.render = c'.render := by
  obtain ⟨shown, hperm, hsorted⟩ := exists_sorted_listing (shownEntries c.entries)
  refine ⟨⟨shown, hperm, hsorted, c.render_of_sorted hperm hsorted⟩, ?_, ?_⟩
  · intro c' h
    exact render_eq_of_perm (h.map _)
  · intro c' h
    exact render_eq_of_beq (fun _ _ => State.toString_eq_of_beq) h

end States

/-- The state with one stack that holds one cell. -/
def oneCell (c : Cell Value) : State Value := ⟨⟨.ofList [("l", .ofList [c])]⟩, .empty⟩

/-- A number, a reference with the given flag, and a text that reads like the number. -/
def readingAlike (isLocal : Bool) : Configuration Value where
  entries := [(oneCell (.value (.int 1)), 3), (oneCell (.ref ⟨"x", isLocal⟩), 1),
    (oneCell (.value (.text "1")), 2)]
  distinct := by cases isLocal <;> decide +kernel
  counted := by simp [maxCount]

/-- The same entries from the last to the first. -/
def readingAlikeReversed (isLocal : Bool) : Configuration Value where
  entries := (readingAlike isLocal).entries.reverse
  distinct := by cases isLocal <;> decide +kernel
  counted := by simp [readingAlike, maxCount]

/-- States that read alike are listed by their counts, from either end and with either flag. -/
theorem Bag.render_stable_readingAlike :
    (readingAlike false).render = "\x7bl[1] \x7b\x7d ×2, l[1] \x7b\x7d ×3, l[x] \x7b\x7d\x7d" ∧
      (readingAlikeReversed false).render = (readingAlike false).render ∧
      readingAlikeReversed true == readingAlike false ∧
      (readingAlikeReversed true).render = (readingAlike false).render := by
  have htext : (readingAlike false).render =
      "\x7bl[1] \x7b\x7d ×2, l[1] \x7b\x7d ×3, l[x] \x7b\x7d\x7d" := by
    rw [(readingAlike false).render_of_sorted
      (show [("l[1] \x7b\x7d", 2), ("l[1] \x7b\x7d", 3), ("l[x] \x7b\x7d", 1)].Perm _ by decide +kernel)
      (by decide +kernel)]
    decide +kernel
  have hequal : readingAlikeReversed true == readingAlike false := by decide +kernel
  refine ⟨htext, ?_, hequal, (render_stable (readingAlikeReversed true)).2.2 _ hequal⟩
  exact (render_stable (readingAlikeReversed false)).2.1 _ (List.reverse_perm _)

end StackCalculus
