import Mathlib
import StackCalculus.Proofs.Fresh
import StackCalculus.Proofs.Invariant.Stored
import StackCalculus.Proofs.Schedule.Independence

/-!
# Coherent flags

Equality does not look at the flags of variables, and a bag that merges two equal states keeps one of
them, so that flags could come to depend on the order in which states are visited. They do not where
flags are a function `φ` of names, which holds of the names that scopes choose as soon as `φ` marks
every name with a `#`. No step then stores a variable with another flag (`invariant_coherent`). Among
coherent states equality is identity (`State.eq_of_beq_of_coherent`). Hence a merge has no choice, and
the entries of a result are the same up to order, whatever the schedules and whichever copies are kept
(`Machine.run_coherent`).
-/

namespace StackCalculus

variable {V : Type} {φ : String → Bool}

/-- The flag of the variable is the one that `φ` gives to its name. -/
def Var.Coherent (φ : String → Bool) (x : Var) : Prop := x.isLocal = φ x.name

instance : DecidablePred (Var.Coherent φ) := fun _ => inferInstanceAs (Decidable (_ = _))

/-- No step stores a variable with another flag: the variables that scopes choose are local, and their
names have a `#`. -/
theorem invariant_coherent [DecidableEq V] [ToString V]
    (hφ : ∀ name : String, '#' ∈ name.toList → φ name = true) :
    Invariant (State.VarsIn (V := V) (Var.Coherent φ)) (Program.VarsIn (Var.Coherent φ))
      fun _ => True :=
  invariant_varsIn fun base index => (hφ _ (Var.hash_mem_indexed base index)).symm

/-! ## Equality of coherent states -/

theorem Var.Coherent.eq_of_beq {x y : Var} (hx : x.Coherent φ) (hy : y.Coherent φ) (h : x == y) :
    x = y := by
  obtain ⟨name, isLocal⟩ := x
  obtain ⟨name', isLocal'⟩ := y
  obtain rfl : name = name' := Var.beq_iff.mp h
  obtain rfl : isLocal = isLocal' := Eq.trans hx (Eq.symm hy)
  rfl

theorem eq_of_beq_of_mem {α : Type} [BEq α] {xs ys : List α} (h : xs == ys)
    (heq : ∀ a ∈ xs, ∀ b ∈ ys, a == b → a = b) : xs = ys := by
  rw [← List.forall₂_eq_eq_eq]
  exact forall₂_imp_of_mem heq (forall₂_of_beq h)

section Equality

variable [DecidableEq V]

theorem Cell.eq_of_beq_of_coherent {c d : Cell V} (hc : c.VarsIn (Var.Coherent φ))
    (hd : d.VarsIn (Var.Coherent φ)) (h : c == d) : c = d := by
  cases c with
  | value v =>
    cases d with
    | value w => rw [beq_iff_eq.mp (show (v == w) = true from h)]
    | ref y => cases h
  | ref x =>
    cases d with
    | value w => cases h
    | ref y => rw [Var.Coherent.eq_of_beq hc hd h]

/-- Equal coherent states are identical. -/
theorem State.eq_of_beq_of_coherent {s t : State V} (hs : s.VarsIn (Var.Coherent φ))
    (ht : t.VarsIn (Var.Coherent φ)) (h : s == t) : s = t := by
  obtain ⟨⟨table⟩, ⟨bindings⟩⟩ := s
  obtain ⟨⟨table'⟩, ⟨bindings'⟩⟩ := t
  obtain ⟨htable, hbindings⟩ :
      table.entries == table'.entries ∧ bindings.entries == bindings'.entries :=
    Bool.and_eq_true_iff.mp h
  obtain rfl : table = table' := by
    refine NameMap.ext (eq_of_beq_of_mem htable fun entry hentry entry' hentry' heq => ?_)
    rw [pair_beq, Bool.and_eq_true, beq_iff_eq, Stack.beq_eq] at heq
    have hcells : entry.2.cells = entry'.2.cells := eq_of_beq_of_mem heq.2 fun c hc d hd =>
      Cell.eq_of_beq_of_coherent (hs.cells entry hentry c hc) (ht.cells entry' hentry' d hd)
    exact Prod.ext heq.1 (Stack.ext hcells)
  obtain rfl : bindings = bindings' := by
    refine NameMap.ext (eq_of_beq_of_mem hbindings fun entry hentry entry' hentry' heq => ?_)
    obtain ⟨name, isLocal, c⟩ := entry
    obtain ⟨name', isLocal', d⟩ := entry'
    obtain ⟨hx, hc⟩ := hs.bindings _ (List.mem_map_of_mem hentry)
    obtain ⟨hy, hd⟩ := ht.bindings _ (List.mem_map_of_mem hentry')
    rw [pair_beq, Bool.and_eq_true] at heq
    cases Var.Coherent.eq_of_beq hx hy heq.1
    cases Cell.eq_of_beq_of_coherent hc hd heq.2
    rfl
  rfl

end Equality

/-- Where equality of elements is identity, equal bags have the same entries up to order. -/
theorem Bag.perm_entries_of_beq {α : Type} [BEq α] [EquivBEq α] {Q : α → Prop}
    (hQ : ∀ a b, Q a → Q b → a == b → a = b) {a b : Bag α} (ha : a.Each Q) (hb : b.Each Q)
    (h : a == b) : a.entries.Perm b.entries := by
  obtain ⟨es, hperm, hsame⟩ := exists_perm_of_count_eq ((beq_iff_count_eq a b).mp h)
  have heq : List.Forall₂ Eq a.entries es :=
    forall₂_imp_of_mem (fun entry hentry entry' hentry' hsame => Prod.ext
      (hQ _ _ (ha.of_mem_entries hentry) (hb.of_mem_entries (hperm.mem_iff.mpr hentry')) hsame.1)
      hsame.2) hsame
  rw [List.forall₂_eq_eq_eq] at heq
  exact heq ▸ hperm.symm

namespace Machine

variable [DecidableEq V] [ToString V]

/-- A success under some schedules is a success under any, with the same entries. -/
theorem perm_of_possible {machine machine' : Machine}
    (hbound : machine.config.maxIterations = machine'.config.maxIterations)
    (hlimit : machine.config.timeLimit = none) (hlimit' : machine'.config.timeLimit = none)
    (hφ : ∀ name : String, '#' ∈ name.toList → φ name = true) {program : Program V}
    (hprogram : program.VarsIn (Var.Coherent φ)) {c c' r : Configuration V}
    (hc : c.Each (State.VarsIn (Var.Coherent φ))) (hc' : c'.Each (State.VarsIn (Var.Coherent φ)))
    (hcounts : ∀ s, c.count s = c'.count s) (hr : .ok r ∈ machine.possible [] program c)
    {o : Except Fault (Configuration V)} (ho : o ∈ machine'.possible [] program c') :
    ∃ r', o = .ok r' ∧ r.entries.Perm r'.entries := by
  obtain ⟨r', rfl, hcount⟩ := settles_possible hbound hlimit hlimit' [] program hcounts hr o ho
  have hcoherent := ((invariant_coherent hφ).possible machine [] hprogram hc _ hr).of_ok
  have hcoherent' := ((invariant_coherent hφ).possible machine' [] hprogram hc' _ ho).of_ok
  have heq : r == r' := (Bag.beq_iff_count_eq r r').mpr fun s => (hcount s).symm
  refine ⟨r', rfl, ?_⟩
  exact Bag.perm_entries_of_beq (fun _ _ => State.eq_of_beq_of_coherent) hcoherent hcoherent' heq

/-- A coherent program takes a coherent state to coherent states. Coherent variables or states that
are equal are identical, so that it makes no difference which of them is kept: from equal coherent
configurations, listed in any order, any two schedules end in the same entries up to order, or both in
a fault. -/
theorem run_coherent (machine : Machine) (hφ : ∀ name : String, '#' ∈ name.toList → φ name = true)
    {program : Program V} (hprogram : program.VarsIn (Var.Coherent φ)) {s : State V}
    (hs : s.VarsIn (Var.Coherent φ)) :
    (∀ r, machine.run program s = .ok r → ∀ t ∈ r.elements, t.VarsIn (Var.Coherent φ)) ∧
      (∀ x y : Var, x.Coherent φ → y.Coherent φ → x == y → x = y) ∧
      (∀ t u : State V, t.VarsIn (Var.Coherent φ) → u.VarsIn (Var.Coherent φ) → t == u → t = u) ∧
      ∀ machine' : Machine, machine.config.maxIterations = machine'.config.maxIterations →
        machine.config.timeLimit = none → machine'.config.timeLimit = none →
        ∀ c c' : Configuration V, (∀ t ∈ c.elements, t.VarsIn (Var.Coherent φ)) →
          (∀ t ∈ c'.elements, t.VarsIn (Var.Coherent φ)) → c == c' →
          ∀ o ∈ machine.possible [] program c, ∀ o' ∈ machine'.possible [] program c',
            ((∃ r, o = .ok r) ↔ ∃ r', o' = .ok r') ∧
              ∀ r r', o = .ok r → o' = .ok r' → r.entries.Perm r'.entries := by
  refine ⟨fun r hr => (invariant_coherent hφ).each_of_run hprogram hs hr,
    fun x y hx hy => hx.eq_of_beq hy, fun t u ht hu => State.eq_of_beq_of_coherent ht hu, ?_⟩
  intro machine' hbound hlimit hlimit' c c' hc hc' h o ho o' ho'
  have hcounts := (Bag.beq_iff_count_eq c c').mp h
  have hforth : ∀ r, o = .ok r → ∃ r', o' = .ok r' ∧ r.entries.Perm r'.entries := by
    rintro r rfl
    exact perm_of_possible hbound hlimit hlimit' hφ hprogram hc hc' hcounts ho ho'
  have hback : ∀ r', o' = .ok r' → ∃ r, o = .ok r ∧ r'.entries.Perm r.entries := by
    rintro r' rfl
    exact perm_of_possible hbound.symm hlimit' hlimit hφ hprogram hc' hc (fun s => (hcounts s).symm)
      ho' ho
  refine ⟨⟨?_, ?_⟩, ?_⟩
  · rintro ⟨r, hr⟩
    exact (hforth r hr).imp fun _ => And.left
  · rintro ⟨r', hr'⟩
    exact (hback r' hr').imp fun _ => And.left
  · intro r r' hr hr'
    obtain ⟨r'', hr'', hperm⟩ := hforth r hr
    cases hr'.symm.trans hr''
    exact hperm

/-- Marks `y` and the names with a `#`. -/
def marksY (name : String) : Bool := name == "y" || name.toList.contains '#'

/-- Two branches meet in a state with a local variable on a stack, to which `y` is then bound. -/
def meetAndBind : Program String :=
  .seq (.scope ⟨"x", false⟩ (.branch (.pushVar "x" "l") (.pushVar "x" "l")))
    (.pop (.var ⟨"y", true⟩) "l")

/-- A marked reference in a binding and one on a stack. -/
def markedReferences : State String :=
  ⟨⟨.ofList [("k", .ofList [.ref ⟨"y", true⟩, .value "v"]), ("l", .empty)]⟩,
    ⟨.ofList [("z", ⟨false, .ref ⟨"w#1", true⟩⟩)]⟩⟩

/-- The branches meet in one state, with the flags of its variables as marked, and under any schedule
the run ends with this entry. -/
theorem run_coherent_meetAndBind :
    ∃ r, run {} meetAndBind markedReferences = .ok r ∧
      r.entries.map (fun entry => (entry.1.substitution.toList.map fun binding =>
        (binding.1.name, binding.1.isLocal), entry.2)) = [([("y", true), ("z", false)], 2)] ∧
      (∀ t ∈ r.elements, t.VarsIn (Var.Coherent marksY)) ∧
      ∀ o ∈ possible {} [] meetAndBind (.singleton markedReferences),
        ∀ r', o = .ok r' → r.entries.Perm r'.entries := by
  have hφ : ∀ name : String, '#' ∈ name.toList → marksY name = true := by
    intro name hname
    rw [marksY, List.contains_iff_mem.mpr hname, Bool.or_true]
  have hrun : (run {} meetAndBind markedReferences).toOption.any fun r =>
      r.entries.map (fun entry => (entry.1.substitution.toList.map fun binding =>
        (binding.1.name, binding.1.isLocal), entry.2)) == [([("y", true), ("z", false)], 2)] := by
    decide +kernel
  obtain ⟨r, hr, hentries⟩ := exists_ok_of_any hrun
  have hs : markedReferences.VarsIn (Var.Coherent marksY) := by decide +kernel
  have hprogram : meetAndBind.VarsIn (Var.Coherent marksY) := by decide +kernel
  obtain ⟨hcoherent, _, _, hall⟩ := run_coherent {} hφ hprogram hs
  refine ⟨r, hr, beq_iff_eq.mp hentries, hcoherent r hr, fun o ho r' hr' => ?_⟩
  have hmem := exec_mem_possible {} [] meetAndBind (.singleton markedReferences)
  have hstart := Bag.each_singleton hs
  have hsame := (Bag.beq_iff_count_eq (.singleton markedReferences) _).mpr fun _ => rfl
  rw [run_eq_step] at hr
  exact (hall {} rfl rfl rfl _ _ hstart hstart hsame _ hmem o ho).2 r r' hr hr'

end Machine

end StackCalculus
