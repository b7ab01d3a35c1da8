import Mathlib
import StackCalculus.Proofs.Fresh
import StackCalculus.Proofs.Invariant.Run
import StackCalculus.Proofs.Memory
import StackCalculus.Proofs.Steps

/-!
# Footprints

The pushes and pops of a program are all that it does to a memory, apart from the ends of its scopes.
Entering a scope renames the terms that the body pushes and pops, but not the locations, so a
property of pushes and pops that renaming keeps holds of all that a run executes
(`Invariant.of_accesses`).

The end of a scope rewrites references in all stacks. It changes no stack that was there when the
scope was entered: the variable of the scope is one that the state did not mention. A run therefore
leaves the stacks alone at all locations that the program does not name (`Machine.run_frame`).
-/

namespace StackCalculus

variable {V : Type}

namespace Program

/-- The terms that a program pushes or pops, with the locations. -/
def accesses : Program V → List (Term V × String)
  | skip | fail => []
  | seq p q | branch p q => p.accesses ++ q.accesses
  | iterate p | scope _ p => p.accesses
  | push t location | pop t location => [(t, location)]

/-- The locations that a program pushes to or pops from. -/
def locations (p : Program V) : List String := p.accesses.map Prod.snd

/-- The terms that a program pushes or pops. -/
def terms (p : Program V) : List (Term V) := p.accesses.map Prod.fst

/-- Whether a program has an iteration. -/
def iterates : Program V → Bool
  | skip | fail | push _ _ | pop _ _ => false
  | seq p q | branch p q => p.iterates || q.iterates
  | iterate _ => true
  | scope _ p => p.iterates

/-- Renaming changes the terms only. -/
theorem mem_accesses_rename {old new : Var} {p : Program V} {access : Term V × String}
    (h : access ∈ (p.rename old new).accesses) :
    ∃ t, (t, access.2) ∈ p.accesses ∧ (access.1 = t ∨ access.1 = t.rename old new) := by
  induction p with
  | skip => cases h
  | fail => cases h
  | seq p q ihp ihq =>
    rcases List.mem_append.mp h with h | h
    · obtain ⟨t, ht, heq⟩ := ihp h
      exact ⟨t, List.mem_append_left _ ht, heq⟩
    · obtain ⟨t, ht, heq⟩ := ihq h
      exact ⟨t, List.mem_append_right _ ht, heq⟩
  | branch p q ihp ihq =>
    rcases List.mem_append.mp h with h | h
    · obtain ⟨t, ht, heq⟩ := ihp h
      exact ⟨t, List.mem_append_left _ ht, heq⟩
    · obtain ⟨t, ht, heq⟩ := ihq h
      exact ⟨t, List.mem_append_right _ ht, heq⟩
  | iterate p ih => exact ih h
  | push t location =>
    obtain rfl := List.mem_singleton.mp h
    exact ⟨t, List.mem_singleton_self _, .inr rfl⟩
  | pop t location =>
    obtain rfl := List.mem_singleton.mp h
    exact ⟨t, List.mem_singleton_self _, .inr rfl⟩
  | scope x p ih =>
    rw [rename] at h
    split at h
    · exact ⟨access.1, h, .inl rfl⟩
    · exact ih h

@[simp] theorem iterates_rename (old new : Var) (p : Program V) :
    (p.rename old new).iterates = p.iterates := by
  induction p with
  | skip => rfl
  | fail => rfl
  | seq p q ihp ihq => simp only [rename, iterates, ihp, ihq]
  | branch p q ihp ihq => simp only [rename, iterates, ihp, ihq]
  | iterate p ih => rfl
  | push t location => rfl
  | pop t location => rfl
  | scope x p ih =>
    rw [rename]
    split
    · rfl
    · exact ih

end Program

/-- Programs with pushes and pops in `A`, and with iterations only if `F` has divergence in it. -/
structure Program.Within (A : Term V → String → Prop) (F : Fault → Prop) (p : Program V) : Prop where
  accesses : ∀ access ∈ p.accesses, A access.1 access.2
  divergence : p.iterates → ∀ rounds, F (.divergence rounds)

/-- Every program keeps to its own locations. -/
theorem Program.within_locations (p : Program V) :
    p.Within (fun _ location => location ∈ p.locations) fun _ => True :=
  ⟨fun _ h => List.mem_map_of_mem h, fun _ _ => trivial⟩

section Within

variable {A : Term V → String → Prop} {F : Fault → Prop} {p q : Program V}

theorem Program.Within.of_append {r : Program V} (h : r.Within A F)
    (haccesses : r.accesses = p.accesses ++ q.accesses)
    (hiterates : r.iterates = (p.iterates || q.iterates)) : p.Within A F ∧ q.Within A F := by
  have haccess := h.accesses
  rw [haccesses] at haccess
  obtain ⟨hp, hq⟩ := List.forall_mem_append.mp haccess
  have hdivergence := h.divergence
  rw [hiterates, Bool.or_eq_true, or_imp] at hdivergence
  exact ⟨⟨hp, hdivergence.1⟩, hq, hdivergence.2⟩

theorem Program.Within.rename (h : p.Within A F) {old new : Var}
    (hrename : ∀ t location, A t location → A (t.rename old new) location) :
    (p.rename old new).Within A F where
  accesses access haccess := by
    obtain ⟨t, ht, heq | heq⟩ := Program.mem_accesses_rename haccess
    · rw [heq]
      exact h.accesses _ ht
    · rw [heq]
      exact hrename t _ (h.accesses _ ht)
  divergence hiterates := by
    rw [Program.iterates_rename] at hiterates
    exact h.divergence hiterates

/-- An invariant for programs with pushes and pops in `A`, where renaming stays in `A`. -/
theorem Invariant.of_accesses [DecidableEq V] [ToString V] {S : State V → Prop}
    (overflow : F .multiplicityOverflow)
    (rename : ∀ t location x y, A t location → A (t.rename x y) location)
    (push : ∀ t location s, A t location → S s →
      Meets (fun e => e.isBranchFailure = false → F e) S (s.push t location))
    (pop : ∀ t location s, A t location → S s →
      Meets (fun e => e.isBranchFailure = false → F e) S (s.pop t location))
    (leave : ∀ x s u, s.mentions x = false → S s → S u → S (u.project x)) :
    Invariant S (Program.Within A F) F where
  overflow := overflow
  seq h := h.of_append rfl rfl
  branch h := h.of_append rfl rfl
  iterate h := ⟨⟨h.accesses, fun _ => h.divergence rfl⟩, h.divergence rfl⟩
  push h := push _ _ _ (h.accesses _ (List.mem_singleton_self _))
  pop h := pop _ _ _ (h.accesses _ (List.mem_singleton_self _))
  enter := by
    intro x p s reserved h _
    have hbody : p.Within A F := ⟨h.accesses, h.divergence⟩
    exact hbody.rename fun t location => rename t location x _
  leave reserved _ := leave _ _ _ (mentions_freshFor _ _ _ reserved)

end Within

/-! ## Frames -/

/-- A memory with the locations of `m`, and with its stacks outside `used`. -/
structure Memory.Framed (used : List String) (m m' : Memory V) : Prop where
  locations : m'.locations = m.locations
  outside : ∀ location, location ∉ used → m'.table.get? location = m.table.get? location

namespace Memory.Framed

variable {used : List String} {m m' : Memory V}

theorem refl (used : List String) (m : Memory V) : m.Framed used m := ⟨rfl, fun _ _ => rfl⟩

theorem insert (h : m.Framed used m') {location : String} (hlocation : location ∈ used)
    {old : Stack V} (hget : m'.table.get? location = some old) (new : Stack V) :
    m.Framed used ⟨m'.table.insert location new⟩ where
  locations := (locations_insert hget new).trans h.locations
  outside other hother := by
    have hne : other ≠ location := fun heq => hother (heq ▸ hlocation)
    exact (m'.table.get?_insert_of_ne hne new).trans (h.outside other hother)

theorem replaceRefs (h : m.Framed used m') {x : Var}
    (hx : ∀ location stack, location ∉ used → m.table.get? location = some stack →
      stack.mentions x = false) (c : Cell V) : m.Framed used (m'.replaceRefs x c) where
  locations := (m'.locations_replaceRefs x c).trans h.locations
  outside location hlocation := by
    show (m'.table.map _).get? location = _
    rw [NameMap.get?_map, h.outside location hlocation]
    cases hget : m.table.get? location with
    | none => rfl
    | some stack =>
      have hstack := hx location stack hlocation hget
      exact congrArg some (Stack.map_replaceRef_of_mentions_eq_false hstack c)

/-- The stacks outside the frame are those of a state that does not mention the variable. -/
theorem project {s u : State V} (hs : m.Framed used s.memory) (hu : m.Framed used u.memory) {x : Var}
    (hx : s.mentions x = false) : m.Framed used (u.project x).memory := by
  unfold State.project
  split
  · refine hu.replaceRefs (fun location stack hlocation hget => ?_) _
    rw [← hs.outside location hlocation] at hget
    rw [← Bool.not_eq_true]
    intro hmentions
    have hmemory := (s.memory.mentions_iff x).mpr ⟨location, stack, hget, hmentions⟩
    rw [State.mentions, hmemory, Bool.or_true] at hx
    cases hx
  · exact hu

theorem stackAt (h : m.Framed used m') {location : String} (hlocation : location ∉ used) :
    m'.stackAt location = m.stackAt location := by
  rw [Memory.stackAt, Memory.stackAt, h.outside location hlocation]

end Memory.Framed

/-- Programs that use the locations in `used` only keep the frame. -/
theorem invariant_framed [DecidableEq V] [ToString V] (used : List String) (m : Memory V) :
    Invariant (fun u : State V => m.Framed used u.memory)
      (Program.Within (fun _ location => location ∈ used) fun _ => True) fun _ => True := by
  apply Invariant.of_accesses trivial
  case rename => exact fun _ _ _ _ h => h
  case leave => exact fun x s u hx hs hu => hs.project hu hx
  case push =>
    intro t location s hlocation hs
    have hpush := s.push_cases t location
    generalize s.push t location = outcome at hpush
    cases hpush with
    | pushed _ hstack => exact .ok (hs.insert hlocation hstack _)
    | _ => exact .error fun _ => trivial
  case pop =>
    intro t location s hlocation hs
    have hpop := s.pop_cases t location
    generalize s.pop t location = outcome at hpop
    cases hpop with
    | matched hstack => exact .ok (hs.insert hlocation hstack _)
    | bound hstack => exact .ok (hs.insert hlocation hstack _)
    | _ => exact .error fun _ => trivial

/-- A run keeps the alphabet, and the stacks at locations that the program does not name. -/
theorem Machine.run_frame [DecidableEq V] [ToString V] (machine : Machine) (program : Program V)
    (s : State V) {r : Configuration V} (hrun : machine.run program s = .ok r) :
    ∀ t ∈ r.elements, t.memory.locations = s.memory.locations ∧
      ∀ location, location ∉ program.locations →
        t.memory.stackAt location = s.memory.stackAt location := by
  intro t ht
  have hframed := (invariant_framed program.locations s.memory).each_of_run
    program.within_locations (.refl _ _) hrun t ht
  exact ⟨hframed.locations, fun location => hframed.stackAt⟩

/-- Doubles the top of a stack, by way of a local variable. -/
def doubleTop : Program String :=
  .scope ⟨"a", false⟩ (.seq (.popVar "a" "l") (.seq (.pushVar "a" "l") (.pushVar "a" "l")))

/-- References at a second location, to variables that the local one could be taken for. -/
def besideReferences : State String :=
  ⟨⟨.ofList [("k", .ofList [.ref ⟨"a", false⟩, .ref ⟨"a#0", true⟩]), ("l", .ofList [.value "v"])]⟩,
    .empty⟩

/-- The end of the scope rewrites both references that were pushed, and nothing at `k`. -/
theorem Machine.run_frame_doubleTop :
    "k" ∉ doubleTop.locations ∧ ∃ r, run {} doubleTop besideReferences = .ok r ∧
      r.elements.length = 1 ∧ ∀ t ∈ r.elements, t.memory.locations = ["k", "l"] ∧
        t.memory.stackAt "k" = .ok (.ofList [.ref ⟨"a", false⟩, .ref ⟨"a#0", true⟩]) := by
  have hlocation : "k" ∉ doubleTop.locations := by decide
  have hrun : (run {} doubleTop besideReferences).toOption.any fun r => r.elements.length == 1 := by
    decide +kernel
  obtain ⟨r, hr, hlength⟩ := exists_ok_of_any hrun
  refine ⟨hlocation, r, hr, beq_iff_eq.mp hlength, fun t ht => ?_⟩
  obtain ⟨hlocations, houtside⟩ := run_frame {} doubleTop besideReferences hr t ht
  exact ⟨hlocations.trans rfl, (houtside "k" hlocation).trans rfl⟩

end StackCalculus
