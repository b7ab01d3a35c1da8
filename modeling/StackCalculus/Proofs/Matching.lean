import Mathlib
import StackCalculus.Machine.Equations
import StackCalculus.Proofs.Invariant.Acyclic

/-!
# Pops match one-sidedly

A pop compares what its term stands for with what the popped cell stands for. An unbound variable takes
everything but a reference to itself and is bound to it; a value has to be met exactly. `Meets` is this
condition, and it decides the outcome of the step: one state if it holds, none if it does not. In the
state that comes out, the term and the popped cell stand for the same (`Machine.step_pop_meets`).
-/

namespace StackCalculus

variable {V : Type}

/-! ## Matching cells -/

namespace Substitution

/-- A popped cell meets an expected one: an unbound variable takes everything but a reference to
itself, and a value is met by the same value. -/
def Meets (s : Substitution V) (expected popped : Cell V) : Prop :=
  match expected with
  | .ref x => s.get? x = none ∧ popped.refersTo x = false
  | .value v => popped = .value v

/-- `s'` is `s`, except that an expected variable is bound to the popped cell. -/
def MatchedTo (s : Substitution V) (expected popped : Cell V) (s' : Substitution V) : Prop :=
  match expected with
  | .ref x => s'.get? x = some popped ∧ ∀ y, ¬ y == x → s'.get? y = s.get? y
  | .value _ => s' = s

/-- The substitution after a match. -/
def afterMatch (s : Substitution V) (expected popped : Cell V) : Substitution V :=
  match expected with
  | .ref x => s.set x popped
  | .value _ => s

variable {s : Substitution V} {expected popped : Cell V}

theorem matchedTo_afterMatch (s : Substitution V) (expected popped : Cell V) :
    s.MatchedTo expected popped (s.afterMatch expected popped) := by
  cases expected with
  | value v => rfl
  | ref x =>
    refine ⟨?_, fun y hyx => ?_⟩
    · rw [afterMatch, get?_set, if_pos (BEq.refl x)]
    · rw [afterMatch, get?_set, if_neg hyx]

section Outcome

variable [DecidableEq V] [ToString V]

theorem matchCell_of_meets (hpopped : s.CellEnds popped popped) (h : s.Meets expected popped) :
    s.matchCell expected popped = .ok (s.afterMatch expected popped) := by
  cases expected with
  | value v =>
    obtain rfl : popped = .value v := h
    exact if_pos (BEq.refl _)
  | ref x =>
    obtain ⟨hx, hself⟩ := h
    rw [matchCell_ref hx hpopped, hself]
    rfl

theorem matchCell_of_not_meets (hexpected : s.CellEnds expected expected)
    (hpopped : s.CellEnds popped popped) (h : ¬ s.Meets expected popped) :
    ∃ e, s.matchCell expected popped = .error e ∧ e.isBranchFailure = true := by
  cases expected with
  | value v =>
    have hne : ¬ popped == .value v := by
      intro hmet
      cases popped with
      | value w => exact h (congrArg Cell.value (beq_iff_eq.mp hmet))
      | ref y => cases hmet
    exact ⟨_, if_neg hne, rfl⟩
  | ref x =>
    have hx : s.get? x = none := Ends.get?_eq_none hexpected
    have hself : popped.refersTo x = true := by
      rw [← Bool.not_eq_false]
      exact fun hself => h ⟨hx, hself⟩
    exact ⟨_, (matchCell_ref hx hpopped).trans (if_pos hself), rfl⟩

end Outcome

/-! ## The equation after a match -/

/-- The popped cell is resolved as before: its chain does not end in the variable that was bound. -/
theorem CellEnds.afterMatch {c : Cell V} (h : s.CellEnds c popped) (hmeets : s.Meets expected popped) :
    (s.afterMatch expected popped).CellEnds c popped := by
  cases expected with
  | value v => exact h
  | ref x =>
    obtain ⟨hx, hself⟩ := hmeets
    have hset := h.set hx h.self hself
    rwa [Cell.replaceRef_of_refersTo_eq_false hself] at hset

end Substitution

/-- Only a variable stands for a variable. -/
theorem Term.exists_eq_var {s : Substitution V} {t : Term V} {x : Var}
    (h : t.evaluateUnder s = .ok (.ref x)) : ∃ y, t = .var y ∧ s.Ends y (.ref x) := by
  cases t with
  | var y => exact ⟨y, rfl, (s.resolve_eq_ok_iff y _).mp h⟩
  | func label arity args rule =>
    rw [evaluateUnder] at h
    split at h
    · obtain ⟨values, _, h⟩ := bind_eq_ok_iff.mp h
      cases h
    · cases h

/-- The term stands for the popped cell now: its chain ended in the variable that was bound, and goes
on to the end of the popped cell. -/
theorem Term.evaluateUnder_afterMatch {s : Substitution V} {t : Term V} {expected popped : Cell V}
    (h : t.evaluateUnder s = .ok expected) (hpopped : s.CellEnds popped popped)
    (hmeets : s.Meets expected popped) :
    t.evaluateUnder (s.afterMatch expected popped) = .ok popped := by
  cases expected with
  | value v =>
    obtain rfl : popped = .value v := hmeets
    exact h
  | ref x =>
    obtain ⟨hx, hself⟩ := hmeets
    obtain ⟨y, rfl, hy⟩ := exists_eq_var h
    rw [evaluateUnder, Substitution.resolve_eq_ok_iff]
    exact hy.set_of_refersTo hx (BEq.refl x) hpopped hself

/-! ## Popping a cell -/

/-- `m'` is `m` without the top cell `c` at a location. -/
structure Memory.PoppedTo (m : Memory V) (location : String) (c : Cell V) (m' : Memory V) : Prop where
  here : ∃ rest, m.stackAt location = .ok (rest.push c) ∧ m'.stackAt location = .ok rest
  elsewhere : ∀ other, other ≠ location → m'.stackAt other = m.stackAt other

theorem Memory.poppedTo_insert {m : Memory V} {location : String} {c : Cell V} {rest : Stack V}
    (hget : m.table.get? location = some (rest.push c)) :
    m.PoppedTo location c ⟨m.table.insert location rest⟩ where
  here := by
    refine ⟨rest, ?_, ?_⟩
    · rw [stackAt, hget]
    · rw [stackAt, NameMap.get?_insert_self]
  elsewhere other hne := by rw [stackAt, stackAt, NameMap.get?_insert_of_ne _ hne]

theorem Memory.exists_get?_of_top? {m : Memory V} {location : String} {c : Cell V}
    (h : m.top? location = .ok (some c)) :
    ∃ rest : Stack V, m.table.get? location = some (rest.push c) := by
  unfold top? stackAt at h
  cases hget : m.table.get? location with
  | none =>
    rw [hget] at h
    cases h
  | some stack =>
    rw [hget] at h
    obtain ⟨cells, size, hsize⟩ := stack
    cases cells with
    | nil => cases h
    | cons top below =>
      cases h
      exact ⟨⟨below, below.length, rfl⟩, congrArg some (Stack.ext rfl)⟩

/-- What a pop of the top cell `c`, resolved to `popped`, makes of a state: the cell is gone, the
expected variable is bound if there is one, and the term stands for the same as the cell. -/
structure State.Matched (s : State V) (t : Term V) (location : String) (c expected popped : Cell V)
    (s' : State V) : Prop where
  memory : s.memory.PoppedTo location c s'.memory
  substitution : s.substitution.MatchedTo expected popped s'.substitution
  equation : ∃ d, t.evaluateUnder s'.substitution = .ok d ∧ s'.substitution.resolveCell c = .ok d

section Steps

variable [DecidableEq V] [ToString V]

/-- A pop that finds a cell and a term that can be evaluated is decided by matching the two. -/
theorem State.pop_eq_matchCell {s : State V} {t : Term V} {location : String} {c e u : Cell V}
    {rest : Stack V} (hget : s.memory.table.get? location = some (rest.push c))
    (hc : s.substitution.CellEnds c u) (hterm : t.evaluateUnder s.substitution = .ok e) :
    s.pop t location =
      (s.substitution.matchCell e u).map (State.mk ⟨s.memory.table.insert location rest⟩) := by
  rw [pop_of_get? hget, (s.substitution.resolveCell_eq_ok_iff c u).mpr hc, hterm]
  show s.substitution.matchCell e u >>= _ = _
  cases s.substitution.matchCell e u <;> rfl

namespace Machine

/-- A pop from a state without cycles is one-sided matching. If the popped cell meets what the term
stands for, there is one outcome, matched; otherwise there is none. -/
theorem step_pop_meets (machine : Machine) {s : State V} (hacyclic : s.substitution.Acyclic)
    {location : String} {c : Cell V} (htop : s.memory.top? location = .ok (some c)) {t : Term V}
    {e : Cell V} (hterm : t.evaluateUnder s.substitution = .ok e) :
    ∃ u, s.substitution.resolveCell c = .ok u ∧
      (s.substitution.Meets e u → ∃ s',
        machine.step (.pop t location) (.singleton s) = .ok (.singleton s') ∧
          s.Matched t location c e u s') ∧
      (¬ s.substitution.Meets e u →
        machine.step (.pop t location) (.singleton s) = .ok .empty) := by
  obtain ⟨rest, hget⟩ := Memory.exists_get?_of_top? htop
  obtain ⟨u, hc⟩ := hacyclic.exists_cellEnds c
  have hstep : machine.step (.pop t location) (.singleton s) = settle (s.pop t location) := by
    rw [step, exec_pop, forEach_singleton]
  rw [hstep, State.pop_eq_matchCell hget hc hterm, settle_eq]
  refine ⟨u, (s.substitution.resolveCell_eq_ok_iff c u).mpr hc, fun hmeets => ?_, fun hmeets => ?_⟩
  · rw [Substitution.matchCell_of_meets hc.self hmeets]
    refine ⟨_, rfl, Memory.poppedTo_insert hget, s.substitution.matchedTo_afterMatch e u, u, ?_, ?_⟩
    · exact Term.evaluateUnder_afterMatch hterm hc.self hmeets
    · exact (Substitution.resolveCell_eq_ok_iff ..).mpr (hc.afterMatch hmeets)
  · have hexpected := Term.cellEnds_of_evaluateUnder hterm
    obtain ⟨fault, hfault, hbranch⟩ := Substitution.matchCell_of_not_meets hexpected hc.self hmeets
    rw [hfault]
    exact if_pos hbranch

/-- A reference on the stack, and two chains: from `a` to `b`, and from `y` to `x`. -/
def twoChains : State String :=
  ⟨⟨.ofList [("l", .ofList [.ref ⟨"a", false⟩])]⟩,
    .ofList [(⟨"a", false⟩, .ref ⟨"b", true⟩), (⟨"y", false⟩, .ref ⟨"x", true⟩)]⟩

/-- A pop into `y` binds `x`, the end of its chain, to `b`, the end of the other chain. A pop into `b`
finds a reference to `b` itself and has no outcome. -/
theorem step_pop_meets_twoChains :
    (∃ s', step {} (.pop (.var ⟨"y", false⟩) "l") (.singleton twoChains) = .ok (.singleton s') ∧
      twoChains.Matched (.var ⟨"y", false⟩) "l" (.ref ⟨"a", false⟩) (.ref ⟨"x", true⟩)
        (.ref ⟨"b", true⟩) s') ∧
      step {} (.pop (.var ⟨"b", false⟩) "l") (.singleton twoChains) = .ok .empty := by
  have hacyclic : twoChains.substitution.Acyclic := by decide +kernel
  have htop : twoChains.memory.top? "l" = .ok (some (.ref ⟨"a", false⟩)) := by cbv
  have hpopped : twoChains.substitution.resolveCell (.ref ⟨"a", false⟩) = .ok (.ref ⟨"b", true⟩) := by
    cbv
  have hy : (Term.var ⟨"y", false⟩).evaluateUnder twoChains.substitution = .ok (.ref ⟨"x", true⟩) := by
    cbv
  have hb : (Term.var ⟨"b", false⟩).evaluateUnder twoChains.substitution = .ok (.ref ⟨"b", false⟩) := by
    cbv
  obtain ⟨u, hu, hmeets, _⟩ := step_pop_meets {} hacyclic htop hy
  obtain ⟨u', hu', _, hfails⟩ := step_pop_meets {} hacyclic htop hb
  obtain rfl := Except.ok.inj (hu.symm.trans hpopped)
  obtain rfl := Except.ok.inj (hu'.symm.trans hpopped)
  refine ⟨hmeets ⟨?_, ?_⟩, hfails ?_⟩
  · cbv
  · decide
  · exact fun h => absurd h.2 (by decide)

end Machine

end Steps

end StackCalculus
