import Mathlib
import StackCalculus.State
import StackCalculus.Proofs.Chain

/-!
# Single steps

What a push and a pop can do to a state, case by case: `State.push_cases` and `State.pop_cases`.
Properties that steps keep are derived from these lists. A pop never meets a variable that is bound
already, and never closes a cycle: the variable that a term stands for is the end of a chain, and so
is what it is bound to.
-/

namespace StackCalculus

variable {V : Type}

/-! ## Faults of terms -/

/-- What can be wrong with a term: a node with a wrong number of arguments, an argument that stays a
variable, or a variable on a chain without an end. -/
inductive Term.EvaluationFault (s : Substitution V) : Fault → Prop where
  | arity (term : String) (expected actual : Nat) :
      EvaluationFault s (.arityMismatch term expected actual)
  | nonConstant (term name : String) : EvaluationFault s (.nonConstantTerm term name)
  | chain {x : Var} {e : Fault} (h : s.resolve x = .error e) : EvaluationFault s e

theorem Term.evaluationFault_of_evaluateArgs {s : Substitution V} {node : Term V}
    {args : List (Term V)} {e : Fault}
    (hargs : ∀ t ∈ args, ∀ e, t.evaluateUnder s = .error e → EvaluationFault s e)
    (h : evaluateArgs s node args = .error e) : EvaluationFault s e := by
  induction args with
  | nil => cases h
  | cons t ts ih =>
    obtain ⟨hhead, htail⟩ := List.forall_mem_cons.mp hargs
    rw [evaluateArgs] at h
    cases ht : t.evaluateUnder s with
    | error e' =>
      rw [ht] at h
      cases h
      exact hhead _ ht
    | ok c =>
      rw [ht] at h
      cases c with
      | ref y =>
        cases h
        exact .nonConstant _ _
      | value v =>
        cases hts : evaluateArgs s node ts with
        | error e' =>
          simp only [hts] at h
          cases h
          exact ih htail hts
        | ok values =>
          simp only [hts] at h
          cases h

theorem Term.evaluationFault_of_evaluateUnder {s : Substitution V} {t : Term V} {e : Fault}
    (h : t.evaluateUnder s = .error e) : EvaluationFault s e := by
  induction t using Term.ind generalizing e with
  | var x =>
    rw [evaluateUnder] at h
    exact .chain h
  | func label arity args rule ih =>
    rw [evaluateUnder] at h
    split at h
    · cases hargs : evaluateArgs s (.func label arity args rule) args with
      | error e' =>
        rw [hargs] at h
        cases h
        exact evaluationFault_of_evaluateArgs (fun t ht e => ih t ht) hargs
      | ok values =>
        rw [hargs] at h
        cases h
    · cases h
      exact .arity _ _ _

/-! ## Faults of limits -/

/-- The faults that say that a count or a number of rounds is too large. -/
def Fault.isLimit : Fault → Bool
  | multiplicityOverflow => true
  | divergence _ => true
  | _ => false

theorem Fault.isLimit_of_isBranchFailure {e : Fault} (h : e.isBranchFailure = true) :
    e.isLimit = false := by
  cases e with
  | stackUnderflow location => rfl
  | mismatch popped expected => rfl
  | _ => cases h

theorem Substitution.isLimit_of_resolve {s : Substitution V} {x : Var} {e : Fault}
    (h : s.resolve x = .error e) : e.isLimit = false := by
  obtain ⟨target, rfl⟩ := s.eq_cyclicBinding_of_resolve h
  rfl

theorem Term.isLimit_of_evaluateUnder {s : Substitution V} {t : Term V} {e : Fault}
    (h : t.evaluateUnder s = .error e) : e.isLimit = false := by
  cases evaluationFault_of_evaluateUnder h with
  | arity term expected actual => rfl
  | nonConstant term name => rfl
  | chain h => exact s.isLimit_of_resolve h

/-! ## Matching -/

/-- The outcomes of matching: a value is met, a variable takes the popped cell as its binding, or the
branch fails. -/
inductive Substitution.MatchOutcome (s : Substitution V) :
    (expected popped : Cell V) → Except Fault (Substitution V) → Prop where
  | value {v : V} : MatchOutcome s (.value v) (.value v) (.ok s)
  | bound {x : Var} {c : Cell V} (hx : s.get? x = none) (hcx : c.refersTo x = false) :
      MatchOutcome s (.ref x) c (.ok (s.set x c))
  | failed {expected popped : Cell V} {e : Fault} (h : e.isBranchFailure = true) :
      MatchOutcome s expected popped (.error e)

/-- An unbound variable takes an end of a chain as its binding, unless the end is the variable. -/
theorem Substitution.matchCell_ref [DecidableEq V] [ToString V] {s : Substitution V} {x : Var}
    {popped : Cell V} (hx : s.get? x = none) (hpopped : s.CellEnds popped popped) :
    s.matchCell (.ref x) popped =
      if popped.refersTo x then .error (.mismatch (toString popped) (toString x))
      else .ok (s.set x popped) := by
  have hself : (popped == .ref x) = popped.refersTo x := by cases popped <;> rfl
  show (if popped == .ref x then _ else s.bind x popped) = _
  rw [hself]
  split
  · rfl
  · rename_i hcx
    exact bind_eq_ok hx hpopped (Bool.eq_false_iff.mpr hcx)

/-- Matching two ends of chains succeeds or ends the branch: the variable is unbound, and its new
binding does not lead back to it. -/
theorem Substitution.matchCell_cases [DecidableEq V] [ToString V] {s : Substitution V}
    {expected popped : Cell V} (hexpected : s.CellEnds expected expected)
    (hpopped : s.CellEnds popped popped) :
    MatchOutcome s expected popped (s.matchCell expected popped) := by
  cases expected with
  | value v =>
    show MatchOutcome s (.value v) popped (if _ then _ else _)
    split
    · rename_i hmet
      cases popped with
      | value w =>
        obtain rfl : w = v := beq_iff_eq.mp hmet
        exact .value
      | ref y => cases hmet
    · exact .failed rfl
  | ref x =>
    have hx : s.get? x = none := Ends.get?_eq_none hexpected
    rw [matchCell_ref hx hpopped]
    split
    · exact .failed rfl
    · rename_i hcx
      exact .bound hx (Bool.eq_false_iff.mpr hcx)

namespace State

/-! ## Pushes -/

/-- The outcomes of a push: the cell of the term on top of a stack, or a fault of the term or of the
location. -/
inductive PushOutcome (s : State V) (t : Term V) (location : String) :
    Except Fault (State V) → Prop where
  | pushed {c : Cell V} {stack : Stack V} (hterm : t.evaluateUnder s.substitution = .ok c)
      (hstack : s.memory.table.get? location = some stack) :
      PushOutcome s t location
        (.ok ⟨⟨s.memory.table.insert location (stack.push c)⟩, s.substitution⟩)
  | term {e : Fault} (h : t.evaluateUnder s.substitution = .error e) :
      PushOutcome s t location (.error e)
  | unknown (h : s.memory.table.get? location = none) :
      PushOutcome s t location (.error (.unknownLocation location))

theorem push_of_get? {s : State V} {t : Term V} {location : String} {c : Cell V} {stack : Stack V}
    (hterm : t.evaluateUnder s.substitution = .ok c)
    (hstack : s.memory.table.get? location = some stack) :
    s.push t location =
      .ok ⟨⟨s.memory.table.insert location (stack.push c)⟩, s.substitution⟩ := by
  unfold State.push Memory.push Memory.stackAt
  rw [hterm, hstack]
  rfl

theorem push_cases (s : State V) (t : Term V) (location : String) :
    PushOutcome s t location (s.push t location) := by
  unfold State.push Memory.push Memory.stackAt
  cases hterm : t.evaluateUnder s.substitution with
  | error e => exact .term hterm
  | ok c =>
    cases hstack : s.memory.table.get? location with
    | none => exact .unknown hstack
    | some stack => exact .pushed hterm hstack

theorem isLimit_of_push {s : State V} {t : Term V} {location : String} {e : Fault}
    (h : s.push t location = .error e) : e.isLimit = false := by
  have hpush := s.push_cases t location
  rw [h] at hpush
  cases hpush with
  | term hterm => exact Term.isLimit_of_evaluateUnder hterm
  | unknown => rfl

/-! ## Pops -/

variable [DecidableEq V] [ToString V]

/-- The outcomes of a pop. The popped cell stands for the value of the term, or becomes the binding of
the variable that the term stands for; or the branch fails; or the location, the chain of the popped
cell or the term is at fault. -/
inductive PopOutcome (s : State V) (t : Term V) (location : String) :
    Except Fault (State V) → Prop where
  | matched {top : Cell V} {rest : Stack V} {v : V}
      (hstack : s.memory.table.get? location = some (rest.push top))
      (htop : s.substitution.CellEnds top (.value v))
      (hterm : t.evaluateUnder s.substitution = .ok (.value v)) :
      PopOutcome s t location (.ok ⟨⟨s.memory.table.insert location rest⟩, s.substitution⟩)
  | bound {top c : Cell V} {rest : Stack V} {x : Var}
      (hstack : s.memory.table.get? location = some (rest.push top))
      (htop : s.substitution.CellEnds top c)
      (hterm : t.evaluateUnder s.substitution = .ok (.ref x))
      (hx : s.substitution.get? x = none) (hcx : c.refersTo x = false) :
      PopOutcome s t location (.ok ⟨⟨s.memory.table.insert location rest⟩, s.substitution.set x c⟩)
  | failed {e : Fault} (h : e.isBranchFailure = true) : PopOutcome s t location (.error e)
  | unknown (h : s.memory.table.get? location = none) :
      PopOutcome s t location (.error (.unknownLocation location))
  | chain {x : Var} {e : Fault} (h : s.substitution.resolve x = .error e) :
      PopOutcome s t location (.error e)
  | term {e : Fault} (h : t.evaluateUnder s.substitution = .error e) :
      PopOutcome s t location (.error e)

theorem pop_of_get? {s : State V} {location : String} {top : Cell V} {rest : Stack V}
    (hstack : s.memory.table.get? location = some (rest.push top)) (t : Term V) :
    s.pop t location = do
      let popped ← s.substitution.resolveCell top
      let expected ← t.evaluateUnder s.substitution
      let substitution ← s.substitution.matchCell expected popped
      return ⟨⟨s.memory.table.insert location rest⟩, substitution⟩ := by
  unfold State.pop Memory.pop Memory.stackAt
  rw [hstack]
  rfl

theorem pop_of_get?_eq_none {s : State V} {location : String}
    (hstack : s.memory.table.get? location = none) (t : Term V) :
    s.pop t location = .error (.unknownLocation location) := by
  unfold State.pop Memory.pop Memory.stackAt
  rw [hstack]
  rfl

theorem pop_of_get?_of_pop?_eq_none {s : State V} {location : String} {stack : Stack V}
    (hstack : s.memory.table.get? location = some stack) (hpop : stack.pop? = none) (t : Term V) :
    s.pop t location = .error (.stackUnderflow location) := by
  obtain ⟨cells, size, hsize⟩ := stack
  cases cells with
  | nil =>
    unfold State.pop Memory.pop Memory.stackAt
    rw [hstack]
    rfl
  | cons top below => cases hpop

theorem pop_cases (s : State V) (t : Term V) (location : String) :
    PopOutcome s t location (s.pop t location) := by
  cases hget : s.memory.table.get? location with
  | none =>
    rw [pop_of_get?_eq_none hget]
    exact .unknown hget
  | some stack =>
    cases hpop : stack.pop? with
    | none =>
      rw [pop_of_get?_of_pop?_eq_none hget hpop]
      exact .failed rfl
    | some popped =>
      obtain ⟨top, rest⟩ := popped
      rw [Stack.eq_push_of_pop? hpop] at hget
      rw [pop_of_get? hget]
      cases htop : s.substitution.resolveCell top with
      | error e =>
        cases top with
        | value v => cases htop
        | ref x => exact .chain htop
      | ok c =>
        cases hterm : t.evaluateUnder s.substitution with
        | error e => exact .term hterm
        | ok expected =>
          have htop := (s.substitution.resolveCell_eq_ok_iff top c).mp htop
          have hmatch := Substitution.matchCell_cases (Term.cellEnds_of_evaluateUnder hterm) htop.self
          show PopOutcome s t location (s.substitution.matchCell expected c >>= _)
          generalize s.substitution.matchCell expected c = result at hmatch
          cases hmatch with
          | value => exact .matched hget htop hterm
          | bound hx hcx => exact .bound hget htop hterm hx hcx
          | failed h => exact .failed h

theorem isLimit_of_pop {s : State V} {t : Term V} {location : String} {e : Fault}
    (h : s.pop t location = .error e) : e.isLimit = false := by
  have hpop := s.pop_cases t location
  rw [h] at hpop
  cases hpop with
  | failed he => exact Fault.isLimit_of_isBranchFailure he
  | unknown => rfl
  | chain hx => exact Substitution.isLimit_of_resolve hx
  | term hterm => exact Term.isLimit_of_evaluateUnder hterm

end State

end StackCalculus
