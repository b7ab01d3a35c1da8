import Mathlib
import StackCalculus.Fault

/-!
# Results of computations

`Alike E R` relates two computations that both succeed with results related by `R`, or both end in
faults related by `E`. `gather` runs a computation with a list of outcomes on every item of a list
and joins the outcomes; it succeeds exactly when it does on every item (`gather_eq_ok_iff`), so up to
the fault that is reported neither the order of the items nor the grouping of the outcomes matters.
-/

namespace StackCalculus

variable {α β γ δ : Type}

theorem bind_eq_ok_iff {x : Except Fault α} {f : α → Except Fault β} {b : β} :
    (x >>= f) = .ok b ↔ ∃ a, x = .ok a ∧ f a = .ok b := by
  cases x with
  | error e =>
    constructor
    · intro h
      cases h
    · rintro ⟨a, h, _⟩
      cases h
  | ok a =>
    constructor
    · intro h
      exact ⟨a, rfl, h⟩
    · rintro ⟨a', h, h'⟩
      cases h
      exact h'

theorem bind_pure_eq_ok_iff {x : Except Fault α} {f : α → β} {b : β} :
    (x >>= fun a => pure (f a)) = .ok b ↔ ∃ a, x = .ok a ∧ f a = b := by
  rw [bind_eq_ok_iff]
  exact exists_congr fun a => and_congr_right fun _ => ⟨Except.ok.inj, congrArg Except.ok⟩

theorem exists_ok_of_isOk {x : Except Fault α} (h : x.isOk) : ∃ a, x = .ok a := by
  cases x with
  | ok a => exact ⟨a, rfl⟩
  | error e => cases h

theorem exists_ok_of_any {x : Except Fault α} {q : α → Bool} (h : x.toOption.any q) :
    ∃ a, x = .ok a ∧ q a := by
  cases x with
  | ok a => exact ⟨a, rfl, h⟩
  | error e => cases h

/-- Both computations succeed with related results, or both end in related faults. -/
inductive Alike (E : Fault → Fault → Prop) (R : α → β → Prop) :
    Except Fault α → Except Fault β → Prop where
  | ok {a : α} {b : β} (h : R a b) : Alike E R (.ok a) (.ok b)
  | error {e e' : Fault} (h : E e e') : Alike E R (.error e) (.error e')

/-- Faults are not told apart. -/
def AnyFault (_ _ : Fault) : Prop := True

/-- Both faults end their branch only, or both end the run. -/
def SameFate (e e' : Fault) : Prop := e.isBranchFailure = e'.isBranchFailure

namespace Alike

variable {E E' : Fault → Fault → Prop}

theorem mono {R R' : α → β → Prop} {x : Except Fault α} {y : Except Fault β} (h : Alike E R x y)
    (hE : ∀ e e', E e e' → E' e e') (hR : ∀ a b, R a b → R' a b) : Alike E' R' x y := by
  cases h with
  | ok h => exact .ok (hR _ _ h)
  | error h => exact .error (hE _ _ h)

theorem sameFate {R : α → β → Prop} {x : Except Fault α} {y : Except Fault β} (h : Alike Eq R x y) :
    Alike SameFate R x y :=
  h.mono (fun _ _ he => congrArg Fault.isBranchFailure he) fun _ _ hab => hab

theorem with_ok {R : α → β → Prop} {x : Except Fault α} {y : Except Fault β} (h : Alike E R x y) :
    Alike E (fun a b => R a b ∧ x = .ok a ∧ y = .ok b) x y := by
  cases h with
  | ok h => exact .ok ⟨h, rfl, rfl⟩
  | error h => exact .error h

theorem symm {R : α → β → Prop} {x : Except Fault α} {y : Except Fault β}
    (h : Alike AnyFault R x y) : Alike AnyFault (fun b a => R a b) y x := by
  cases h with
  | ok h => exact .ok h
  | error _ => exact .error trivial

theorem trans {R : α → β → Prop} {R' : β → γ → Prop} {x : Except Fault α} {y : Except Fault β}
    {z : Except Fault γ} (h : Alike AnyFault R x y) (h' : Alike AnyFault R' y z) :
    Alike AnyFault (fun a c => ∃ b, R a b ∧ R' b c) x z := by
  cases h with
  | ok h =>
    cases h' with
    | ok h' => exact .ok ⟨_, h, h'⟩
  | error _ =>
    cases h' with
    | error _ => exact .error trivial

theorem bind {R : α → β → Prop} {Q : γ → δ → Prop} {x : Except Fault α} {y : Except Fault β}
    {f : α → Except Fault γ} {g : β → Except Fault δ} (h : Alike E R x y)
    (hf : ∀ a b, R a b → Alike E Q (f a) (g b)) : Alike E Q (x >>= f) (y >>= g) := by
  cases h with
  | ok h => exact hf _ _ h
  | error h => exact .error h

theorem exists_right {R : α → β → Prop} {a : α} {y : Except Fault β}
    (h : Alike E R (.ok a) y) : ∃ b, y = .ok b ∧ R a b := by
  cases h with
  | ok h => exact ⟨_, rfl, h⟩

/-- Two computations are alike if each succeeds when the other does and their faults agree. -/
theorem of_exists {R : α → β → Prop} {x : Except Fault α} {y : Except Fault β}
    (hok : ∀ a, x = .ok a → ∃ b, y = .ok b ∧ R a b) (hok' : ∀ b, y = .ok b → ∃ a, x = .ok a)
    (herror : ∀ e e', x = .error e → y = .error e' → E e e') : Alike E R x y := by
  cases x with
  | ok a =>
    obtain ⟨b, rfl, hab⟩ := hok a rfl
    exact .ok hab
  | error e =>
    cases y with
    | ok b =>
      obtain ⟨a, ha⟩ := hok' b rfl
      cases ha
    | error e' => exact .error (herror e e' rfl rfl)

end Alike

/-! ## Gathering -/

/-- Runs a computation on every item and joins the lists that come out. -/
def gather (f : α → Except Fault (List β)) : List α → Except Fault (List β)
  | [] => .ok []
  | item :: rest => do
    let outcomes ← f item
    let others ← gather f rest
    return outcomes ++ others

/-- The outcomes of a computation, none if it ends in a fault. -/
def outcomesOf (x : Except Fault (List β)) : List β :=
  match x with
  | .ok outcomes => outcomes
  | .error _ => []

/-- Gathering succeeds exactly when the computation succeeds on every item. -/
theorem gather_eq_ok_iff (f : α → Except Fault (List β)) (items : List α) (all : List β) :
    gather f items = .ok all ↔
      (∀ item ∈ items, ∃ outcomes, f item = .ok outcomes) ∧
        all = items.flatMap fun item => outcomesOf (f item) := by
  induction items generalizing all with
  | nil =>
    constructor
    · intro h
      cases h
      exact ⟨fun _ h => absurd h List.not_mem_nil, rfl⟩
    · rintro ⟨_, rfl⟩
      rfl
  | cons item rest ih =>
    rw [List.forall_mem_cons, List.flatMap_cons]
    cases hitem : f item with
    | error e =>
      have hgather : gather f (item :: rest) = .error e := by
        rw [gather, hitem]
        rfl
      rw [hgather]
      constructor
      · intro h
        cases h
      · rintro ⟨⟨⟨outcomes, h⟩, _⟩, _⟩
        cases h
    | ok outcomes =>
      have hgather : gather f (item :: rest) = (gather f rest).map (outcomes ++ ·) := by
        rw [gather, hitem]
        cases gather f rest <;> rfl
      rw [hgather]
      cases hrest : gather f rest with
      | error e =>
        constructor
        · intro h
          cases h
        · rintro ⟨⟨_, hall⟩, _⟩
          have hok := (ih (rest.flatMap fun item => outcomesOf (f item))).mpr ⟨hall, rfl⟩
          rw [hrest] at hok
          cases hok
      | ok others =>
        obtain ⟨hall, hothers⟩ := (ih others).mp hrest
        constructor
        · intro h
          cases h
          exact ⟨⟨⟨outcomes, rfl⟩, hall⟩, by rw [hothers]; rfl⟩
        · rintro ⟨_, rfl⟩
          rw [hothers]
          rfl

theorem gather_of_forall {f : α → Except Fault (List β)} {items : List α}
    (h : ∀ item ∈ items, ∃ outcomes, f item = .ok outcomes) :
    gather f items = .ok (items.flatMap fun item => outcomesOf (f item)) :=
  (gather_eq_ok_iff f items _).mpr ⟨h, rfl⟩

/-- Two gatherings are alike if they succeed on the same condition and `R` relates what they then
give. -/
theorem gather_alike_of_iff {f : α → Except Fault (List β)} {y : Except Fault γ} {items : List α}
    {R : List β → γ → Prop}
    (hok : (∀ item ∈ items, ∃ outcomes, f item = .ok outcomes) →
      ∃ c, y = .ok c ∧ R (items.flatMap fun item => outcomesOf (f item)) c)
    (hok' : ∀ c, y = .ok c → ∀ item ∈ items, ∃ outcomes, f item = .ok outcomes) :
    Alike AnyFault R (gather f items) y := by
  refine Alike.of_exists (fun all hall => ?_) (fun c hc => ?_) fun _ _ _ _ => trivial
  · obtain ⟨h, rfl⟩ := (gather_eq_ok_iff f items all).mp hall
    exact hok h
  · exact ⟨_, gather_of_forall (hok' c hc)⟩

theorem gather_perm (f : α → Except Fault (List β)) {items items' : List α}
    (h : items.Perm items') :
    Alike AnyFault List.Perm (gather f items) (gather f items') := by
  refine gather_alike_of_iff (fun hall => ?_) fun c hc item hitem => ?_
  · have hall' : ∀ item ∈ items', ∃ outcomes, f item = .ok outcomes :=
      fun item hitem => hall item (h.mem_iff.mpr hitem)
    exact ⟨_, gather_of_forall hall', h.flatMap_right _⟩
  · exact ((gather_eq_ok_iff f items' c).mp hc).1 item (h.mem_iff.mp hitem)

theorem gather_ok (f : α → List β) (items : List α) :
    gather (fun item => .ok (f item)) items = .ok (items.flatMap f) :=
  gather_of_forall fun item _ => ⟨f item, rfl⟩

theorem gather_singleton (f : α → Except Fault (List β)) (item : α) : gather f [item] = f item := by
  rw [gather, gather]
  cases f item with
  | error e => rfl
  | ok outcomes => exact congrArg Except.ok (List.append_nil outcomes)

theorem gather_append (f : α → Except Fault (List β)) (items items' : List α) :
    gather f (items ++ items') = do
      let outcomes ← gather f items
      let others ← gather f items'
      return outcomes ++ others := by
  induction items with
  | nil =>
    show gather f items' = gather f items' >>= fun others => .ok others
    cases gather f items' <;> rfl
  | cons item rest ih =>
    rw [List.cons_append, gather, gather, ih]
    cases f item with
    | error e => rfl
    | ok outcomes =>
      cases gather f rest with
      | error e => rfl
      | ok others =>
        cases gather f items' with
        | error e => rfl
        | ok others' => exact congrArg Except.ok (List.append_assoc outcomes others others').symm

theorem gather_append_eq_ok_iff (f : α → Except Fault (List β)) (items items' : List α)
    (all : List β) :
    gather f (items ++ items') = .ok all ↔
      ∃ outcomes others, gather f items = .ok outcomes ∧ gather f items' = .ok others ∧
        all = outcomes ++ others := by
  rw [gather_append]
  simp only [bind_eq_ok_iff]
  constructor
  · rintro ⟨outcomes, houtcomes, others, hothers, hall⟩
    cases hall
    exact ⟨outcomes, others, houtcomes, hothers, rfl⟩
  · rintro ⟨outcomes, others, houtcomes, hothers, rfl⟩
    exact ⟨outcomes, houtcomes, others, hothers, rfl⟩

/-- Gathering in two stages, item by item or stage by stage. -/
theorem gather_bind (f : α → Except Fault (List β)) (g : β → Except Fault (List γ))
    (items : List α) :
    Alike AnyFault Eq (gather (fun item => f item >>= gather g) items)
      (gather f items >>= gather g) := by
  refine gather_alike_of_iff (fun hall => ?_) fun all hall item hitem => ?_
  · have hfirst : ∀ item ∈ items, ∃ middle, f item = .ok middle := by
      intro item hitem
      obtain ⟨outcomes, houtcomes⟩ := hall item hitem
      obtain ⟨middle, hmiddle, _⟩ := bind_eq_ok_iff.mp houtcomes
      exact ⟨middle, hmiddle⟩
    have hsecond : ∀ b ∈ items.flatMap (fun item => outcomesOf (f item)),
        ∃ outcomes, g b = .ok outcomes := by
      intro b hb
      obtain ⟨item, hitem, hb⟩ := List.mem_flatMap.mp hb
      obtain ⟨outcomes, houtcomes⟩ := hall item hitem
      obtain ⟨middle, hmiddle, hg⟩ := bind_eq_ok_iff.mp houtcomes
      rw [hmiddle] at hb
      exact ((gather_eq_ok_iff g middle outcomes).mp hg).1 b hb
    refine ⟨_, ?_, rfl⟩
    rw [gather_of_forall hfirst]
    show gather g _ = _
    rw [gather_of_forall hsecond, List.flatMap_assoc]
    congr 1
    refine List.flatMap_congr fun item hitem => ?_
    obtain ⟨outcomes, houtcomes⟩ := hall item hitem
    obtain ⟨middle, hmiddle, hg⟩ := bind_eq_ok_iff.mp houtcomes
    rw [houtcomes, hmiddle]
    exact ((gather_eq_ok_iff g middle outcomes).mp hg).2.symm
  · obtain ⟨middles, hfirst, hrest⟩ := bind_eq_ok_iff.mp hall
    obtain ⟨hitems, rfl⟩ := (gather_eq_ok_iff f items middles).mp hfirst
    obtain ⟨hmiddles, _⟩ := (gather_eq_ok_iff g _ all).mp hrest
    obtain ⟨middle, hmiddle⟩ := hitems item hitem
    have hg : ∀ b ∈ middle, ∃ outcomes, g b = .ok outcomes := by
      intro b hb
      refine hmiddles b (List.mem_flatMap.mpr ⟨item, hitem, ?_⟩)
      rw [hmiddle]
      exact hb
    exact ⟨_, bind_eq_ok_iff.mpr ⟨middle, hmiddle, gather_of_forall hg⟩⟩

/-- Gathering two computations at once, or the one and then the other. -/
theorem gather_both (f g : α → Except Fault (List β)) (items : List α) :
    Alike AnyFault List.Perm
      (gather (fun item => do
        let left ← f item
        let right ← g item
        return left ++ right) items)
      (do
        let left ← gather f items
        let right ← gather g items
        return left ++ right) := by
  refine gather_alike_of_iff (fun hall => ?_) fun all hall item hitem => ?_
  · have hboth : ∀ item ∈ items, ∃ left right, f item = .ok left ∧ g item = .ok right := by
      intro item hitem
      obtain ⟨outcomes, houtcomes⟩ := hall item hitem
      obtain ⟨left, hleft, houtcomes⟩ := bind_eq_ok_iff.mp houtcomes
      obtain ⟨right, hright, _⟩ := bind_eq_ok_iff.mp houtcomes
      exact ⟨left, right, hleft, hright⟩
    have hf : ∀ item ∈ items, ∃ left, f item = .ok left := by
      intro item hitem
      obtain ⟨left, _, hleft, _⟩ := hboth item hitem
      exact ⟨left, hleft⟩
    have hg : ∀ item ∈ items, ∃ right, g item = .ok right := by
      intro item hitem
      obtain ⟨_, right, _, hright⟩ := hboth item hitem
      exact ⟨right, hright⟩
    rw [gather_of_forall hf, gather_of_forall hg]
    refine ⟨_, rfl, .trans (.of_eq ?_) (List.flatMap_append_perm items _ _).symm⟩
    refine List.flatMap_congr fun item hitem => ?_
    obtain ⟨left, right, hleft, hright⟩ := hboth item hitem
    rw [hleft, hright]
    rfl
  · obtain ⟨lefts, hlefts, hall⟩ := bind_eq_ok_iff.mp hall
    obtain ⟨rights, hrights, _⟩ := bind_eq_ok_iff.mp hall
    obtain ⟨left, hleft⟩ := ((gather_eq_ok_iff f items lefts).mp hlefts).1 item hitem
    obtain ⟨right, hright⟩ := ((gather_eq_ok_iff g items rights).mp hrights).1 item hitem
    rw [hleft, hright]
    exact ⟨left ++ right, rfl⟩

/-- Related items with alike outcomes gather alike, outcome by outcome. -/
theorem gather_forall₂ {E : Fault → Fault → Prop} {R : α → γ → Prop} {Q : β → δ → Prop}
    {f : α → Except Fault (List β)} {g : γ → Except Fault (List δ)} {items : List α}
    {items' : List γ} (h : List.Forall₂ R items items')
    (hf : ∀ a c, R a c → Alike E (List.Forall₂ Q) (f a) (g c)) :
    Alike E (List.Forall₂ Q) (gather f items) (gather g items') := by
  induction h with
  | nil => exact .ok .nil
  | cons hhead _ ih =>
    refine (hf _ _ hhead).bind fun outcomes outcomes' houtcomes => ?_
    exact ih.bind fun others others' hothers => .ok (List.rel_append houtcomes hothers)

end StackCalculus
