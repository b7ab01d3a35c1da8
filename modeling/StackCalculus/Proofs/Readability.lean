import Mathlib
import StackCalculus.Program.Render
import StackCalculus.Proofs.Scope.Capture

/-!
# Unique readability

The one-line text of a program can be read in one way only. Words are what stands between separators;
names of variables, labels and locations have to be words, and the words for variables have to be told
apart from those for constants by a fixed set of names. Then texts are equal exactly when the programs
are (`Program.render_eq_iff`).

A sequence, a branch and an iteration open with the same bracket and differ only behind their first
part, and nothing closes the location of a push. So the induction is about a text with a rest behind
it: two texts with rests that cannot be taken for a continuation (`Bounds`) determine both the program
and the rest (`Program.Worded.readable`).
-/

namespace StackCalculus

variable {V : Type}

/-! ## Words -/

/-- The characters that separate words: the blank, brackets, marks and glyphs. -/
def isSeparator (c : Char) : Bool :=
  [' ', '(', ')', '[', ']', '<', '>', ';', ',', '.', '+', '*', '∃', '★', '𝟎'].contains c

/-- A text that is not empty and has no separators. -/
def IsWord (s : String) : Prop := s ≠ "" ∧ ∀ c ∈ s.toList, isSeparator c = false

/-- Texts that cannot continue a word or a label: what they start with separates, and opens no
arguments. -/
def Bounds (r : List Char) : Prop := ∀ c ∈ r.head?, isSeparator c ∧ c ≠ '('

theorem bounds_nil : Bounds [] := fun _ h => by cases h

theorem bounds_cons {c : Char} (hc : isSeparator c) (hne : c ≠ '(') (r : List Char) :
    Bounds (c :: r) := by
  intro d hd
  obtain rfl := Option.some.inj hd
  exact ⟨hc, hne⟩

theorem Bounds.ne_open {r rest : List Char} (h : Bounds r) : r ≠ '(' :: rest := by
  rintro rfl
  exact (h '(' rfl).2 rfl

/-- A word ends where the first separator stands. -/
theorem word_append_inj {w w' r r' : List Char} (hw : ∀ c ∈ w, isSeparator c = false)
    (hw' : ∀ c ∈ w', isSeparator c = false) (hr : ∀ c ∈ r.head?, isSeparator c)
    (hr' : ∀ c ∈ r'.head?, isSeparator c) (h : w ++ r = w' ++ r') : w = w' ∧ r = r' := by
  induction w generalizing w' with
  | nil =>
    cases w' with
    | nil => exact ⟨rfl, h⟩
    | cons c' w' =>
      have hsep := hr c' (by rw [show r = c' :: (w' ++ r') from h]; rfl)
      rw [hw' c' List.mem_cons_self] at hsep
      cases hsep
  | cons c w ih =>
    cases w' with
    | nil =>
      have hsep := hr' c (by rw [show r' = c :: (w ++ r) from h.symm]; rfl)
      rw [hw c List.mem_cons_self] at hsep
      cases hsep
    | cons c' w' =>
      obtain ⟨rfl, htail⟩ := List.cons.inj h
      obtain ⟨rfl, rfl⟩ := ih (fun d hd => hw d (List.mem_cons_of_mem _ hd))
        (fun d hd => hw' d (List.mem_cons_of_mem _ hd)) htail
      exact ⟨rfl, rfl⟩

theorem IsWord.append_inj {s s' : String} (hs : IsWord s) (hs' : IsWord s') {r r' : List Char}
    (hr : ∀ c ∈ r.head?, isSeparator c) (hr' : ∀ c ∈ r'.head?, isSeparator c)
    (h : s.toList ++ r = s'.toList ++ r') : s = s' ∧ r = r' := by
  obtain ⟨hlist, hrest⟩ := word_append_inj hs.2 hs'.2 hr hr' h
  exact ⟨String.toList_inj.mp hlist, hrest⟩

/-! ## Terms -/

/-- Terms in words: variables have names in `N`, labels of nodes without arguments are other words, and
every node has as many arguments as its arity says. -/
inductive Term.Worded (N : Set String) : Term V → Prop where
  | var {x : Var} (hname : x.name ∈ N) : Worded N (.var x)
  | constant {label : String} {rule : List V → V} (hlabel : IsWord label) (hout : label ∉ N) :
      Worded N (.func label 0 [] rule)
  | node {label : String} {arity : Nat} {t : Term V} {ts : List (Term V)} {rule : List V → V}
      (hlabel : IsWord label) (harity : (t :: ts).length = arity)
      (hargs : ∀ u ∈ t :: ts, Worded N u) : Worded N (.func label arity (t :: ts) rule)

namespace Term

/-- The word that the text of a term starts with. -/
def headWord : Term V → String
  | var x => x.name
  | func label _ _ _ => label

/-- What stands behind the first word: nothing, or the arguments in brackets. -/
def tailText : Term V → List Char
  | func _ _ (t :: ts) _ => '(' :: (t.render.toList ++ ((renderRest ts).toList ++ [')']))
  | _ => []

theorem toList_render (t : Term V) : t.render.toList = t.headWord.toList ++ t.tailText := by
  cases t with
  | var x => simp [render, headWord, tailText]
  | func label arity args rule => cases args <;> simp [render, headWord, tailText]

theorem bounds_renderRest (ts : List (Term V)) (r : List Char) :
    Bounds ((renderRest ts).toList ++ ')' :: r) := by
  cases ts with
  | nil => exact bounds_cons rfl (by decide) r
  | cons t ts =>
    rw [renderRest, String.toList_append, String.toList_append]
    exact bounds_cons rfl (by decide) _

variable {N : Set String}

/-- The text of `t` with a rest behind it is that of no other term, and of no other rest. -/
def Readable (N : Set String) (t : Term V) : Prop :=
  ∀ ⦃u : Term V⦄ ⦃r r' : List Char⦄, u.Worded N → Bounds r → Bounds r' →
    t.render.toList ++ r = u.render.toList ++ r' → t == u ∧ r = r'

/-- The arguments behind the first one are read one after the other, up to the closing bracket. -/
theorem readable_rest {ts us : List (Term V)} (hts : ∀ t ∈ ts, Readable N t)
    (hus : ∀ u ∈ us, u.Worded N) {r r' : List Char}
    (h : (renderRest ts).toList ++ ')' :: r = (renderRest us).toList ++ ')' :: r') :
    List.Forall₂ (fun t u => t == u) ts us ∧ r = r' := by
  induction ts generalizing us with
  | nil =>
    cases us with
    | nil => exact ⟨.nil, (List.cons.inj h).2⟩
    | cons u us => simp [renderRest] at h
  | cons t ts ih =>
    cases us with
    | nil => simp [renderRest] at h
    | cons u us =>
      obtain ⟨ht, hts⟩ := List.forall_mem_cons.mp hts
      obtain ⟨hu, hus⟩ := List.forall_mem_cons.mp hus
      have hargs : t.render.toList ++ ((renderRest ts).toList ++ ')' :: r) =
          u.render.toList ++ ((renderRest us).toList ++ ')' :: r') := by
        simpa [renderRest] using h
      obtain ⟨hhead, hrest⟩ := ht hu (bounds_renderRest ts r) (bounds_renderRest us r') hargs
      obtain ⟨htail, hr⟩ := ih hts hus hrest
      exact ⟨.cons hhead htail, hr⟩

theorem Worded.isWord_headWord (hN : ∀ name ∈ N, IsWord name) {t : Term V} (ht : t.Worded N) :
    IsWord t.headWord := by
  cases ht with
  | var hname => exact hN _ hname
  | constant hlabel _ => exact hlabel
  | node hlabel _ _ => exact hlabel

theorem isSeparator_of_tailText {t : Term V} {r : List Char} (hr : Bounds r) :
    ∀ c ∈ (t.tailText ++ r).head?, isSeparator c := by
  cases t with
  | var x => exact fun c hc => (hr c hc).1
  | func label arity args rule =>
    cases args with
    | nil => exact fun c hc => (hr c hc).1
    | cons t ts =>
      intro c hc
      obtain rfl := Option.some.inj hc
      rfl

theorem Worded.readable (hN : ∀ name ∈ N, IsWord name) {t : Term V} (ht : t.Worded N) :
    Readable N t := by
  have hsplit : ∀ {t u : Term V} {r r' : List Char}, t.Worded N → u.Worded N → Bounds r → Bounds r' →
      t.render.toList ++ r = u.render.toList ++ r' →
        t.headWord = u.headWord ∧ t.tailText ++ r = u.tailText ++ r' := by
    intro t u r r' ht hu hr hr' h
    rw [toList_render, toList_render, List.append_assoc, List.append_assoc] at h
    exact (ht.isWord_headWord hN).append_inj (hu.isWord_headWord hN) (isSeparator_of_tailText hr)
      (isSeparator_of_tailText hr') h
  induction ht with
  | @var x hx =>
    intro u r r' hu hr hr' h
    obtain ⟨hword, htail⟩ := hsplit (.var hx) hu hr hr' h
    cases hu with
    | var hy => exact ⟨Var.beq_iff.mpr hword, htail⟩
    | @constant label rule _ hout =>
      obtain rfl : x.name = label := hword
      exact absurd hx hout
    | node => exact absurd htail hr.ne_open
  | @constant label rule hlabel hout =>
    intro u r r' hu hr hr' h
    obtain ⟨hword, htail⟩ := hsplit (.constant hlabel hout) hu hr hr' h
    cases hu with
    | @var y hy =>
      obtain rfl : label = y.name := hword
      exact absurd hy hout
    | constant =>
      obtain rfl := hword
      exact ⟨func_beq_func _ _ .nil, htail⟩
    | node => exact absurd htail hr.ne_open
  | @node label arity t ts rule hlabel harity hargs ih =>
    intro u r r' hu hr hr' h
    obtain ⟨hword, htail⟩ := hsplit (.node hlabel harity hargs) hu hr hr' h
    cases hu with
    | var => exact absurd htail.symm hr'.ne_open
    | constant => exact absurd htail.symm hr'.ne_open
    | @node label' arity' u us rule' _ harity' hargs' =>
      obtain rfl := hword
      have hargs : t.render.toList ++ ((renderRest ts).toList ++ ')' :: r) =
          u.render.toList ++ ((renderRest us).toList ++ ')' :: r') := by
        simpa [tailText] using htail
      obtain ⟨iht, ihts⟩ := List.forall_mem_cons.mp ih
      obtain ⟨hu, hus⟩ := List.forall_mem_cons.mp hargs'
      obtain ⟨hfirst, hrest⟩ := iht hu (bounds_renderRest ts r) (bounds_renderRest us r') hargs
      obtain ⟨hothers, hr⟩ := readable_rest ihts hus hrest
      have hall : List.Forall₂ (fun t u => t == u) (t :: ts) (u :: us) := .cons hfirst hothers
      obtain rfl : arity = arity' := by rw [← harity, ← harity', hall.length_eq]
      exact ⟨func_beq_func rule rule' hall, hr⟩

/-- Equal terms have the same text. -/
theorem render_eq_of_beq {t u : Term V} (h : t == u) : t.render = u.render := by
  have hrest : ∀ {ts us : List (Term V)}, List.Forall₂ (fun t u => t.render = u.render) ts us →
      renderRest ts = renderRest us := by
    intro ts us hall
    induction hall with
    | nil => rfl
    | cons hhead _ ih => rw [renderRest, renderRest, hhead, ih]
  induction t using Term.ind generalizing u with
  | var x =>
    cases u with
    | var y => exact Var.beq_iff.mp h
    | func => cases h
  | func label arity args rule ih =>
    cases u with
    | var y => cases h
    | func label' arity' args' rule' =>
      obtain ⟨hhead, hargs⟩ := Bool.and_eq_true_iff.mp h
      obtain rfl : label = label' := beq_iff_eq.mp (Bool.and_eq_true_iff.mp hhead).1
      have htexts : List.Forall₂ (fun t u => t.render = u.render) args args' :=
        forall₂_imp_of_mem (fun t ht u _ => ih t ht) (sameAll_iff.mp hargs)
      cases htexts with
      | nil => rfl
      | cons hfirst hothers => rw [render, render, hfirst, hrest hothers]

end Term

/-! ## Programs -/

/-- Programs in words: their terms are, locations are words, and the variables of scopes have names in
`N`. -/
inductive Program.Worded (N : Set String) : Program V → Prop where
  | skip : Worded N .skip
  | fail : Worded N .fail
  | seq {p q : Program V} (hp : Worded N p) (hq : Worded N q) : Worded N (.seq p q)
  | branch {p q : Program V} (hp : Worded N p) (hq : Worded N q) : Worded N (.branch p q)
  | iterate {p : Program V} (hp : Worded N p) : Worded N (.iterate p)
  | push {t : Term V} {location : String} (ht : t.Worded N) (hlocation : IsWord location) :
      Worded N (.push t location)
  | pop {t : Term V} {location : String} (ht : t.Worded N) (hlocation : IsWord location) :
      Worded N (.pop t location)
  | scope {x : Var} {p : Program V} (hx : x.name ∈ N) (hp : Worded N p) : Worded N (.scope x p)

namespace Program

variable {N : Set String}

/-! The text of each form with a rest behind it. -/

section Text

variable (p q : Program V) (t : Term V) (location : String) (x : Var) (r : List Char)

theorem toList_render_skip : (render (.skip : Program V)).toList ++ r = '★' :: r := by
  rw [render, show "★".toList = ['★'] from rfl, List.singleton_append]

theorem toList_render_fail : (render (.fail : Program V)).toList ++ r = '𝟎' :: r := by
  rw [render, show "𝟎".toList = ['𝟎'] from rfl, List.singleton_append]

theorem toList_render_seq : (render (.seq p q)).toList ++ r =
    '(' :: (p.render.toList ++ ';' :: (q.render.toList ++ ')' :: r)) := by
  simp [render]

theorem toList_render_branch : (render (.branch p q)).toList ++ r =
    '(' :: (p.render.toList ++ ' ' :: '+' :: ' ' :: (q.render.toList ++ ')' :: r)) := by
  simp [render]

theorem toList_render_iterate : (render (.iterate p)).toList ++ r =
    '(' :: (p.render.toList ++ ')' :: '*' :: r) := by
  simp [render]

theorem toList_render_push : (render (.push t location)).toList ++ r =
    '[' :: (t.render.toList ++ ']' :: (location.toList ++ r)) := by
  simp [render]

theorem toList_render_pop : (render (.pop t location)).toList ++ r =
    location.toList ++ '<' :: (t.render.toList ++ '>' :: r) := by
  simp [render]

theorem toList_render_scope : (render (.scope x p)).toList ++ r =
    '∃' :: (x.name.toList ++ '.' :: '(' :: (p.render.toList ++ ')' :: r)) := by
  simp [render]

end Text

/-- The separator that the text of a program starts with. A pop starts with its location. -/
def opening : Program V → Option Char
  | skip => some '★'
  | fail => some '𝟎'
  | seq .. | branch .. | iterate .. => some '('
  | push .. => some '['
  | pop .. => none
  | scope .. => some '∃'

theorem Worded.opening_eq {p : Program V} (hp : p.Worded N) (r : List Char) :
    p.opening = (p.render.toList ++ r).head?.filter isSeparator := by
  cases hp with
  | skip => rw [toList_render_skip]; rfl
  | fail => rw [toList_render_fail]; rfl
  | seq => rw [toList_render_seq]; rfl
  | branch => rw [toList_render_branch]; rfl
  | iterate => rw [toList_render_iterate]; rfl
  | push => rw [toList_render_push]; rfl
  | scope => rw [toList_render_scope]; rfl
  | @pop t location _ hlocation =>
    obtain ⟨hne, hword⟩ := hlocation
    obtain ⟨c, cs, hcs⟩ := List.exists_cons_of_ne_nil (mt String.toList_eq_nil_iff.mp hne)
    have hc : isSeparator c = false := hword c (hcs ▸ List.mem_cons_self)
    rw [toList_render_pop, hcs, List.cons_append, List.head?_cons, Option.filter_some, hc]
    rfl

theorem Worded.opening_of_text {q : Program V} (hq : q.Worded N) {c : Char} {rest r : List Char}
    (hc : isSeparator c) (h : c :: rest = q.render.toList ++ r) : q.opening = some c := by
  rw [hq.opening_eq r, ← h, List.head?_cons, Option.filter_some, if_pos hc]

/-- A text that opens with a bracket is that of a sequence, a branch or an iteration. -/
theorem Worded.bracket_cases {q : Program V} (hq : q.Worded N) {rest r : List Char}
    (h : '(' :: rest = q.render.toList ++ r) :
    (∃ p' q', q = .seq p' q' ∧ p'.Worded N ∧ q'.Worded N ∧
        rest = p'.render.toList ++ ';' :: (q'.render.toList ++ ')' :: r)) ∨
      (∃ p' q', q = .branch p' q' ∧ p'.Worded N ∧ q'.Worded N ∧
        rest = p'.render.toList ++ ' ' :: '+' :: ' ' :: (q'.render.toList ++ ')' :: r)) ∨
      ∃ p', q = .iterate p' ∧ p'.Worded N ∧ rest = p'.render.toList ++ ')' :: '*' :: r := by
  have hopening := hq.opening_of_text rfl h
  cases hq with
  | seq hp' hq' =>
    rw [toList_render_seq] at h
    exact .inl ⟨_, _, rfl, hp', hq', (List.cons.inj h).2⟩
  | branch hp' hq' =>
    rw [toList_render_branch] at h
    exact .inr (.inl ⟨_, _, rfl, hp', hq', (List.cons.inj h).2⟩)
  | iterate hp' =>
    rw [toList_render_iterate] at h
    exact .inr (.inr ⟨_, rfl, hp', (List.cons.inj h).2⟩)
  | _ => simp [opening] at hopening

/-- The text of `p` with a rest behind it is that of no other program, and of no other rest. -/
def Readable (N : Set String) (p : Program V) : Prop :=
  ∀ ⦃q : Program V⦄ ⦃r r' : List Char⦄, q.Worded N → Bounds r → Bounds r' →
    p.render.toList ++ r = q.render.toList ++ r' → p == q ∧ r = r'

theorem readable_skip : Readable N (.skip : Program V) := by
  intro q r r' hq _ _ h
  rw [toList_render_skip] at h
  have hopening := hq.opening_of_text rfl h
  cases hq with
  | skip =>
    rw [toList_render_skip] at h
    exact ⟨rfl, (List.cons.inj h).2⟩
  | _ => simp [opening] at hopening

theorem readable_fail : Readable N (.fail : Program V) := by
  intro q r r' hq _ _ h
  rw [toList_render_fail] at h
  have hopening := hq.opening_of_text rfl h
  cases hq with
  | fail =>
    rw [toList_render_fail] at h
    exact ⟨rfl, (List.cons.inj h).2⟩
  | _ => simp [opening] at hopening

section Brackets

variable {p q : Program V}

-- The marks behind the first part tell the three bracketed forms apart.
theorem bounds_semicolon (r : List Char) : Bounds (';' :: r) := bounds_cons rfl (by decide) r

theorem bounds_blank (r : List Char) : Bounds (' ' :: r) := bounds_cons rfl (by decide) r

theorem bounds_close (r : List Char) : Bounds (')' :: r) := bounds_cons rfl (by decide) r

theorem Readable.seq (hp : Readable N p) (hq : Readable N q) : Readable N (.seq p q) := by
  intro q' r r' hq' hr hr' h
  rw [toList_render_seq] at h
  obtain ⟨p', q', rfl, hp', hq', htext⟩ | ⟨p', q', rfl, hp', _, htext⟩ | ⟨p', rfl, hp', htext⟩ :=
    hq'.bracket_cases h
  · obtain ⟨hfirst, hrest⟩ := hp hp' (bounds_semicolon _) (bounds_semicolon _) htext
    obtain ⟨hsecond, hrest⟩ := hq hq' (bounds_close _) (bounds_close _) (List.cons.inj hrest).2
    exact ⟨Bool.and_eq_true_iff.mpr ⟨hfirst, hsecond⟩, (List.cons.inj hrest).2⟩
  · have hmark := (hp hp' (bounds_semicolon _) (bounds_blank _) htext).2
    simp at hmark
  · have hmark := (hp hp' (bounds_semicolon _) (bounds_close _) htext).2
    simp at hmark

theorem Readable.branch (hp : Readable N p) (hq : Readable N q) : Readable N (.branch p q) := by
  intro q' r r' hq' hr hr' h
  rw [toList_render_branch] at h
  obtain ⟨p', q', rfl, hp', _, htext⟩ | ⟨p', q', rfl, hp', hq', htext⟩ | ⟨p', rfl, hp', htext⟩ :=
    hq'.bracket_cases h
  · have hmark := (hp hp' (bounds_blank _) (bounds_semicolon _) htext).2
    simp at hmark
  · obtain ⟨hfirst, hrest⟩ := hp hp' (bounds_blank _) (bounds_blank _) htext
    have htext' : q.render.toList ++ ')' :: r = q'.render.toList ++ ')' :: r' := by simpa using hrest
    obtain ⟨hsecond, hrest⟩ := hq hq' (bounds_close _) (bounds_close _) htext'
    exact ⟨Bool.and_eq_true_iff.mpr ⟨hfirst, hsecond⟩, (List.cons.inj hrest).2⟩
  · have hmark := (hp hp' (bounds_blank _) (bounds_close _) htext).2
    simp at hmark

theorem Readable.iterate (hp : Readable N p) : Readable N (.iterate p) := by
  intro q' r r' hq' hr hr' h
  rw [toList_render_iterate] at h
  obtain ⟨p', q', rfl, hp', _, htext⟩ | ⟨p', q', rfl, hp', _, htext⟩ | ⟨p', rfl, hp', htext⟩ :=
    hq'.bracket_cases h
  · have hmark := (hp hp' (bounds_close _) (bounds_semicolon _) htext).2
    simp at hmark
  · have hmark := (hp hp' (bounds_close _) (bounds_blank _) htext).2
    simp at hmark
  · obtain ⟨hbody, hrest⟩ := hp hp' (bounds_close _) (bounds_close _) htext
    exact ⟨hbody, by simpa using hrest⟩

end Brackets

section Accesses

variable {t : Term V} {location : String}

theorem readable_push (hN : ∀ name ∈ N, IsWord name) (ht : t.Worded N) (hlocation : IsWord location) :
    Readable N (.push t location) := by
  intro q r r' hq hr hr' h
  rw [toList_render_push] at h
  have hopening := hq.opening_of_text rfl h
  cases hq with
  | push ht' hlocation' =>
    rw [toList_render_push] at h
    have hbound : ∀ rest : List Char, Bounds (']' :: rest) := bounds_cons rfl (by decide)
    obtain ⟨hterm, hrest⟩ := ht.readable hN ht' (hbound _) (hbound _) (List.cons.inj h).2
    obtain ⟨rfl, hr⟩ := hlocation.append_inj hlocation' (fun c hc => (hr c hc).1)
      (fun c hc => (hr' c hc).1) (List.cons.inj hrest).2
    exact ⟨Bool.and_eq_true_iff.mpr ⟨hterm, BEq.refl location⟩, hr⟩
  | _ => simp [opening] at hopening

theorem readable_pop (hN : ∀ name ∈ N, IsWord name) (ht : t.Worded N) (hlocation : IsWord location) :
    Readable N (.pop t location) := by
  intro q r r' hq hr hr' h
  have hopening : none = q.opening := by
    rw [hq.opening_eq r', ← h]
    exact (Worded.pop ht hlocation).opening_eq r
  cases hq with
  | pop ht' hlocation' =>
    rw [toList_render_pop, toList_render_pop] at h
    have hsep : ∀ rest : List Char, ∀ c ∈ ('<' :: rest).head?, isSeparator c := fun rest c hc =>
      (bounds_cons rfl (by decide) rest c hc).1
    have hbound : ∀ rest : List Char, Bounds ('>' :: rest) := bounds_cons rfl (by decide)
    obtain ⟨rfl, hrest⟩ := hlocation.append_inj hlocation' (hsep _) (hsep _) h
    obtain ⟨hterm, hrest⟩ := ht.readable hN ht' (hbound _) (hbound _) (List.cons.inj hrest).2
    exact ⟨Bool.and_eq_true_iff.mpr ⟨hterm, BEq.refl location⟩, (List.cons.inj hrest).2⟩
  | _ => simp [opening] at hopening

end Accesses

theorem Readable.scope (hN : ∀ name ∈ N, IsWord name) {x : Var} (hx : x.name ∈ N) {p : Program V}
    (hp : Readable N p) : Readable N (.scope x p) := by
  intro q r r' hq hr hr' h
  rw [toList_render_scope] at h
  have hopening := hq.opening_of_text rfl h
  cases hq with
  | scope hx' hp' =>
    rw [toList_render_scope] at h
    have hsep : ∀ rest : List Char, ∀ c ∈ ('.' :: rest).head?, isSeparator c := fun rest c hc =>
      (bounds_cons rfl (by decide) rest c hc).1
    obtain ⟨hname, hrest⟩ := (hN _ hx).append_inj (hN _ hx') (hsep _) (hsep _) (List.cons.inj h).2
    obtain ⟨hbody, hrest⟩ := hp hp' (bounds_close _) (bounds_close _)
      (List.cons.inj (List.cons.inj hrest).2).2
    exact ⟨Bool.and_eq_true_iff.mpr ⟨Var.beq_iff.mpr hname, hbody⟩, (List.cons.inj hrest).2⟩
  | _ => simp [opening] at hopening

theorem Worded.readable (hN : ∀ name ∈ N, IsWord name) {p : Program V} (hp : p.Worded N) :
    Readable N p := by
  induction hp with
  | skip => exact readable_skip
  | fail => exact readable_fail
  | seq _ _ ihp ihq => exact ihp.seq ihq
  | branch _ _ ihp ihq => exact ihp.branch ihq
  | iterate _ ih => exact ih.iterate
  | push ht hlocation => exact readable_push hN ht hlocation
  | pop ht hlocation => exact readable_pop hN ht hlocation
  | scope hx _ ih => exact ih.scope hN hx

/-- Equal programs have the same text. -/
theorem render_eq_of_beq {p q : Program V} (h : p == q) : p.render = q.render := by
  induction p generalizing q with
  | skip =>
    cases q with
    | skip => rfl
    | _ => cases h
  | fail =>
    cases q with
    | fail => rfl
    | _ => cases h
  | seq p p' ihp ihp' =>
    cases q with
    | seq q q' =>
      obtain ⟨hfirst, hsecond⟩ := Bool.and_eq_true_iff.mp h
      rw [render, render, ihp hfirst, ihp' hsecond]
    | _ => cases h
  | branch p p' ihp ihp' =>
    cases q with
    | branch q q' =>
      obtain ⟨hleft, hright⟩ := Bool.and_eq_true_iff.mp h
      rw [render, render, ihp hleft, ihp' hright]
    | _ => cases h
  | iterate p ih =>
    cases q with
    | iterate q => rw [render, render, ih h]
    | _ => cases h
  | push t location =>
    cases q with
    | push u location' =>
      obtain ⟨hterm, hlocation⟩ := Bool.and_eq_true_iff.mp h
      rw [render, render, Term.render_eq_of_beq hterm, beq_iff_eq.mp hlocation]
    | _ => cases h
  | pop t location =>
    cases q with
    | pop u location' =>
      obtain ⟨hterm, hlocation⟩ := Bool.and_eq_true_iff.mp h
      rw [render, render, Term.render_eq_of_beq hterm, beq_iff_eq.mp hlocation]
    | _ => cases h
  | scope x p ih =>
    cases q with
    | scope y q =>
      obtain ⟨hname, hbody⟩ := Bool.and_eq_true_iff.mp h
      rw [render, render, Var.beq_iff.mp hname, ih hbody]
    | _ => cases h

/-- Programs in words have the same text exactly when they are equal: the text determines everything
but the flags of variables and the rules of nodes. -/
theorem render_eq_iff (hN : ∀ name ∈ N, IsWord name) {p q : Program V} (hp : p.Worded N)
    (hq : q.Worded N) : p.render = q.render ↔ p == q := by
  refine ⟨fun h => ?_, render_eq_of_beq⟩
  have htext : p.render.toList ++ [] = q.render.toList ++ [] := by rw [h]
  exact (hp.readable hN hq bounds_nil bounds_nil htext).1

/-- Pushes a function of `x` and a constant, then pops `x`. -/
def pushAndPop (isLocal : Bool) (rule : List String → String) : Program String :=
  .seq (.push (.apply "f" [.var ⟨"x", isLocal⟩, .apply "c" [] rule] rule) "l") (.popVar "x" "m")

/-- Brackets within brackets within a scope. -/
def nested (isLocal : Bool) (rule : List String → String) : Program String :=
  .scope ⟨"x", isLocal⟩ (.iterate (.branch (pushAndPop isLocal rule) .skip))

/-- What the text does not show are the flags and the rules. -/
theorem render_eq_iff_nested :
    (nested true String.join).render = "∃x.(((([f(x, c)]l;m<x>) + ★))*)" ∧
      (nested true String.join == nested false fun _ => "") := by
  let N : Set String := {"x"}
  have hwords : IsWord "x" ∧ IsWord "c" ∧ IsWord "f" ∧ IsWord "l" ∧ IsWord "m" := by
    simp [IsWord, isSeparator]
  obtain ⟨hwx, hwc, hwf, hwl, hwm⟩ := hwords
  have hN : ∀ name ∈ N, IsWord name := by
    rintro name rfl
    exact hwx
  have hworded : ∀ isLocal rule, (nested isLocal rule).Worded N := by
    intro isLocal rule
    have hx : (Term.var ⟨"x", isLocal⟩ : Term String).Worded N := .var rfl
    have hc : (Term.apply "c" [] rule).Worded N := .constant hwc (show "c" ≠ "x" by decide)
    have hf : (Term.apply "f" [.var ⟨"x", isLocal⟩, .apply "c" [] rule] rule).Worded N :=
      .node hwf rfl (List.forall_mem_cons.mpr ⟨hx, List.forall_mem_singleton.mpr hc⟩)
    exact .scope rfl (.iterate (.branch (.seq (.push hf hwl) (.pop (.var rfl) hwm)) .skip))
  have htext : (nested true String.join).render = (nested false fun _ => "").render := rfl
  refine ⟨by decide +kernel, ?_⟩
  exact (render_eq_iff hN (hworded true String.join) (hworded false fun _ => "")).mp htext

end Program

end StackCalculus
