import Mathlib.Data.Bool.Basic
import Mathlib.Tactic.Push

/-! # Propositional formulas whose atoms may fail

An atom is true, false, or fails. Formulas are evaluated from left to right, a
conjunction or disjunction stopping at the first operand that decides it and at
the first failure. What a negation makes of its operand's result is a parameter.
-/

inductive Formula (α : Type*) where
  | atom (a : α)
  | not (t : Formula α)
  | and (t u : Formula α)
  | or (t u : Formula α)
  deriving DecidableEq

namespace Formula

variable {α ε : Type*}

/-- A negation that passes the failure of its operand on. -/
def strict : Except ε Bool → Except ε Bool
  | .ok b => .ok !b
  | .error e => .error e

/-- A negation that is false when its operand fails. -/
def lenient : Except ε Bool → Except ε Bool
  | .ok b => .ok !b
  | .error _ => .ok false

@[simp] def eval (neg : Except ε Bool → Except ε Bool) (v : α → Except ε Bool) :
    Formula α → Except ε Bool
  | atom a => v a
  | not t => neg (eval neg v t)
  | and t u =>
    match eval neg v t with
    | .ok true => eval neg v u
    | r => r
  | or t u =>
    match eval neg v t with
    | .ok false => eval neg v u
    | r => r

@[simp] def map {β : Type*} (f : α → β) : Formula α → Formula β
  | atom a => atom (f a)
  | not t => not (map f t)
  | and t u => and (map f t) (map f u)
  | or t u => or (map f t) (map f u)

/-- The truth value when no atom fails. -/
@[simp] def truth (w : α → Bool) : Formula α → Bool
  | atom a => w a
  | not t => !truth w t
  | and t u => truth w t && truth w u
  | or t u => truth w t || truth w u

/-- The evaluation comes to an atom; the flag tells whether the atom is under a negation. -/
inductive Reaches (neg : Except ε Bool → Except ε Bool) (v : α → Except ε Bool) :
    Formula α → α → Bool → Prop
  | atom (a : α) : Reaches neg v (atom a) a false
  | not {t : Formula α} {a : α} {b : Bool} : Reaches neg v t a b → Reaches neg v (not t) a true
  | andLeft {t u : Formula α} {a : α} {b : Bool} :
      Reaches neg v t a b → Reaches neg v (and t u) a b
  | andRight {t u : Formula α} {a : α} {b : Bool} :
      eval neg v t = .ok true → Reaches neg v u a b → Reaches neg v (and t u) a b
  | orLeft {t u : Formula α} {a : α} {b : Bool} :
      Reaches neg v t a b → Reaches neg v (or t u) a b
  | orRight {t u : Formula α} {a : α} {b : Bool} :
      eval neg v t = .ok false → Reaches neg v u a b → Reaches neg v (or t u) a b

def Fails (r : Except ε Bool) : Prop := ∃ e, r = .error e

/-- The valuation gives every atom that does not fail its value. -/
def Extends (w : α → Bool) (v : α → Except ε Bool) : Prop := ∀ a b, v a = .ok b → w a = b

/-- The result is the truth value of the formula, or a failure exactly when the evaluation comes to
an atom that fails. -/
structure IsResult (v : α → Except ε Bool) (t : Formula α) (r : Except ε Bool) : Prop where
  value : ∀ b, r = .ok b ↔ (∀ a n, Reaches strict v t a n → ¬ Fails (v a)) ∧
    ∀ w, Extends w v → t.truth w = b
  failure : Fails r ↔ ∃ a n, Reaches strict v t a n ∧ Fails (v a)

/-- No atom under a negation that the evaluation comes to fails. -/
def Unhidden (v : α → Except ε Bool) (t : Formula α) : Prop :=
  ∀ a, Reaches strict v t a true → ¬ Fails (v a)

/-- The atoms under no negation. -/
@[simp] def bare : Formula α → List α
  | atom a => [a]
  | not _ => []
  | and t u | or t u => bare t ++ bare u

/-- The evaluation comes to a negation of a formula. -/
inductive Negates (neg : Except ε Bool → Except ε Bool) (v : α → Except ε Bool) :
    Formula α → Formula α → Prop
  | here (t : Formula α) : Negates neg v (not t) t
  | not {t s : Formula α} : Negates neg v t s → Negates neg v (not t) s
  | andLeft {t u s : Formula α} : Negates neg v t s → Negates neg v (and t u) s
  | andRight {t u s : Formula α} :
      eval neg v t = .ok true → Negates neg v u s → Negates neg v (and t u) s
  | orLeft {t u s : Formula α} : Negates neg v t s → Negates neg v (or t u) s
  | orRight {t u s : Formula α} :
      eval neg v t = .ok false → Negates neg v u s → Negates neg v (or t u) s

variable {v : α → Except ε Bool} {w : α → Bool} {t u : Formula α} {a : α} {b : Bool} {e : ε}

@[simp] theorem fails_error : Fails (.error e : Except ε Bool) := ⟨e, rfl⟩

@[simp] theorem not_fails_ok : ¬ Fails (.ok b : Except ε Bool) := fun ⟨_, h⟩ => by cases h

theorem fails_or_ok (r : Except ε Bool) : Fails r ∨ ∃ b, r = .ok b := by
  cases r with
  | error e => exact .inl ⟨e, rfl⟩
  | ok b => exact .inr ⟨b, rfl⟩

@[simp] theorem fails_strict {r : Except ε Bool} : Fails (strict r) ↔ Fails r := by
  cases r <;> simp [strict]

@[simp] theorem not_fails_lenient {r : Except ε Bool} : ¬ Fails (lenient r) := by
  cases r <;> simp [lenient]

@[simp] theorem strict_eq_ok {r : Except ε Bool} : strict r = .ok b ↔ r = .ok !b := by
  cases r <;> cases b <;> simp [strict]

section

variable {neg : Except ε Bool → Except ε Bool}

theorem reaches_and {n : Bool} : Reaches neg v (and t u) a n ↔
    Reaches neg v t a n ∨ eval neg v t = .ok true ∧ Reaches neg v u a n := by
  constructor
  · intro h
    cases h with
    | andLeft h => exact .inl h
    | andRight ht h => exact .inr ⟨ht, h⟩
  · rintro (h | ⟨ht, h⟩)
    · exact .andLeft h
    · exact .andRight ht h

theorem reaches_or {n : Bool} : Reaches neg v (or t u) a n ↔
    Reaches neg v t a n ∨ eval neg v t = .ok false ∧ Reaches neg v u a n := by
  constructor
  · intro h
    cases h with
    | orLeft h => exact .inl h
    | orRight ht h => exact .inr ⟨ht, h⟩
  · rintro (h | ⟨ht, h⟩)
    · exact .orLeft h
    · exact .orRight ht h

theorem reaches_not {n : Bool} :
    Reaches neg v (not t) a n ↔ n = true ∧ ∃ m, Reaches neg v t a m := by
  constructor
  · intro h
    cases h with
    | not h => exact ⟨rfl, _, h⟩
  · rintro ⟨rfl, m, h⟩
    exact .not h

theorem reaches_atom {a' : α} {n : Bool} :
    Reaches neg v (atom a') a n ↔ a = a' ∧ n = false := by
  constructor
  · intro h
    cases h
    exact ⟨rfl, rfl⟩
  · rintro ⟨rfl, rfl⟩
    exact .atom a

theorem fails_eval_and : Fails (eval neg v (and t u)) ↔
    Fails (eval neg v t) ∨ eval neg v t = .ok true ∧ Fails (eval neg v u) := by
  rw [eval]
  rcases h : eval neg v t with e | b
  · simp
  · cases b <;> simp

theorem fails_eval_or : Fails (eval neg v (or t u)) ↔
    Fails (eval neg v t) ∨ eval neg v t = .ok false ∧ Fails (eval neg v u) := by
  rw [eval]
  rcases h : eval neg v t with e | b
  · simp
  · cases b <;> simp

end

theorem eval_map {β : Type*} {neg : Except ε Bool → Except ε Bool} {v : β → Except ε Bool}
    (f : α → β) (t : Formula α) : (t.map f).eval neg v = t.eval neg (v ∘ f) := by
  induction t with
  | atom a => rfl
  | not t ih => rw [map, eval, eval, ih]
  | and t u iht ihu => rw [map, eval, eval, iht, ihu]
  | or t u iht ihu => rw [map, eval, eval, iht, ihu]

theorem eval_lenient_ok (h : ∀ a, v a = .ok (w a)) : eval lenient v t = .ok (t.truth w) := by
  induction t with
  | atom a => exact h a
  | not t ih => rw [eval, ih, lenient, truth]
  | and t u iht ihu => rw [eval, iht, ihu, truth]; cases t.truth w <;> rfl
  | or t u iht ihu => rw [eval, iht, ihu, truth]; cases t.truth w <;> rfl

/-- The strict evaluation fails exactly when it comes to an atom that fails. -/
theorem fails_eval_strict :
    Fails (eval strict v t) ↔ ∃ a n, Reaches strict v t a n ∧ Fails (v a) := by
  induction t with
  | atom a' => simp [eval, reaches_atom]
  | not t ih =>
    rw [eval, fails_strict, ih]
    simp only [reaches_not]
    constructor
    · rintro ⟨a, n, h, hf⟩
      exact ⟨a, true, ⟨rfl, n, h⟩, hf⟩
    · rintro ⟨a, n, ⟨-, m, h⟩, hf⟩
      exact ⟨a, m, h, hf⟩
  | and t u iht ihu =>
    rw [fails_eval_and, iht, ihu]
    simp only [reaches_and]
    constructor
    · rintro (⟨a, n, h, hf⟩ | ⟨ht, a, n, h, hf⟩)
      · exact ⟨a, n, .inl h, hf⟩
      · exact ⟨a, n, .inr ⟨ht, h⟩, hf⟩
    · rintro ⟨a, n, h | ⟨ht, h⟩, hf⟩
      · exact .inl ⟨a, n, h, hf⟩
      · exact .inr ⟨ht, a, n, h, hf⟩
  | or t u iht ihu =>
    rw [fails_eval_or, iht, ihu]
    simp only [reaches_or]
    constructor
    · rintro (⟨a, n, h, hf⟩ | ⟨ht, a, n, h, hf⟩)
      · exact ⟨a, n, .inl h, hf⟩
      · exact ⟨a, n, .inr ⟨ht, h⟩, hf⟩
    · rintro ⟨a, n, h | ⟨ht, h⟩, hf⟩
      · exact .inl ⟨a, n, h, hf⟩
      · exact .inr ⟨ht, a, n, h, hf⟩

theorem exists_bare_of_fails_eval_lenient (h : Fails (eval lenient v t)) :
    ∃ a ∈ t.bare, Fails (v a) := by
  induction t with
  | atom a => exact ⟨a, List.mem_singleton_self a, h⟩
  | not t => exact absurd h not_fails_lenient
  | and t u iht ihu =>
    rcases fails_eval_and.mp h with h | ⟨-, h⟩
    · obtain ⟨a, ha, hf⟩ := iht h
      exact ⟨a, List.mem_append_left _ ha, hf⟩
    · obtain ⟨a, ha, hf⟩ := ihu h
      exact ⟨a, List.mem_append_right _ ha, hf⟩
  | or t u iht ihu =>
    rcases fails_eval_or.mp h with h | ⟨-, h⟩
    · obtain ⟨a, ha, hf⟩ := iht h
      exact ⟨a, List.mem_append_left _ ha, hf⟩
    · obtain ⟨a, ha, hf⟩ := ihu h
      exact ⟨a, List.mem_append_right _ ha, hf⟩

/-- A value of the strict evaluation is the truth value under every valuation that agrees with the
atoms that do not fail. -/
theorem truth_of_eval_strict (hw : Extends w v) (h : eval strict v t = .ok b) :
    t.truth w = b := by
  induction t generalizing b with
  | atom a => exact hw a b h
  | not t ih =>
    rw [eval, strict_eq_ok] at h
    rw [truth, ih h, Bool.not_not]
  | and t u iht ihu =>
    rw [eval] at h
    rcases ht : eval strict v t with e | b'
    · simp [ht] at h
    · cases b' with
      | false =>
        simp only [ht, Except.ok.injEq] at h
        rw [truth, iht ht, Bool.false_and, h]
      | true =>
        simp only [ht] at h
        rw [truth, iht ht, Bool.true_and, ihu h]
  | or t u iht ihu =>
    rw [eval] at h
    rcases ht : eval strict v t with e | b'
    · simp [ht] at h
    · cases b' with
      | false =>
        simp only [ht] at h
        rw [truth, iht ht, Bool.false_or, ihu h]
      | true =>
        simp only [ht, Except.ok.injEq] at h
        rw [truth, iht ht, Bool.true_or, h]

theorem eval_lenient_eq_strict (h : Unhidden v t) : eval lenient v t = eval strict v t := by
  induction t with
  | atom a => rfl
  | not t ih =>
    have hno : ¬ Fails (eval strict v t) := by
      rw [fails_eval_strict]
      rintro ⟨a, n, hr, hf⟩
      exact h a (.not hr) hf
    rw [eval, eval, ih fun a hr => h a (.not hr)]
    rcases hv : eval strict v t with e | b
    · exact absurd ⟨e, hv⟩ hno
    · rfl
  | and t u iht ihu =>
    rw [eval, eval, iht fun a hr => h a (.andLeft hr)]
    rcases hv : eval strict v t with e | b
    · rfl
    · cases b with
      | false => rfl
      | true => exact ihu fun a hr => h a (.andRight hv hr)
  | or t u iht ihu =>
    rw [eval, eval, iht fun a hr => h a (.orLeft hr)]
    rcases hv : eval strict v t with e | b
    · rfl
    · cases b with
      | false => exact ihu fun a hr => h a (.orRight hv hr)
      | true => rfl

/-- A result is one exactly when it is, up to the kind of failure, that of the strict evaluation. -/
theorem isResult_iff {r : Except ε Bool} : IsResult v t r ↔
    (Fails r ↔ Fails (eval strict v t)) ∧ ∀ b, r = .ok b ↔ eval strict v t = .ok b := by
  have hvalue (b : Bool) : eval strict v t = .ok b ↔
      (∀ a n, Reaches strict v t a n → ¬ Fails (v a)) ∧ ∀ w, Extends w v → t.truth w = b := by
    constructor
    · intro h
      refine ⟨fun a n hr hf => ?_, fun w hw => truth_of_eval_strict hw h⟩
      have := fails_eval_strict.mpr ⟨a, n, hr, hf⟩
      rw [h] at this
      exact not_fails_ok this
    · rintro ⟨hno, htruth⟩
      rcases fails_or_ok (eval strict v t) with hf | ⟨b', h⟩
      · obtain ⟨a, n, hr, hf⟩ := fails_eval_strict.mp hf
        exact absurd hf (hno a n hr)
      · have hw : Extends (fun a => (v a).toOption == some true) v := by
          intro a b hab
          cases b <;> simp [hab, Except.toOption]
        rw [h, ← truth_of_eval_strict hw h, htruth _ hw]
  constructor
  · intro h
    refine ⟨h.failure.trans fails_eval_strict.symm, fun b => (h.value b).trans (hvalue b).symm⟩
  · rintro ⟨hf, hv⟩
    exact ⟨fun b => (hv b).trans (hvalue b), hf.trans fails_eval_strict⟩

theorem unhidden_of_eval_strict (h : eval strict v t = .ok b) : Unhidden v t := by
  intro a hr hf
  have := fails_eval_strict.mpr ⟨a, true, hr, hf⟩
  rw [h] at this
  exact not_fails_ok this

theorem isResult_lenient (h : Unhidden v t) : IsResult v t (eval lenient v t) := by
  rw [isResult_iff, eval_lenient_eq_strict h]
  exact ⟨.rfl, fun _ => .rfl⟩

theorem isResult_lenient_iff (h : ∀ a ∈ t.bare, ¬ Fails (v a)) :
    IsResult v t (eval lenient v t) ↔ Unhidden v t := by
  refine ⟨fun hr => ?_, isResult_lenient⟩
  rcases fails_or_ok (eval strict v t) with hs | ⟨b, hs⟩
  · obtain ⟨a, ha, hf⟩ :=
      exists_bare_of_fails_eval_lenient ((isResult_iff.mp hr).1.mpr hs)
    exact absurd hf (h a ha)
  · exact unhidden_of_eval_strict hs

theorem not_unhidden : ¬ Unhidden v t ↔ ∃ a, Reaches strict v t a true ∧ Fails (v a) := by
  unfold Unhidden
  push Not
  rfl

/-- With a hidden failure the lenient evaluation negates a failure. -/
theorem exists_negates_of_not_unhidden (h : ¬ Unhidden v t) :
    ∃ s, Negates lenient v t s ∧ Fails (eval lenient v s) := by
  induction t with
  | atom a' => exact absurd (fun a hr => by cases hr) h
  | not t ih =>
    by_cases ht : Unhidden v t
    · refine ⟨t, .here t, ?_⟩
      rw [eval_lenient_eq_strict ht]
      obtain ⟨a, hr, hf⟩ := not_unhidden.mp h
      obtain ⟨-, n, hr⟩ := reaches_not.mp hr
      exact fails_eval_strict.mpr ⟨a, n, hr, hf⟩
    · obtain ⟨s, hs, hf⟩ := ih ht
      exact ⟨s, .not hs, hf⟩
  | and t u iht ihu =>
    obtain ⟨a, hr, hf⟩ := not_unhidden.mp h
    rcases reaches_and.mp hr with hr | ⟨ht, hr⟩
    · obtain ⟨s, hs, hf⟩ := iht (not_unhidden.mpr ⟨a, hr, hf⟩)
      exact ⟨s, .andLeft hs, hf⟩
    · obtain ⟨s, hs, hf⟩ := ihu (not_unhidden.mpr ⟨a, hr, hf⟩)
      rw [← eval_lenient_eq_strict (unhidden_of_eval_strict ht)] at ht
      exact ⟨s, .andRight ht hs, hf⟩
  | or t u iht ihu =>
    obtain ⟨a, hr, hf⟩ := not_unhidden.mp h
    rcases reaches_or.mp hr with hr | ⟨ht, hr⟩
    · obtain ⟨s, hs, hf⟩ := iht (not_unhidden.mpr ⟨a, hr, hf⟩)
      exact ⟨s, .orLeft hs, hf⟩
    · obtain ⟨s, hs, hf⟩ := ihu (not_unhidden.mpr ⟨a, hr, hf⟩)
      rw [← eval_lenient_eq_strict (unhidden_of_eval_strict ht)] at ht
      exact ⟨s, .orRight ht hs, hf⟩

end Formula
