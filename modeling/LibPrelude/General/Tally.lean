import Mathlib.Data.List.Count

/-! # Counting with errors

A fallible test is made on each element of a list, and those that pass are counted. The first
error ends the count.
-/

namespace Tally

variable {α β ε : Type*} {f g : α → Except ε Bool} {l l' : List α} {n r : ℕ} {e : ε}

def tally (f : α → Except ε Bool) : List α → ℕ → Except ε ℕ
  | [], n => .ok n
  | a :: l, n =>
    match f a with
    | .error e => .error e
    | .ok b => tally f l (if b then n + 1 else n)

@[simp] theorem tally_nil : tally f [] n = .ok n := rfl

theorem tally_append : tally f (l ++ l') n = tally f l n >>= tally f l' := by
  induction l generalizing n with
  | nil => rfl
  | cons a l ih =>
    rw [List.cons_append, tally, tally]
    cases f a with
    | error e => rfl
    | ok b => exact ih

theorem tally_map {h : β → α} {l : List β} : tally f (l.map h) n = tally (f ∘ h) l n := by
  induction l generalizing n with
  | nil => rfl
  | cons a l ih =>
    rw [List.map_cons, tally, tally, Function.comp_apply]
    cases f (h a) with
    | error e => rfl
    | ok b => exact ih

end Tally
