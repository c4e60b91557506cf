import Mathlib.Data.List.Basic

/-! # Files of fixed-size records

A file is a list whose records sit in slots of a fixed size; a rest shorter than a
slot is no record. The newest acceptable record is found backwards. A write
replaces the elements at its position and extends the file when it reaches past
the end.
-/

namespace Slots

variable {α : Type*}

/-- The elements of the `i`-th slot of size `k`. -/
def slot (k i : ℕ) (xs : List α) : List α := (xs.drop (k * i)).take k

/-- The last of the first `n` slots that is acceptable. -/
def newest (accept : List α → Bool) (k : ℕ) (xs : List α) : ℕ → Option ℕ
  | 0 => none
  | n + 1 => if accept (slot k n xs) then some n else newest accept k xs n

def overwrite (fill : α) (xs : List α) (pos : ℕ) (ys : List α) : List α :=
  xs.take pos ++ List.replicate (pos - xs.length) fill ++ ys ++ xs.drop (pos + ys.length)

variable {accept : List α → Bool} {k n : ℕ} {xs : List α}

theorem newest_eq_some_iff {i : ℕ} : newest accept k xs n = some i ↔
    i < n ∧ accept (slot k i xs) ∧ ∀ j, i < j → j < n → accept (slot k j xs) = false := by
  induction n with
  | zero => simp [newest]
  | succ n ih =>
    by_cases hn : accept (slot k n xs)
    · simp only [newest, hn, if_true, Option.some.injEq]
      constructor
      · rintro rfl
        exact ⟨Nat.lt_succ_self _, hn, fun j h₁ h₂ => by omega⟩
      · rintro ⟨hi, -, hlast⟩
        by_contra hne
        have := hlast n (by omega) (Nat.lt_succ_self _)
        simp [hn] at this
    · simp only [newest, hn, Bool.false_eq_true, if_false, ih]
      constructor
      · rintro ⟨hi, ha, hlast⟩
        refine ⟨by omega, ha, fun j h₁ h₂ => ?_⟩
        rcases Nat.lt_succ_iff_lt_or_eq.mp h₂ with h | rfl
        · exact hlast j h₁ h
        · simpa using hn
      · rintro ⟨hi, ha, hlast⟩
        have hne : i ≠ n := by
          rintro rfl
          exact hn ha
        exact ⟨by omega, ha, fun j h₁ h₂ => hlast j h₁ (by omega)⟩

theorem newest_eq_none_iff :
    newest accept k xs n = none ↔ ∀ i, i < n → accept (slot k i xs) = false := by
  induction n with
  | zero => simp [newest]
  | succ n ih =>
    by_cases hn : accept (slot k n xs)
    · simp only [newest, hn, if_true, reduceCtorEq, false_iff]
      intro h
      have := h n (Nat.lt_succ_self _)
      simp [hn] at this
    · simp only [newest, hn, Bool.false_eq_true, if_false, ih]
      constructor
      · intro h i hi
        rcases Nat.lt_succ_iff_lt_or_eq.mp hi with hlt | rfl
        · exact h i hlt
        · simpa using hn
      · exact fun h i hi => h i (by omega)

theorem take_drop_overwrite (fill : α) (xs : List α) (pos : ℕ) (ys : List α) :
    ((overwrite fill xs pos ys).drop pos).take ys.length = ys := by
  have hfront : (xs.take pos ++ List.replicate (pos - xs.length) fill).length = pos := by
    rw [List.length_append, List.length_take, List.length_replicate]
    omega
  rw [overwrite, List.append_assoc, List.drop_left' hfront, List.take_left]

theorem overwrite_length (fill : α) (xs ys : List α) :
    overwrite fill xs xs.length ys = xs ++ ys := by
  simp [overwrite]

theorem slot_append {xs ys : List α} (hx : xs.length = k * n) (hy : ys.length = k) :
    slot k n (xs ++ ys) = ys := by
  rw [slot, ← hx, List.drop_left, ← hy, List.take_length]

theorem newest_append {xs ys : List α} (hx : xs.length = k * n) (hy : ys.length = k)
    (ha : accept ys) : newest accept k (xs ++ ys) (n + 1) = some n := by
  rw [newest, slot_append hx hy, if_pos ha]

end Slots
