import Mathlib.Data.List.Basic
import Mathlib.Data.List.TakeWhile

/-! # Splitting at a mark

A list is split at the first or at the last element that is a given mark; what is in
front of the mark and what is behind it are then determined.
-/

namespace Split

variable {α : Type*} [DecidableEq α] {c : α} {xs ys s : List α}

def first (c : α) (s : List α) : Option (List α × List α) :=
  if c ∈ s then some (s.takeWhile (· ≠ c), (s.dropWhile (· ≠ c)).tail) else none

def last (c : α) (s : List α) : Option (List α × List α) :=
  (first c s.reverse).map fun (behind, front) => (front.reverse, behind.reverse)

theorem first_eq_none_iff : first c s = none ↔ c ∉ s := by
  rw [first]
  split_ifs with h <;> simp [h]

theorem last_eq_none_iff : last c s = none ↔ c ∉ s := by
  rw [last, Option.map_eq_none_iff, first_eq_none_iff, List.mem_reverse]

theorem first_append (hx : c ∉ xs) : first c (xs ++ c :: ys) = some (xs, ys) := by
  have hall : ∀ x ∈ xs, decide (x ≠ c) = true := by
    intro x hxs
    simpa using ne_of_mem_of_not_mem hxs hx
  rw [first, if_pos (List.mem_append_right _ List.mem_cons_self),
    List.takeWhile_append_of_pos hall, List.dropWhile_append_of_pos hall,
    List.takeWhile_cons_of_neg (by simp), List.dropWhile_cons_of_neg (by simp), List.append_nil,
    List.tail_cons]

theorem last_append (hy : c ∉ ys) : last c (xs ++ c :: ys) = some (xs, ys) := by
  have hrev : (xs ++ c :: ys).reverse = ys.reverse ++ c :: xs.reverse := by simp
  rw [last, hrev, first_append (by rwa [List.mem_reverse])]
  simp

omit [DecidableEq α] in
theorem exists_first (h : c ∈ s) : ∃ xs ys, s = xs ++ c :: ys ∧ c ∉ xs :=
  List.eq_append_cons_of_mem h

omit [DecidableEq α] in
theorem exists_last (h : c ∈ s) : ∃ xs ys, s = xs ++ c :: ys ∧ c ∉ ys := by
  obtain ⟨xs, ys, hs, hx⟩ := List.eq_append_cons_of_mem (List.mem_reverse.mpr h)
  refine ⟨ys.reverse, xs.reverse, ?_, by rwa [List.mem_reverse]⟩
  have hrev := congrArg List.reverse hs
  simpa using hrev

omit [DecidableEq α] in
variable {xs' ys' : List α} in
theorem first_unique (hx : c ∉ xs) (hx' : c ∉ xs') (h : xs ++ c :: ys = xs' ++ c :: ys') :
    xs = xs' ∧ ys = ys' := by
  classical
  have hfirst := congrArg (first c) h
  rw [first_append hx, first_append hx', Option.some.injEq, Prod.mk.injEq] at hfirst
  exact hfirst

omit [DecidableEq α] in
variable {xs' ys' : List α} in
theorem last_unique (hy : c ∉ ys) (hy' : c ∉ ys') (h : xs ++ c :: ys = xs' ++ c :: ys') :
    xs = xs' ∧ ys = ys' := by
  classical
  have hlast := congrArg (last c) h
  rw [last_append hy, last_append hy', Option.some.injEq, Prod.mk.injEq] at hlast
  exact hlast

end Split
