import Mathlib.Data.List.Basic
import Mathlib.Data.List.TakeWhile

/-! # Reading a stream by pieces

A piece of a stream ends behind a newline, where the buffer is full, or where the stream ends.
-/

namespace LibPrelude

def firstLine (text : List UInt8) : List UInt8 :=
  text.takeWhile (· ≠ 10) ++ (text.dropWhile (· ≠ 10)).take 1

/-- The next piece for a buffer of a size, and what is left of the text. -/
def fgets (size : ℕ) (text : List UInt8) : Option (List UInt8 × List UInt8) :=
  if text = [] then none
  else some ((firstLine text).take (size - 1), text.drop ((firstLine text).take (size - 1)).length)

structure LinePiece (size : ℕ) (text piece rest : List UInt8) : Prop where
  text_eq : text = piece ++ rest
  ne_nil : piece ≠ []
  le : piece.length ≤ size - 1
  free : 10 ∉ piece.dropLast
  ends : piece.getLast? = some 10 ∨ piece.length = size - 1 ∨ rest = []

variable {size : ℕ} {text piece rest : List UInt8}

theorem LinePiece.rest_lt (h : LinePiece size text piece rest) : rest.length < text.length := by
  rw [h.text_eq, List.length_append]
  exact Nat.lt_add_of_pos_left (List.length_pos_iff.mpr h.ne_nil)

theorem not_mem_of_dropLast {b : UInt8} (hfree : b ∉ piece.dropLast)
    (hlast : piece.getLast? ≠ some b) : b ∉ piece := by
  intro hm
  rcases List.eq_nil_or_concat' piece with rfl | ⟨piece, c, rfl⟩
  · cases hm
  · rw [List.dropLast_concat] at hfree
    rcases List.mem_append.mp hm with hm | hm
    · exact hfree hm
    · exact hlast (by rw [List.getLast?_concat, List.mem_singleton.mp hm])

theorem firstLine_append (text : List UInt8) : ∃ rest, text = firstLine text ++ rest ∧
    (rest ≠ [] → (firstLine text).getLast? = some 10) ∧ 10 ∉ (firstLine text).dropLast := by
  by_cases hmem : (10 : UInt8) ∈ text
  · obtain ⟨xs, ys, rfl, hx⟩ := List.eq_append_cons_of_mem hmem
    have hall (c : UInt8) (hc : c ∈ xs) : decide (c ≠ 10) = true :=
      decide_eq_true (ne_of_mem_of_not_mem hc hx)
    have hline : firstLine (xs ++ 10 :: ys) = xs ++ [10] := by
      rw [firstLine, List.takeWhile_append_of_pos hall, List.takeWhile_cons_of_neg (by simp),
        List.dropWhile_append_of_pos hall, List.dropWhile_cons_of_neg (by simp), List.append_nil,
        List.take_succ_cons, List.take_zero]
    rw [hline]
    exact ⟨ys, by simp, fun _ => List.getLast?_concat, by rwa [List.dropLast_concat]⟩
  · have hall (c : UInt8) (hc : c ∈ text) : decide (c ≠ 10) = true :=
      decide_eq_true (ne_of_mem_of_not_mem hc hmem)
    have hline : firstLine text = text := by
      rw [firstLine, List.takeWhile_eq_self_iff.mpr hall, List.dropWhile_eq_nil_iff.mpr hall,
        List.take_nil, List.append_nil]
    rw [hline]
    exact ⟨[], (List.append_nil text).symm, nofun, fun h => hmem (List.dropLast_subset text h)⟩

theorem firstLine_ne_nil (h : text ≠ []) : firstLine text ≠ [] := by
  obtain ⟨rest, htext, hlast, -⟩ := firstLine_append text
  intro hnil
  rw [hnil] at htext hlast
  rw [List.nil_append] at htext
  subst htext
  cases hlast h

theorem fgets_none : fgets size text = none ↔ text = [] := by
  rw [fgets]
  split <;> simp_all

theorem fgets_some (hsize : 2 ≤ size) (h : fgets size text = some (piece, rest)) :
    LinePiece size text piece rest := by
  rw [fgets] at h
  split at h
  · cases h
  next hne =>
    obtain ⟨rfl, rfl⟩ := Prod.mk.inj (Option.some.inj h)
    obtain ⟨after, htext, hlast, hfree⟩ := firstLine_append text
    have hpre : (firstLine text).take (size - 1) <+: text :=
      (List.take_prefix _ _).trans ⟨after, htext.symm⟩
    have hcut := List.prefix_iff_eq_append.mp hpre
    have hpos := List.length_pos_iff.mpr (firstLine_ne_nil hne)
    by_cases hle : (firstLine text).length ≤ size - 1
    · rw [List.take_of_length_le hle] at hcut ⊢
      refine ⟨hcut.symm, firstLine_ne_nil hne, hle, hfree, ?_⟩
      by_cases hrest : text.drop (firstLine text).length = []
      · exact .inr (.inr hrest)
      · refine .inl (hlast fun hnil => hrest ?_)
        rw [hnil, List.append_nil] at htext
        rw [← htext, List.drop_length]
    · have hlen : ((firstLine text).take (size - 1)).length = size - 1 := by
        rw [List.length_take]
        omega
      have hsub : (firstLine text).take (size - 1) <+: (firstLine text).dropLast := by
        rw [List.dropLast_eq_take]
        exact List.take_prefix_take_left (by omega)
      exact ⟨hcut.symm, List.ne_nil_of_length_pos (by omega), hlen.le,
        fun h => hfree (hsub.subset (List.dropLast_subset _ h)), .inr (.inl hlen)⟩

end LibPrelude
