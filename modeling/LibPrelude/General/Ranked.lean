import Mathlib.Data.List.Sort

/-! # Lists sorted by a rank

An element is inserted in front of the first one of a greater rank. The list stays
sorted, and the elements of one rank stay in the order in which they were inserted.
-/

namespace Ranked

variable {α : Type*} (rank : α → ℤ)

/-- Insert behind the elements that do not have a greater rank. -/
def insert (a : α) : List α → List α := List.orderedInsert (fun a b => rank a < rank b) a

def Sorted (l : List α) : Prop := l.Pairwise fun a b => rank a ≤ rank b

variable {rank} {a : α} {l : List α}

theorem mem_insert {b : α} : b ∈ insert rank a l ↔ b = a ∨ b ∈ l := by
  rw [insert, List.mem_orderedInsert]

theorem sublist_insert : List.Sublist l (insert rank a l) := List.sublist_orderedInsert a l

theorem sorted_insert (h : Sorted rank l) : Sorted rank (insert rank a l) := by
  induction l with
  | nil => exact List.pairwise_singleton _ a
  | cons b l ih =>
    obtain ⟨hb, hl⟩ := List.pairwise_cons.mp h
    rw [insert, List.orderedInsert_cons]
    split_ifs with hab
    · refine List.pairwise_cons.mpr ⟨fun c hc => ?_, h⟩
      rcases List.mem_cons.mp hc with rfl | hc
      · exact hab.le
      · exact hab.le.trans (hb c hc)
    · refine List.pairwise_cons.mpr ⟨fun c hc => ?_, ih hl⟩
      rcases mem_insert.mp hc with rfl | hc
      · exact not_lt.mp hab
      · exact hb c hc

theorem filter_insert (h : Sorted rank l) {p : α → Bool} (hp : ∀ b, p b = true → p a = true →
    rank b = rank a) : (insert rank a l).filter p = (l ++ [a]).filter p := by
  induction l with
  | nil => rfl
  | cons b l ih =>
    obtain ⟨hb, hl⟩ := List.pairwise_cons.mp h
    rw [insert, List.orderedInsert_cons]
    split_ifs with hab
    · by_cases hpa : p a = true
      · have hnone : (b :: l).filter p = [] := by
          refine List.filter_eq_nil_iff.mpr fun c hc hpc => ?_
          have hlt : rank a < rank c := by
            rcases List.mem_cons.mp hc with rfl | hc
            · exact hab
            · exact hab.trans_le (hb c hc)
          exact absurd (hp c hpc hpa) (ne_of_gt hlt)
        rw [List.filter_cons_of_pos hpa, List.filter_append, hnone, List.filter_cons_of_pos hpa]
        rfl
      · rw [List.filter_cons_of_neg hpa, List.filter_append, List.filter_cons_of_neg hpa,
          List.filter_nil, List.append_nil]
    · change List.filter p (b :: insert rank a l) = _
      rw [List.cons_append, List.filter_cons, List.filter_cons, ih hl]

theorem insert_of_le (h : ∀ b ∈ l, rank b ≤ rank a) : insert rank a l = l ++ [a] := by
  induction l with
  | nil => rfl
  | cons b l ih =>
    obtain ⟨hb, hl⟩ := List.forall_mem_cons.mp h
    rw [insert, List.orderedInsert_cons, if_neg (not_lt.mpr hb)]
    exact congrArg (b :: ·) (ih hl)

end Ranked
