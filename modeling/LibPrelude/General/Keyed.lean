import Mathlib.Data.List.Basic

/-! # Entries found by their keys

Entries of a list are found by a test of their keys against a key. In a list of entries
with different keys one entry is replaced or taken out without a change for other keys.
-/

namespace LibPrelude

structure KeyTest (κ : Type*) where
  same : κ → κ → Bool
  refl : ∀ k, same k k
  symm : ∀ {k k'}, same k k' → same k' k
  trans : ∀ {k k' k''}, same k k' → same k' k'' → same k k''

namespace KeyTest

variable {κ ε : Type*} (t : KeyTest κ) (key : ε → κ) {k k' : κ} {e e' : ε} {l l₁ l₂ : List ε}

def find (k : κ) (l : List ε) : Option ε := l.find? fun e => t.same k (key e)

def Distinct (l : List ε) : Prop := l.Pairwise fun e e' => t.same (key e) (key e') = false

variable {t key}

theorem same_comm (k k' : κ) : t.same k k' = t.same k' k :=
  Bool.eq_iff_iff.mpr ⟨t.symm, t.symm⟩

theorem same_congr (h : t.same k k') (k'' : κ) : t.same k k'' = t.same k' k'' :=
  Bool.eq_iff_iff.mpr ⟨t.trans (t.symm h), t.trans h⟩

theorem find_cons (k : κ) (e : ε) (l : List ε) :
    t.find key k (e :: l) = if t.same k (key e) then some e else t.find key k l := by
  rw [find, List.find?_cons]
  cases t.same k (key e) <;> rfl

theorem find_congr (h : t.same k k') (l : List ε) : t.find key k l = t.find key k' l :=
  congrArg (l.find? ·) (funext fun e => same_congr h (key e))

theorem find_none_iff : t.find key k l = none ↔ ∀ e ∈ l, t.same k (key e) = false := by
  simp [find]

theorem find_some (h : t.find key k l = some e) :
    t.same k (key e) ∧ ∃ l₁ l₂, l = l₁ ++ e :: l₂ := by
  have hsame := List.find?_some h
  exact ⟨hsame, List.append_of_mem (List.mem_of_find?_eq_some h)⟩

theorem find_append (k : κ) (l₁ l₂ : List ε) :
    t.find key k (l₁ ++ l₂) = (t.find key k l₁).or (t.find key k l₂) := List.find?_append

theorem Distinct.cons (h : t.Distinct key l) (hfind : t.find key (key e) l = none) :
    t.Distinct key (e :: l) :=
  List.pairwise_cons.mpr ⟨find_none_iff.mp hfind, h⟩

theorem Distinct.front (h : t.Distinct key (l₁ ++ e :: l₂)) (hk : t.same k (key e)) :
    t.find key k l₁ = none ∧ t.find key k l₂ = none := by
  obtain ⟨-, hright, hleft⟩ := List.pairwise_append.mp h
  refine ⟨find_none_iff.mpr fun y hy => ?_, find_none_iff.mpr fun y hy => ?_⟩
  · rw [same_congr hk, same_comm]
    exact hleft y hy e List.mem_cons_self
  · rw [same_congr hk]
    exact (List.pairwise_cons.mp hright).1 y hy

theorem Distinct.remove (h : t.Distinct key (l₁ ++ e :: l₂)) : t.Distinct key (l₁ ++ l₂) :=
  h.sublist ((List.Sublist.refl l₁).append (List.sublist_cons_self e l₂))

theorem Distinct.replace (h : t.Distinct key (l₁ ++ e :: l₂)) (he : t.same (key e') (key e)) :
    t.Distinct key (l₁ ++ e' :: l₂) := by
  obtain ⟨hl₁, hright, hleft⟩ := List.pairwise_append.mp h
  obtain ⟨hel₂, hl₂⟩ := List.pairwise_cons.mp hright
  refine List.pairwise_append.mpr ⟨hl₁, List.pairwise_cons.mpr ⟨fun y hy => ?_, hl₂⟩, ?_⟩
  · rw [same_congr he]
    exact hel₂ y hy
  · intro y hy z hz
    rcases List.mem_cons.mp hz with rfl | hz
    · rw [same_comm, same_congr he, same_comm]
      exact hleft y hy e List.mem_cons_self
    · exact hleft y hy z (List.mem_cons_of_mem _ hz)

theorem find_remove (h : t.Distinct key (l₁ ++ e :: l₂)) (k : κ) :
    t.find key k (l₁ ++ l₂) =
      if t.same k (key e) then none else t.find key k (l₁ ++ e :: l₂) := by
  rw [find_append, find_append, find_cons]
  split_ifs with hk
  · rw [(h.front hk).1, (h.front hk).2]
    rfl
  · rfl

theorem find_replace (h : t.Distinct key (l₁ ++ e :: l₂)) (he : t.same (key e') (key e)) (k : κ) :
    t.find key k (l₁ ++ e' :: l₂) =
      if t.same k (key e') then some e' else t.find key k (l₁ ++ e :: l₂) := by
  have hsame : t.same k (key e) = t.same k (key e') := by
    rw [same_comm, ← same_congr he, same_comm]
  rw [find_append, find_append, find_cons, find_cons, hsame]
  split_ifs with hk
  · rw [(h.front (hsame.trans hk)).1]
    rfl
  · rfl

end KeyTest

end LibPrelude
