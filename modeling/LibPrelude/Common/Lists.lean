import LibPrelude.General.Ring

/-! # Linked lists

A list is the ring of a head whose items are nodes inside of the objects listed. An item
is added behind or in front of a node, which may be the head.
-/

namespace LibPrelude.Links

variable {α σ β : Type*} [DecidableEq α] {s : Links α} {head x y : α} {l l₁ l₂ : List α}

def preludeListInit (s : Links α) (item : α) : Links α := s.single item

def preludeListIsEmpty (s : Links α) (item : α) : Bool := s.next item = item

def preludeListAdd (s : Links α) (head item : α) : Links α := s.link item head (s.next head)

def preludeListAddTail (s : Links α) (head item : α) : Links α := s.link item (s.prev head) head

def preludeListDel (s : Links α) (item : α) : Links α := s.unlink item

def preludeListForEach (s : Links α) (list : α) (body : α → σ → σ ⊕ β) (fuel : ℕ) (st : σ) :
    Option (σ ⊕ β) :=
  loop s.next list body fuel (s.next list) st

def preludeListForEachReversed (s : Links α) (list : α) (body : α → σ → σ ⊕ β) (fuel : ℕ)
    (st : σ) : Option (σ ⊕ β) :=
  loop s.prev list body fuel (s.prev list) st

theorem isEmpty_iff (h : s.Ring head l) : s.preludeListIsEmpty head ↔ l = [] := by
  rw [preludeListIsEmpty, decide_eq_true_iff, h.next.first]
  cases l with
  | nil => simp
  | cons x l => simpa using (List.ne_of_not_mem_cons h.notMem).symm

theorem add_head (h : s.Ring head l) (hx : x ∉ head :: l) :
    (s.preludeListAdd head x).Ring head (x :: l) := by
  have hempty : s.Ring head ([] ++ l) := h
  rw [preludeListAdd, h.next.first]
  exact hempty.link hx

theorem addTail_head (h : s.Ring head l) (hx : x ∉ head :: l) :
    (s.preludeListAddTail head x).Ring head (l ++ [x]) := by
  have hprev : s.prev head = l.getLastD head := by simpa using h.prev.first
  have hempty : s.Ring head (l ++ []) := by rwa [List.append_nil]
  rw [preludeListAddTail, hprev]
  exact hempty.link (by rwa [List.append_nil])

theorem add_item (h : s.Ring head (l₁ ++ y :: l₂)) (hx : x ∉ head :: (l₁ ++ y :: l₂)) :
    (s.preludeListAdd y x).Ring head (l₁ ++ y :: x :: l₂) := by
  have hsplit : l₁ ++ y :: l₂ = (l₁ ++ [y]) ++ l₂ := by simp
  have hlink := Ring.link (hsplit ▸ h) (hsplit ▸ hx)
  rw [List.getLastD_concat] at hlink
  rw [preludeListAdd, h.next.last]
  simpa using hlink

theorem addTail_item (h : s.Ring head (l₁ ++ y :: l₂)) (hx : x ∉ head :: (l₁ ++ y :: l₂)) :
    (s.preludeListAddTail y x).Ring head (l₁ ++ x :: y :: l₂) := by
  rw [preludeListAddTail, h.prev_eq]
  exact Ring.link h hx

end LibPrelude.Links
