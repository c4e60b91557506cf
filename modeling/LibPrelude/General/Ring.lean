import Mathlib.Data.List.Basic
import Mathlib.Logic.Function.Basic

/-! # Rings of nodes

Nodes are linked both ways. A ring leads from its head through the items of a list and
back to the head. An item is put between two neighbours, or taken out by linking its
neighbours, and a loop along the links of a ring is a loop over its list.
-/

namespace LibPrelude

structure Links (α : Type*) where
  next : α → α
  prev : α → α

variable {α σ β : Type*} {f : α → α} {a b p n x y head : α} {l l₁ l₂ : List α}

/-- The links of a node lead through the items to another node. -/
def Leads (f : α → α) : α → List α → α → Prop
  | a, [], b => f a = b
  | a, x :: l, b => f a = x ∧ Leads f x l b

namespace Leads

theorem first (h : Leads f a l b) : f a = l.headD b := by
  cases l with
  | nil => exact h
  | cons x l => exact h.1

theorem append (h : Leads f a (l₁ ++ x :: l₂) b) : Leads f a l₁ x ∧ Leads f x l₂ b := by
  induction l₁ generalizing a with
  | nil => exact h
  | cons y l₁ ih =>
    obtain ⟨hy, h⟩ := h
    exact ⟨⟨hy, (ih h).1⟩, (ih h).2⟩

theorem last (h : Leads f a (l₁ ++ x :: l₂) b) : f x = l₂.headD b := h.append.2.first

theorem unique (h₁ : Leads f a l₁ b) (h₂ : Leads f a l₂ b) (hb₁ : b ∉ l₁) (hb₂ : b ∉ l₂) :
    l₁ = l₂ := by
  induction l₁ generalizing a l₂ with
  | nil =>
    cases l₂ with
    | nil => rfl
    | cons y l₂ =>
      obtain rfl : b = y := h₁.symm.trans h₂.1
      exact absurd List.mem_cons_self hb₂
  | cons x l₁ ih =>
    cases l₂ with
    | nil =>
      obtain rfl : b = x := h₂.symm.trans h₁.1
      exact absurd List.mem_cons_self hb₁
    | cons y l₂ =>
      obtain rfl : x = y := h₁.1.symm.trans h₂.1
      rw [ih h₁.2 h₂.2 (List.not_mem_of_not_mem_cons hb₁) (List.not_mem_of_not_mem_cons hb₂)]

theorem congr {g : α → α} (h : Leads f a l b) (hg : ∀ y ∈ a :: l, g y = f y) :
    Leads g a l b := by
  induction l generalizing a with
  | nil => exact (hg a List.mem_cons_self).trans h
  | cons x l ih =>
    obtain ⟨hx, h⟩ := h
    exact ⟨(hg a List.mem_cons_self).trans hx, ih h fun y hy => hg y (List.mem_cons_of_mem _ hy)⟩

variable [DecidableEq α]

theorem update_of_notMem (h : Leads f a l b) (hp : p ∉ a :: l) (y : α) :
    Leads (Function.update f p y) a l b :=
  h.congr fun _ hz => Function.update_of_ne (ne_of_mem_of_not_mem hz hp) y f

theorem insert (h : Leads f a (l₁ ++ l₂) b) (hnodup : (a :: (l₁ ++ l₂)).Nodup)
    (hx : x ∉ a :: (l₁ ++ l₂)) :
    Leads (Function.update (Function.update f (l₁.getLastD a) x) x (l₂.headD b)) a
      (l₁ ++ x :: l₂) b := by
  induction l₁ generalizing a with
  | nil =>
    have hxa : a ≠ x := (List.ne_of_not_mem_cons hx).symm
    refine ⟨?_, ?_⟩
    · rw [Function.update_of_ne hxa, List.getLastD_nil, Function.update_self]
    · cases l₂ with
      | nil => exact Function.update_self ..
      | cons y l₂ =>
        have hxl : x ∉ y :: l₂ := List.not_mem_of_not_mem_cons hx
        refine ⟨Function.update_self .., ?_⟩
        exact (h.2.update_of_notMem (List.nodup_cons.mp hnodup).1 x).update_of_notMem hxl y
  | cons y l₁ ih =>
    obtain ⟨hy, h⟩ := h
    have hxa : a ≠ x := (List.ne_of_not_mem_cons hx).symm
    have hlast : a ≠ (y :: l₁).getLastD a := by
      intro ha
      refine (List.nodup_cons.mp hnodup).1 (ha ▸ ?_)
      rw [List.getLastD_cons]
      exact List.mem_append_left l₂ (List.getLastD_mem_cons)
    refine ⟨?_, ?_⟩
    · rw [Function.update_of_ne hxa, Function.update_of_ne hlast, hy]
    · rw [List.getLastD_cons]
      exact ih h (List.nodup_cons.mp hnodup).2 (List.not_mem_of_not_mem_cons hx)

theorem remove (h : Leads f a (l₁ ++ x :: l₂) b) (hnodup : (a :: (l₁ ++ x :: l₂)).Nodup) :
    Leads (Function.update f (l₁.getLastD a) (f x)) a (l₁ ++ l₂) b := by
  induction l₁ generalizing a with
  | nil =>
    have hnot : a ∉ l₂ := List.not_mem_of_not_mem_cons (List.nodup_cons.mp hnodup).1
    have hfirst : Function.update f a (f x) a = f x := Function.update_self ..
    cases l₂ with
    | nil => exact hfirst.trans h.2
    | cons y l₂ => exact ⟨hfirst.trans h.2.1, h.2.2.update_of_notMem hnot _⟩
  | cons y l₁ ih =>
    obtain ⟨hy, h⟩ := h
    have hlast : a ≠ (y :: l₁).getLastD a := by
      intro ha
      refine (List.nodup_cons.mp hnodup).1 (ha ▸ ?_)
      rw [List.getLastD_cons]
      exact List.mem_append_left _ (List.getLastD_mem_cons)
    refine ⟨?_, ?_⟩
    · rw [Function.update_of_ne hlast, hy]
    · rw [List.getLastD_cons]
      exact ih h (List.nodup_cons.mp hnodup).2

end Leads

/-- A loop along the links until it is back at the head or the body breaks it off, for a number
of rounds. -/
def loop (f : α → α) [DecidableEq α] (head : α) (body : α → σ → σ ⊕ β) :
    ℕ → α → σ → Option (σ ⊕ β)
  | 0, _, _ => none
  | fuel + 1, pos, st =>
    if pos = head then some (.inl st)
    else
      match body pos st with
      | .inl st => loop f head body fuel (f pos) st
      | .inr r => some (.inr r)

/-- The same loop over a list. -/
def visit (body : α → σ → σ ⊕ β) : List α → σ → σ ⊕ β
  | [], st => .inl st
  | x :: l, st =>
    match body x st with
    | .inl st => visit body l st
    | .inr r => .inr r

theorem Leads.loop_eq [DecidableEq α] {body : α → σ → σ ⊕ β} {fuel : ℕ} {st : σ}
    (h : Leads f a l head) (hhead : head ∉ l) (hfuel : l.length < fuel) :
    loop f head body fuel (f a) st = some (visit body l st) := by
  induction l generalizing a fuel st with
  | nil =>
    obtain ⟨fuel, rfl⟩ := Nat.exists_eq_add_of_lt hfuel
    exact if_pos h
  | cons x l ih =>
    obtain ⟨fuel, rfl⟩ := Nat.exists_eq_succ_of_ne_zero (Nat.ne_of_gt (Nat.zero_lt_of_lt hfuel))
    obtain ⟨hx, h⟩ := h
    rw [hx, loop, if_neg (List.ne_of_not_mem_cons hhead).symm, visit]
    cases body x st with
    | inl st => exact ih h (List.not_mem_of_not_mem_cons hhead) (Nat.lt_of_succ_lt_succ hfuel)
    | inr r => rfl

/-- A loop that counts its rounds ends at the item where it breaks off. -/
theorem visit_at {body : α → σ → σ ⊕ α} {c : ℕ → σ} {k : ℕ}
    (hmiss : ∀ m < k, ∀ y, body y (c m) = .inl (c (m + 1)))
    (hhit : ∀ y, body y (c k) = .inr y) (l : List α) :
    visit body l (c 0) = (l[k]?).elim (.inl (c l.length)) .inr := by
  induction l generalizing k c with
  | nil => rfl
  | cons x l ih =>
    rw [visit]
    cases k with
    | zero =>
      rw [hhit]
      rfl
    | succ k =>
      rw [hmiss 0 (Nat.succ_pos k)]
      exact ih (c := fun m => c (m + 1)) (fun m hm => hmiss (m + 1) (Nat.succ_lt_succ hm)) hhit

namespace Links

variable {s t : Links α}

/-- The links the other way round. -/
def flip (s : Links α) : Links α := ⟨s.prev, s.next⟩

/-- The items of a list stand between a head and itself, and no node is there twice. -/
structure Ring (s : Links α) (head : α) (l : List α) : Prop where
  next : Leads s.next head l head
  prev : Leads s.prev head l.reverse head
  nodup : (head :: l).Nodup

variable [DecidableEq α]

def link (s : Links α) (x p n : α) : Links α where
  next := Function.update (Function.update s.next p x) x n
  prev := Function.update (Function.update s.prev x p) n x

def unlink (s : Links α) (x : α) : Links α where
  next := Function.update s.next (s.prev x) (s.next x)
  prev := Function.update s.prev (s.next x) (s.prev x)

/-- A node that is its own ring. -/
def single (s : Links α) (head : α) : Links α where
  next := Function.update s.next head head
  prev := Function.update s.prev head head

namespace Ring

omit [DecidableEq α] in
theorem notMem (h : s.Ring head l) : head ∉ l := (List.nodup_cons.mp h.nodup).1

omit [DecidableEq α] in
theorem unique (h₁ : s.Ring head l₁) (h₂ : s.Ring head l₂) : l₁ = l₂ :=
  h₁.next.unique h₂.next h₁.notMem h₂.notMem

omit [DecidableEq α] in
theorem flip (h : s.Ring head l) : s.flip.Ring head l.reverse where
  next := h.prev
  prev := by rw [List.reverse_reverse]; exact h.next
  nodup := ((List.reverse_perm l).cons head).nodup_iff.mpr h.nodup

omit [DecidableEq α] in
theorem flip_at (h : s.Ring head (l₁ ++ x :: l₂)) :
    s.flip.Ring head (l₂.reverse ++ x :: l₁.reverse) := by
  have hflip := h.flip
  rwa [List.reverse_append, List.reverse_cons, List.append_assoc] at hflip

omit [DecidableEq α] in
theorem prev_eq (h : s.Ring head (l₁ ++ x :: l₂)) : s.prev x = l₁.getLastD head := by
  simpa [Links.flip] using h.flip_at.next.last

theorem loop_next {body : α → σ → σ ⊕ β} {fuel : ℕ} (h : s.Ring head l)
    (hfuel : l.length < fuel) (st : σ) :
    loop s.next head body fuel (s.next head) st = some (visit body l st) :=
  h.next.loop_eq h.notMem hfuel

theorem loop_prev {body : α → σ → σ ⊕ β} {fuel : ℕ} (h : s.Ring head l)
    (hfuel : l.length < fuel) (st : σ) :
    loop s.prev head body fuel (s.prev head) st = some (visit body l.reverse st) :=
  h.flip.loop_next (by rwa [List.length_reverse]) st

omit [DecidableEq α] in
theorem congr (h : s.Ring head l) (hnext : ∀ y ∈ head :: l, t.next y = s.next y)
    (hprev : ∀ y ∈ head :: l, t.prev y = s.prev y) : t.Ring head l where
  next := h.next.congr hnext
  prev := h.prev.congr fun y hy => hprev y (by simpa using hy)
  nodup := h.nodup

theorem single (s : Links α) (head : α) : (s.single head).Ring head [] where
  next := Function.update_self ..
  prev := Function.update_self ..
  nodup := List.nodup_cons.mpr ⟨List.not_mem_nil, List.nodup_nil⟩

theorem link (h : s.Ring head (l₁ ++ l₂)) (hx : x ∉ head :: (l₁ ++ l₂)) :
    (s.link x (l₁.getLastD head) (l₂.headD head)).Ring head (l₁ ++ x :: l₂) where
  next := h.next.insert h.nodup hx
  prev := by
    have hne : l₂.headD head ≠ x := by
      refine ne_of_mem_of_not_mem ?_ hx
      cases l₂ <;> simp
    have hflip := h.flip
    rw [List.reverse_append] at hflip
    have hput := hflip.next.insert hflip.nodup (x := x) (by simpa [or_comm, and_comm] using hx)
    rw [Links.link, Function.update_comm hne.symm]
    simpa [Links.flip] using hput
  nodup := by
    have hmiddle : (x :: head :: (l₁ ++ l₂)).Nodup := List.nodup_cons.mpr ⟨hx, h.nodup⟩
    have hperm : (x :: head :: (l₁ ++ l₂)).Perm (head :: (l₁ ++ x :: l₂)) :=
      (List.Perm.swap head x _).trans (List.perm_middle.symm.cons head)
    exact hperm.nodup_iff.mp hmiddle

theorem unlink (h : s.Ring head (l₁ ++ x :: l₂)) : (s.unlink x).Ring head (l₁ ++ l₂) where
  next := by
    rw [Links.unlink, h.prev_eq]
    exact h.next.remove h.nodup
  prev := by
    have hflip := h.flip_at
    have hremove := hflip.next.remove hflip.nodup
    rw [Links.unlink, h.next.last]
    simpa [Links.flip] using hremove
  nodup := by
    have hsub : (l₁ ++ l₂).Sublist (l₁ ++ x :: l₂) :=
      List.Sublist.append (List.Sublist.refl l₁) (List.sublist_cons_self x l₂)
    exact h.nodup.sublist (hsub.cons_cons head)

theorem link_elsewhere (h : s.Ring head l) (hx : x ∉ head :: l) (hp : p ∉ head :: l)
    (hn : n ∉ head :: l) : (s.link x p n).Ring head l := by
  refine h.congr (fun y hy => ?_) fun y hy => ?_
  · exact (Function.update_of_ne (ne_of_mem_of_not_mem hy hx) ..).trans
      (Function.update_of_ne (ne_of_mem_of_not_mem hy hp) ..)
  · exact (Function.update_of_ne (ne_of_mem_of_not_mem hy hn) ..).trans
      (Function.update_of_ne (ne_of_mem_of_not_mem hy hx) ..)

theorem unlink_elsewhere (h : s.Ring head l) (hp : s.prev x ∉ head :: l)
    (hn : s.next x ∉ head :: l) : (s.unlink x).Ring head l :=
  h.congr (fun _ hy => Function.update_of_ne (ne_of_mem_of_not_mem hy hp) ..)
    fun _ hy => Function.update_of_ne (ne_of_mem_of_not_mem hy hn) ..

omit [DecidableEq α] in
theorem neighbours (h : s.Ring head (l₁ ++ x :: l₂)) :
    s.prev x ∈ head :: (l₁ ++ x :: l₂) ∧ s.next x ∈ head :: (l₁ ++ x :: l₂) := by
  rw [h.prev_eq, h.next.last]
  constructor
  · exact List.cons_subset_cons head (List.subset_append_left l₁ _) List.getLastD_mem_cons
  · cases l₂ <;> simp

end Ring

end Links

end LibPrelude
