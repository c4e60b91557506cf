import Mathlib.Data.Multiset.AddSub

/-! # Blocks with counted references

A block is allocated once, with one reference to it, and is there as long as references
to it are left. The references to all blocks are kept as a multiset; giving one up has no
result when none is left.
-/

namespace LibPrelude

/-- The number of blocks allocated so far, which is the next block, and the references. -/
structure Blocks where
  next : ℕ
  held : Multiset ℕ

namespace Blocks

variable {h h' : Blocks} {b n : ℕ} {bs cs : List ℕ}

def empty : Blocks := ⟨0, 0⟩

def allocs (h : Blocks) (n : ℕ) : List ℕ × Blocks :=
  (List.range' h.next n, ⟨h.next + n, ↑(List.range' h.next n) + h.held⟩)

def alloc (h : Blocks) : ℕ × Blocks := (h.next, ⟨h.next + 1, h.next ::ₘ h.held⟩)

def ref (h : Blocks) (b : ℕ) : Option Blocks :=
  if b ∈ h.held then some ⟨h.next, b ::ₘ h.held⟩ else none

def free (h : Blocks) (b : ℕ) : Option Blocks :=
  if b ∈ h.held then some ⟨h.next, h.held.erase b⟩ else none

def frees : List ℕ → Blocks → Option Blocks
  | [], h => some h
  | b :: bs, h => (h.free b).bind (frees bs)

def has (h : Blocks) (bs : List ℕ) : Bool := bs.all fun b => b ∈ h.held

theorem has_iff : h.has bs ↔ ∀ b ∈ bs, b ∈ h.held := by simp [has]

theorem held_alloc (h : Blocks) : h.alloc.2.held = {h.alloc.1} + h.held := rfl

theorem held_allocs (h : Blocks) (n : ℕ) :
    (h.allocs n).2.held = ↑(h.allocs n).1 + h.held := rfl

theorem frees_singleton : frees [b] h = h.free b := by
  rw [frees]
  cases h.free b <;> rfl

theorem ref_of_mem (hb : b ∈ h.held) : h.ref b = some ⟨h.next, b ::ₘ h.held⟩ := if_pos hb

theorem frees_of_held (bs : List ℕ) (rest : Multiset ℕ) (hh : h.held = ↑bs + rest) :
    ∃ h', frees bs h = some h' ∧ h'.held = rest := by
  induction bs generalizing h with
  | nil => exact ⟨h, rfl, by simpa using hh⟩
  | cons b bs ih =>
    have hcons : h.held = b ::ₘ (↑bs + rest) := by
      rw [hh, ← Multiset.cons_coe, Multiset.cons_add]
    have hfree : h.free b = some ⟨h.next, ↑bs + rest⟩ := by
      rw [free, hcons, if_pos (Multiset.mem_cons_self _ _), Multiset.erase_cons_head]
    rw [frees, hfree]
    exact ih rfl

theorem free_of_held (b : ℕ) (rest : Multiset ℕ) (hh : h.held = b ::ₘ rest) :
    ∃ h', h.free b = some h' ∧ h'.held = rest := by
  have hfrees := frees_of_held [b] rest (by simpa using hh)
  rwa [frees_singleton] at hfrees

end Blocks

end LibPrelude
