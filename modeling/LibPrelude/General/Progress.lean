import Mathlib.Data.Nat.Notation
import Mathlib.Order.Basic

/-! # Progress under any input

A machine takes steps with inputs that it does not choose, such as the time. It gets to a
property within so many steps when it does so whatever the inputs are.
-/

namespace LibPrelude

variable {ι σ : Type*} (step : ι → σ → Option σ) {P Q : σ → Prop} {n k : ℕ} {s : σ}

/-- The property holds, or any step leads to a state where it is nearer. -/
def Attains (P : σ → Prop) : ℕ → σ → Prop
  | 0, s => P s
  | n + 1, s => P s ∨ ∀ i, ∃ s', step i s = some s' ∧ Attains P n s'

def runFor (inputs : ℕ → ι) : ℕ → σ → Option σ
  | 0, s => some s
  | k + 1, s => (step (inputs 0) s).bind (runFor (fun n => inputs (n + 1)) k)

namespace Attains

variable {step}

theorem now (h : P s) : Attains step P n s := by
  cases n with
  | zero => exact h
  | succ n => exact .inl h

theorem next (h : ∀ i, ∃ s', step i s = some s' ∧ Attains step P n s') :
    Attains step P (n + 1) s := .inr h

theorem mono (h : Attains step P n s) (hle : n ≤ k) : Attains step P k s := by
  induction n generalizing k s with
  | zero => exact now h
  | succ n ih =>
    obtain ⟨k, rfl⟩ := Nat.exists_eq_add_of_le' (Nat.one_le_of_lt hle)
    rcases h with h | h
    · exact now h
    · refine next fun i => ?_
      obtain ⟨s', hs, h'⟩ := h i
      exact ⟨s', hs, ih h' (Nat.le_of_succ_le_succ hle)⟩

theorem trans (h : Attains step P n s) (hP : ∀ s, P s → Attains step Q k s) :
    Attains step Q (n + k) s := by
  induction n generalizing s with
  | zero => exact (hP s h).mono (Nat.le_add_left k 0)
  | succ n ih =>
    rw [Nat.add_right_comm]
    rcases h with h | h
    · exact (hP s h).mono (Nat.le_trans (Nat.le_add_left k n) (Nat.le_succ _))
    · refine next fun i => ?_
      obtain ⟨s', hs, h'⟩ := h i
      exact ⟨s', hs, ih h'⟩

theorem run (h : Attains step P n s) (inputs : ℕ → ι) :
    ∃ k ≤ n, ∃ s', runFor step inputs k s = some s' ∧ P s' := by
  induction n generalizing s inputs with
  | zero => exact ⟨0, Nat.le_refl 0, s, rfl, h⟩
  | succ n ih =>
    rcases h with h | h
    · exact ⟨0, Nat.zero_le _, s, rfl, h⟩
    · obtain ⟨s', hs, h'⟩ := h (inputs 0)
      obtain ⟨k, hk, s'', hrun, hP⟩ := ih h' fun n => inputs (n + 1)
      exact ⟨k + 1, Nat.succ_le_succ hk, s'', by rw [runFor, hs]; exact hrun, hP⟩

end Attains

end LibPrelude
