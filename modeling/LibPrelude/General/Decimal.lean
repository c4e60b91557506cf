import Mathlib.Data.Nat.ModEq
import Mathlib.Tactic.Ring

/-! # Decimal digits

A number is written with as many digits as it has, or with more that are zero.
-/

/-- The low digits of a number, most significant first. -/
def decimals : ℕ → ℕ → List UInt8
  | 0, _ => []
  | w + 1, n => decimals w (n / 10) ++ [.ofNat (48 + n % 10)]

/-- The sign that a text begins with, whether it is a minus and how long it is, and what follows. -/
def splitSign : List UInt8 → Bool × ℕ × List UInt8
  | 45 :: bs => (true, 1, bs)
  | 43 :: bs => (false, 1, bs)
  | bs => (false, 0, bs)

/-- The number of digits of a number that has no more than the fuel and one. -/
def decimalWidth : ℕ → ℕ → ℕ
  | 0, _ => 1
  | fuel + 1, n => if n < 10 then 1 else decimalWidth fuel (n / 10) + 1

@[simp] theorem length_decimals (w n : ℕ) : (decimals w n).length = w := by
  induction w generalizing n with
  | zero => rfl
  | succ w ih => simp [decimals, ih]

theorem splitSign_digit {b : UInt8} (hb : 48 ≤ b.toNat) (bs : List UInt8) :
    splitSign (b :: bs) = (false, 0, b :: bs) := by
  have hminus : b ≠ 45 := by
    rintro rfl
    exact absurd hb (by decide)
  have hplus : b ≠ 43 := by
    rintro rfl
    exact absurd hb (by decide)
  unfold splitSign
  split
  · rename_i h
    exact absurd (List.cons.inj h).1 hminus
  · rename_i h
    exact absurd (List.cons.inj h).1 hplus
  · rfl

theorem decimals_succ (w n : ℕ) :
    decimals (w + 1) n = .ofNat (48 + n / 10 ^ w % 10) :: decimals w n := by
  induction w generalizing n with
  | zero => simp [decimals]
  | succ w ih =>
    rw [decimals, ih, decimals, List.cons_append, Nat.div_div_eq_div_mul, pow_succ']

theorem toNat_digit (n : ℕ) : (UInt8.ofNat (48 + n % 10)).toNat = 48 + n % 10 := by
  rw [UInt8.toNat_ofNat']
  omega

theorem decimals_digit {w n : ℕ} {b : UInt8} (hb : b ∈ decimals w n) :
    48 ≤ b.toNat ∧ b.toNat ≤ 57 := by
  induction w generalizing n with
  | zero => cases hb
  | succ w ih =>
    rw [decimals, List.mem_append, List.mem_singleton] at hb
    obtain hb | rfl := hb
    · exact ih hb
    · rw [toNat_digit]
      omega

theorem decimalWidth_le {w : ℕ} (hw : 1 ≤ w) {n : ℕ} (hn : n < 10 ^ w) (fuel : ℕ) :
    decimalWidth fuel n ≤ w := by
  induction fuel generalizing w n with
  | zero => exact hw
  | succ fuel ih =>
    rw [decimalWidth]
    split_ifs with h
    · exact hw
    · obtain ⟨w, rfl⟩ : ∃ k, w = k + 1 := ⟨w - 1, by omega⟩
      have hw' : 1 ≤ w := by
        by_contra hzero
        obtain rfl : w = 0 := by omega
        omega
      have hn' : n / 10 < 10 ^ w := by
        rw [pow_succ] at hn
        omega
      have := ih hw' hn'
      omega

theorem lt_decimalWidth {w n fuel : ℕ} (hn : 10 ^ w ≤ n) (hfuel : w ≤ fuel) :
    w < decimalWidth fuel n := by
  induction fuel generalizing w n with
  | zero =>
    obtain rfl : w = 0 := by omega
    exact Nat.one_pos
  | succ fuel ih =>
    rw [decimalWidth]
    split_ifs with h
    · by_contra hge
      have : 10 ^ 1 ≤ 10 ^ w := Nat.pow_le_pow_right (by decide) (by omega)
      omega
    · cases w with
      | zero => exact Nat.succ_pos _
      | succ w =>
        have hn' : 10 ^ w ≤ n / 10 := by
          rw [pow_succ] at hn
          omega
        have := ih hn' (by omega)
        omega
