import Mathlib.Data.List.Basic
import Mathlib.Tactic.IntervalCases

/-! # Base64

Three bytes are written as four characters of six bits each. One or two bytes that are left
over are followed by zero bits, and the characters missing from the last four are padding.
-/

namespace Base64

def alphabet : List UInt8 :=
  ((List.range 26).map fun i => UInt8.ofNat (65 + i)) ++
    ((List.range 26).map fun i => UInt8.ofNat (97 + i)) ++
    ((List.range 10).map fun i => UInt8.ofNat (48 + i)) ++ [43, 47]

def padding : UInt8 := 61

def digit (n : ℕ) : UInt8 := alphabet.getD n 0

def value (c : UInt8) : Option ℕ :=
  if 65 ≤ c ∧ c ≤ 90 then some (c.toNat - 65)
  else if 97 ≤ c ∧ c ≤ 122 then some (c.toNat - 97 + 26)
  else if 48 ≤ c ∧ c ≤ 57 then some (c.toNat - 48 + 52)
  else if c = 43 then some 62
  else if c = 47 then some 63
  else none

def encode : List UInt8 → List UInt8
  | [] => []
  | [a] => [digit (a.toNat / 4), digit (a.toNat % 4 * 16), padding, padding]
  | [a, b] =>
    [digit (a.toNat / 4), digit (a.toNat % 4 * 16 + b.toNat / 16), digit (b.toNat % 16 * 4),
      padding]
  | a :: b :: c :: bs =>
    digit (a.toNat / 4) :: digit (a.toNat % 4 * 16 + b.toNat / 16) ::
      digit (b.toNat % 16 * 4 + c.toNat / 64) :: digit (c.toNat % 64) :: encode bs

def decodeFour (a b c d : UInt8) : Option (List UInt8) := do
  let a ← value a
  let b ← value b
  let c ← value c
  let d ← value d
  return [.ofNat (a * 4 + b / 16), .ofNat (b % 16 * 16 + c / 4), .ofNat (c % 4 * 64 + d)]

/-- The bytes of the last four characters; the bits that padding leaves over are zero. -/
def decodeLast (a b c d : UInt8) : Option (List UInt8) :=
  if d ≠ padding then decodeFour a b c d
  else if c ≠ padding then do
    let a ← value a
    let b ← value b
    let c ← value c
    if c % 4 ≠ 0 then none
    return [.ofNat (a * 4 + b / 16), .ofNat (b % 16 * 16 + c / 4)]
  else do
    let a ← value a
    let b ← value b
    if b % 16 ≠ 0 then none
    return [.ofNat (a * 4 + b / 16)]

def decode : List UInt8 → Option (List UInt8)
  | [] => some []
  | [a, b, c, d] => decodeLast a b c d
  | a :: b :: c :: d :: cs => do
    let bytes ← decodeFour a b c d
    return bytes ++ (← decode cs)
  | _ => none

theorem length_alphabet : alphabet.length = 64 := by decide

theorem digit_mem {n : ℕ} (h : n < 64) : digit n ∈ alphabet := by
  have hlt : n < alphabet.length := length_alphabet ▸ h
  have heq : digit n = alphabet[n] := by simp [digit, hlt]
  rw [heq]
  exact List.getElem_mem _

theorem value_digit {n : ℕ} (h : n < 64) : value (digit n) = some n := by
  have hall : (List.range 64).all fun n => value (digit n) = some n := by decide
  simpa using List.all_eq_true.mp hall n (List.mem_range.mpr h)

theorem digit_ne_padding {n : ℕ} (h : n < 64) : digit n ≠ padding := by
  intro heq
  have := value_digit h
  rw [heq] at this
  cases this

theorem threes {motive : List UInt8 → Prop} (nil : motive []) (one : ∀ a, motive [a])
    (two : ∀ a b, motive [a, b]) (three : ∀ a b c bs, motive bs → motive (a :: b :: c :: bs)) :
    ∀ bs, motive bs
  | [] => nil
  | [a] => one a
  | [a, b] => two a b
  | a :: b :: c :: bs => three a b c bs (threes nil one two three bs)

section

variable (a b c : UInt8)

theorem sextets_lt : a.toNat / 4 < 64 ∧ a.toNat % 4 * 16 + b.toNat / 16 < 64 ∧
    b.toNat % 16 * 4 + c.toNat / 64 < 64 ∧ c.toNat % 64 < 64 := by
  have ha := a.toNat_lt
  have hb := b.toNat_lt
  have hc := c.toNat_lt
  omega

theorem ofNat_eq {n : ℕ} (h : n = a.toNat) : UInt8.ofNat n = a := by
  rw [h, UInt8.ofNat_toNat]

theorem decodeFour_digits :
    decodeFour (digit (a.toNat / 4)) (digit (a.toNat % 4 * 16 + b.toNat / 16))
      (digit (b.toNat % 16 * 4 + c.toNat / 64)) (digit (c.toNat % 64)) = some [a, b, c] := by
  obtain ⟨h₁, h₂, h₃, h₄⟩ := sextets_lt a b c
  have hb := b.toNat_lt
  have hc := c.toNat_lt
  simp only [decodeFour, value_digit h₁, value_digit h₂, value_digit h₃, value_digit h₄,
    Option.bind_eq_bind, Option.bind_some]
  rw [ofNat_eq a (by omega), ofNat_eq b (by omega), ofNat_eq c (by omega)]
  rfl

end

theorem decode_encode (bs : List UInt8) : decode (encode bs) = some bs := by
  induction bs using threes with
  | nil => rfl
  | one a =>
    obtain ⟨h₁, h₂, -, -⟩ := sextets_lt a 0 0
    have ha := a.toNat_lt
    have h₂ : a.toNat % 4 * 16 < 64 := by omega
    simp only [encode, decode, decodeLast, ne_eq, not_true_eq_false, if_false, value_digit h₁,
      value_digit h₂, Option.bind_eq_bind, Option.bind_some]
    rw [if_neg (by omega), ofNat_eq a (by omega)]
    rfl
  | two a b =>
    obtain ⟨h₁, h₂, -, -⟩ := sextets_lt a b 0
    have hb := b.toNat_lt
    have h₃ : b.toNat % 16 * 4 < 64 := by omega
    simp only [encode, decode, decodeLast, ne_eq, not_true_eq_false, if_false, value_digit h₁,
      value_digit h₂, value_digit h₃, digit_ne_padding h₃, not_false_eq_true, if_true,
      Option.bind_eq_bind, Option.bind_some]
    rw [if_neg (by omega), ofNat_eq a (by omega), ofNat_eq b (by omega)]
    rfl
  | three a b c bs ih =>
    obtain ⟨-, -, -, h₄⟩ := sextets_lt a b c
    rw [encode]
    rcases hbs : encode bs with _ | ⟨d, ds⟩
    · rw [hbs] at ih
      cases ih
      simp only [decode, decodeLast, ne_eq, digit_ne_padding h₄, not_false_eq_true, if_true]
      exact decodeFour_digits a b c
    · rw [hbs] at ih
      rw [decode, decodeFour_digits, ih]
      · rfl
      · nofun

theorem length_encode (bs : List UInt8) : (encode bs).length = 4 * ((bs.length + 2) / 3) := by
  induction bs using threes with
  | nil => rfl
  | one a => simp [encode]
  | two a b => simp [encode]
  | three a b c bs ih =>
    simp only [encode, List.length_cons, ih]
    omega

/-- Characters of the alphabet, then padding for the bytes missing from the last three. -/
theorem encode_padded (bs : List UInt8) : ∃ body, (∀ c ∈ body, c ∈ alphabet) ∧
    encode bs = body ++ List.replicate ((3 - bs.length % 3) % 3) padding := by
  induction bs using threes with
  | nil => exact ⟨[], by simp, rfl⟩
  | one a =>
    have ha := a.toNat_lt
    refine ⟨[digit (a.toNat / 4), digit (a.toNat % 4 * 16)], ?_, rfl⟩
    simp only [List.forall_mem_cons, List.not_mem_nil, IsEmpty.forall_iff, implies_true, and_true]
    exact ⟨digit_mem (by omega), digit_mem (by omega)⟩
  | two a b =>
    obtain ⟨h₁, h₂, -, -⟩ := sextets_lt a b 0
    have hb := b.toNat_lt
    refine ⟨[digit (a.toNat / 4), digit (a.toNat % 4 * 16 + b.toNat / 16),
      digit (b.toNat % 16 * 4)], ?_, rfl⟩
    simp only [List.forall_mem_cons, List.not_mem_nil, IsEmpty.forall_iff, implies_true, and_true]
    exact ⟨digit_mem h₁, digit_mem h₂, digit_mem (by omega)⟩
  | three a b c bs ih =>
    obtain ⟨body, hbody, heq⟩ := ih
    obtain ⟨h₁, h₂, h₃, h₄⟩ := sextets_lt a b c
    refine ⟨digit (a.toNat / 4) :: digit (a.toNat % 4 * 16 + b.toNat / 16) ::
      digit (b.toNat % 16 * 4 + c.toNat / 64) :: digit (c.toNat % 64) :: body, ?_, ?_⟩
    · simp only [List.forall_mem_cons]
      exact ⟨digit_mem h₁, digit_mem h₂, digit_mem h₃, digit_mem h₄, hbody⟩
    · rw [encode, heq]
      have hmod : (bs.length + 1 + 1 + 1) % 3 = bs.length % 3 := by omega
      simp only [List.length_cons, hmod, List.cons_append]

end Base64
