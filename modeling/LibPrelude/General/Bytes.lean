import Mathlib.Data.List.Basic
import Mathlib.Tactic.Positivity
import Mathlib.Tactic.Ring

/-! # Fixed-width integers and bounded buffers

Integers are laid out in a fixed number of bytes, most significant first. A
buffer is a list of bytes of the allocated length; an access outside of it has
no result.
-/

namespace Bytes

/-- The `k` low-order bytes of a number, most significant first. -/
def beBytes : ℕ → ℕ → List UInt8
  | 0, _ => []
  | k + 1, n => UInt8.ofNat (n / 256 ^ k) :: beBytes k n

def ofBe : List UInt8 → ℕ
  | [] => 0
  | b :: bs => b.toNat * 256 ^ bs.length + ofBe bs

/-- The `k` low-order bytes of a number, least significant first. -/
def leBytes (k n : ℕ) : List UInt8 := (beBytes k n).reverse

def ofLe (bs : List UInt8) : ℕ := ofBe bs.reverse

@[simp] theorem length_beBytes (k n : ℕ) : (beBytes k n).length = k := by
  induction k with
  | zero => rfl
  | succ k ih => simp [beBytes, ih]

@[simp] theorem length_leBytes (k n : ℕ) : (leBytes k n).length = k := by simp [leBytes]

theorem ofBe_beBytes (k n : ℕ) : ofBe (beBytes k n) = n % 256 ^ k := by
  induction k with
  | zero => simp [beBytes, ofBe, Nat.mod_one]
  | succ k ih =>
    have hd : (UInt8.ofNat (n / 256 ^ k)).toNat = n / 256 ^ k % 256 := by simp
    rw [beBytes, ofBe, ih, hd, length_beBytes, pow_succ, Nat.mod_mul]
    ring

theorem ofBe_lt (bs : List UInt8) : ofBe bs < 256 ^ bs.length := by
  induction bs with
  | nil => simp [ofBe]
  | cons b bs ih =>
    have hb : b.toNat + 1 ≤ 256 := b.toNat_lt
    calc ofBe (b :: bs) < b.toNat * 256 ^ bs.length + 256 ^ bs.length := by
          simp only [ofBe]; omega
      _ = (b.toNat + 1) * 256 ^ bs.length := by ring
      _ ≤ 256 * 256 ^ bs.length := Nat.mul_le_mul_right _ hb
      _ = 256 ^ (b :: bs).length := by rw [List.length_cons, pow_succ]; ring

theorem ofBe_beBytes_of_lt {k n : ℕ} (h : n < 256 ^ k) : ofBe (beBytes k n) = n := by
  rw [ofBe_beBytes, Nat.mod_eq_of_lt h]

theorem beBytes_add_mul (k n a : ℕ) : beBytes k (n + a * 256 ^ k) = beBytes k n := by
  induction k generalizing a with
  | zero => rfl
  | succ k ih =>
    have hmul : a * 256 ^ (k + 1) = a * 256 * 256 ^ k := by rw [pow_succ]; ring
    have hdiv : (n + a * 256 * 256 ^ k) / 256 ^ k = n / 256 ^ k + a * 256 :=
      Nat.add_mul_div_right _ _ (by positivity)
    rw [beBytes, beBytes, hmul, ih, hdiv]
    congr 1
    rw [← UInt8.toNat_inj]
    simp

theorem beBytes_ofBe (bs : List UInt8) : beBytes bs.length (ofBe bs) = bs := by
  induction bs with
  | nil => rfl
  | cons b bs ih =>
    have hdiv : (ofBe bs + b.toNat * 256 ^ bs.length) / 256 ^ bs.length = b.toNat := by
      rw [Nat.add_mul_div_right _ _ (by positivity), Nat.div_eq_of_lt (ofBe_lt bs), Nat.zero_add]
    rw [List.length_cons, beBytes, ofBe, Nat.add_comm, hdiv, beBytes_add_mul, ih,
      UInt8.ofNat_toNat]

theorem ofLe_leBytes_of_lt {k n : ℕ} (h : n < 256 ^ k) : ofLe (leBytes k n) = n := by
  simp [ofLe, leBytes, ofBe_beBytes_of_lt h]

theorem ofLe_lt (bs : List UInt8) : ofLe bs < 256 ^ bs.length := by
  simpa [ofLe] using ofBe_lt bs.reverse

theorem toNat_add_of_lt {x y : UInt32} (h : x.toNat + y.toNat < 2 ^ 32) :
    (x + y).toNat = x.toNat + y.toNat := by
  rw [UInt32.toNat_add, Nat.mod_eq_of_lt h]

theorem toNat_add_ofNat {x : UInt32} {n : ℕ} (h : x.toNat + n < 2 ^ 32) :
    (x + UInt32.ofNat n).toNat = x.toNat + n := by
  rw [UInt32.toNat_add, UInt32.toNat_ofNat']; omega

theorem add_ofNat_add_ofNat (x : UInt32) (a b : ℕ) :
    x + UInt32.ofNat a + UInt32.ofNat b = x + UInt32.ofNat (a + b) := by
  rw [UInt32.ofNat_add, UInt32.add_assoc]

section Buffer

variable {α : Type*}

/-- Copy elements into a buffer at an offset; there is no result when they do not fit. -/
def store (buf : List α) (off : ℕ) (xs : List α) : Option (List α) :=
  if off + xs.length ≤ buf.length then
    some (buf.take off ++ xs ++ buf.drop (off + xs.length))
  else none

/-- Read elements of a buffer at an offset; there is no result outside of the buffer. -/
def load (buf : List α) (off n : ℕ) : Option (List α) :=
  if off + n ≤ buf.length then some ((buf.drop off).take n) else none

theorem store_eq_some {buf xs : List α} {off : ℕ} (h : off + xs.length ≤ buf.length) :
    store buf off xs = some (buf.take off ++ xs ++ buf.drop (off + xs.length)) := if_pos h

theorem load_eq_some {buf : List α} {off n : ℕ} (h : off + n ≤ buf.length) :
    load buf off n = some ((buf.drop off).take n) := if_pos h

theorem length_of_store {buf buf' xs : List α} {off : ℕ} (h : store buf off xs = some buf') :
    buf'.length = buf.length := by
  unfold store at h
  split at h
  · cases h; simp; omega
  · cases h

theorem take_append_of_length {xs ys : List α} {k : ℕ} (h : xs.length = k) (j : ℕ) :
    (xs ++ ys).take (k + j) = xs ++ ys.take j := by
  rw [← h, List.take_length_add_append]

/-- Two adjacent copies are one copy. -/
theorem store_store (buf xs ys : List α) (off : ℕ) :
    (store buf off xs).bind (fun b => store b (off + xs.length) ys) = store buf off (xs ++ ys) := by
  by_cases h : off + xs.length + ys.length ≤ buf.length
  · have hl : (buf.take off ++ xs).length = off + xs.length := by simp; omega
    rw [store_eq_some (by omega), Option.bind_some,
      store_eq_some (by simp; omega), store_eq_some (by simp; omega)]
    congr 1
    rw [List.take_left' hl, List.drop_append, List.drop_eq_nil_of_le (by omega), hl,
      List.drop_drop, List.nil_append, List.length_append]
    simp only [List.append_assoc]
    congr 4
    omega
  · have hn : store buf off (xs ++ ys) = none := if_neg (by simp; omega)
    rw [hn]
    unfold store
    split
    · rw [Option.bind_some, if_neg (by simp; omega)]
    · rfl

end Buffer

end Bytes
