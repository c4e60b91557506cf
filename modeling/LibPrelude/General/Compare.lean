import LibPrelude.General.Bytes

/-! # Comparing blocks of bytes

Two blocks of the same length are compared by the first bytes that differ. For
integers laid out most significant byte first this is the order of the integers;
for the other layout the least significant difference decides.
-/

namespace Bytes

/-- The order of the first two bytes that differ. -/
def memcmp : List UInt8 → List UInt8 → Ordering
  | a :: as, b :: bs => (compare a.toNat b.toNat).then (memcmp as bs)
  | _, _ => .eq

@[simp] theorem memcmp_self (as : List UInt8) : memcmp as as = .eq := by
  induction as with
  | nil => rfl
  | cons a as ih => simp [memcmp, ih]

theorem memcmp_swap (as bs : List UInt8) : (memcmp as bs).swap = memcmp bs as := by
  induction as generalizing bs with
  | nil => cases bs <;> rfl
  | cons a as ih =>
    cases bs with
    | nil => rfl
    | cons b bs => rw [memcmp, memcmp, Ordering.swap_then, ih, Nat.compare_swap]

theorem memcmp_eq_compare_ofBe {as bs : List UInt8} (h : as.length = bs.length) :
    memcmp as bs = compare (ofBe as) (ofBe bs) := by
  induction as generalizing bs with
  | nil =>
    cases bs with
    | nil => rfl
    | cons b bs => simp at h
  | cons a as ih =>
    cases bs with
    | nil => simp at h
    | cons b bs =>
      have hl : as.length = bs.length := by simpa using h
      have hm : 0 < 256 ^ bs.length := by positivity
      have ha := ofBe_lt as
      have hb := ofBe_lt bs
      rw [memcmp, ih hl, ofBe, ofBe, hl]
      rw [hl] at ha
      rcases lt_trichotomy a.toNat b.toNat with hab | hab | hab
      · have hn : a.toNat + 1 ≤ b.toNat := hab
        have hle := Nat.mul_le_mul_right (256 ^ bs.length) hn
        have hlt : a.toNat * 256 ^ bs.length + ofBe as < b.toNat * 256 ^ bs.length + ofBe bs := by
          rw [Nat.add_mul] at hle
          omega
        rw [compare_lt_iff_lt.mpr hab, compare_lt_iff_lt.mpr hlt]
        rfl
      · rw [hab, compare_eq_iff_eq.mpr rfl]
        change compare (ofBe as) (ofBe bs) = _
        rcases lt_trichotomy (ofBe as) (ofBe bs) with h' | h' | h'
        · rw [compare_lt_iff_lt.mpr h', eq_comm, compare_lt_iff_lt]
          omega
        · rw [h', compare_eq_iff_eq.mpr rfl, compare_eq_iff_eq.mpr rfl]
        · rw [compare_gt_iff_gt.mpr h', eq_comm, compare_gt_iff_gt]
          omega
      · have hn : b.toNat + 1 ≤ a.toNat := hab
        have hle := Nat.mul_le_mul_right (256 ^ bs.length) hn
        have hgt : b.toNat * 256 ^ bs.length + ofBe bs < a.toNat * 256 ^ bs.length + ofBe as := by
          rw [Nat.add_mul] at hle
          omega
        rw [compare_gt_iff_gt.mpr hab, compare_gt_iff_gt.mpr hgt]
        rfl

theorem memcmp_beBytes (k m n : ℕ) :
    memcmp (beBytes k m) (beBytes k n) = compare (m % 256 ^ k) (n % 256 ^ k) := by
  rw [memcmp_eq_compare_ofBe (by simp), ofBe_beBytes, ofBe_beBytes]

/-- The first difference decides. -/
theorem memcmp_map_range (k : ℕ) (f g : ℕ → UInt8) :
    memcmp ((List.range k).map f) ((List.range k).map g) = .lt ↔
      ∃ i < k, (∀ j < i, f j = g j) ∧ (f i).toNat < (g i).toNat := by
  induction k generalizing f g with
  | zero => simp
  | succ k ih =>
    rw [List.range_succ_eq_map, List.map_cons, List.map_cons, memcmp, List.map_map, List.map_map,
      Ordering.then_eq_lt, ih]
    constructor
    · rintro (h | ⟨h, i, hi, hj, hlt⟩)
      · exact ⟨0, by omega, by simp, compare_lt_iff_lt.mp h⟩
      · refine ⟨i + 1, by omega, fun j hji => ?_, hlt⟩
        cases j with
        | zero => exact UInt8.toNat_inj.mp (compare_eq_iff_eq.mp h)
        | succ j => exact hj j (by omega)
    · rintro ⟨i, hi, hj, hlt⟩
      cases i with
      | zero => exact Or.inl (compare_lt_iff_lt.mpr hlt)
      | succ i =>
        refine Or.inr ⟨compare_eq_iff_eq.mpr (by rw [hj 0 (by omega)]), i, by omega,
          fun j hji => ?_, hlt⟩
        exact hj (j + 1) (by omega)

theorem beBytes_eq_map (k n : ℕ) :
    beBytes k n = ((List.range k).map fun i => UInt8.ofNat (n / 256 ^ i)).reverse := by
  induction k with
  | zero => rfl
  | succ k ih => rw [beBytes, ih, List.range_succ, List.map_append, List.reverse_append]; rfl

theorem leBytes_eq_map (k n : ℕ) :
    leBytes k n = (List.range k).map fun i => UInt8.ofNat (n / 256 ^ i) := by
  rw [leBytes, beBytes_eq_map, List.reverse_reverse]

theorem ofNat_eq_ofNat (m n : ℕ) : UInt8.ofNat m = UInt8.ofNat n ↔ m % 256 = n % 256 := by
  rw [← UInt8.toNat_inj, UInt8.toNat_ofNat', UInt8.toNat_ofNat']

/-- Least significant byte first, the least significant difference decides. -/
theorem memcmp_leBytes_lt (k m n : ℕ) :
    memcmp (leBytes k m) (leBytes k n) = .lt ↔
      ∃ i < k, (∀ j < i, m / 256 ^ j % 256 = n / 256 ^ j % 256) ∧
        m / 256 ^ i % 256 < n / 256 ^ i % 256 := by
  rw [leBytes_eq_map, leBytes_eq_map, memcmp_map_range]
  simp only [UInt8.toNat_ofNat', ofNat_eq_ofNat]

end Bytes
