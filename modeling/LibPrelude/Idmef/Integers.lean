import LibPrelude.Idmef.ValueType

/-! # Comparing integers

The bytewise comparison tells equal integers from different ones, but it orders
them as integers only where the first byte in memory that differs does: on a
big-endian machine that is so unless the signs differ, on a little-endian one the
least significant difference has to agree with the order.
-/

namespace LibPrelude

open Bytes

inductive Relation where
  | eq
  | ne
  | lt
  | le
  | gt
  | ge
  deriving DecidableEq

namespace Relation

def operator : Relation → Operator
  | eq => criterionEqual
  | ne => criterionNotEqual
  | lt => criterionLesser
  | le => criterionLesserOrEqual
  | gt => criterionGreater
  | ge => criterionGreaterOrEqual

def Holds : Relation → ℤ → ℤ → Prop
  | eq, a, b => a = b
  | ne, a, b => a ≠ b
  | lt, a, b => a < b
  | le, a, b => a ≤ b
  | gt, a, b => a > b
  | ge, a, b => a ≥ b

/-- Whether the relation holds of two things that compare so. -/
def admits : Relation → Ordering → Bool
  | eq, o => o = .eq
  | ne, o => o ≠ .eq
  | lt, o => o = .lt
  | le, o => o ≠ .gt
  | gt, o => o = .gt
  | ge, o => o ≠ .lt

/-- Equality and its negation do not look at the order. -/
def Unordered (r : Relation) : Prop := r = eq ∨ r = ne

theorem holds_iff (r : Relation) (a b : ℤ) : r.Holds a b ↔ r.admits (compare a b) := by
  rcases lt_trichotomy a b with h | h | h
  · rw [compare_lt_iff_lt.mpr h]
    cases r <;> simp [Holds, admits] <;> omega
  · rw [compare_eq_iff_eq.mpr h]
    cases r <;> simp [Holds, admits, h]
  · rw [compare_gt_iff_gt.mpr h]
    cases r <;> simp [Holds, admits] <;> omega

theorem admits_iff_admits (r : Relation) {o o' : Ordering} (h : o = .eq ↔ o' = .eq) :
    (r.admits o ↔ r.admits o') ↔ r.Unordered ∨ o = o' := by
  revert h
  unfold Unordered
  cases r <;> cases o <;> cases o' <;> decide

end Relation

theorem satisfies_operator (o : Ordering) (r : Relation) :
    (if r.operator.not then
      (if (if satisfies (signOf o) r.operator.positive < 0 then 1
        else satisfies (signOf o) r.operator.positive) = 0 then 1 else 0)
    else if satisfies (signOf o) r.operator.positive < 0 then 1
      else satisfies (signOf o) r.operator.positive) = (if r.admits o then (0 : ℤ) else 1) := by
  cases r <;> cases o <;> decide

def byteAt (size : ℕ) (v : ℤ) (i : ℕ) : ℕ := (v % 256 ^ size).toNat / 256 ^ i % 256

/-- Whether the bytes in memory are in the order of the integers. -/
def BytesAgree (order : ByteOrder) (t : IntegerType) (a b : ℤ) : Prop :=
  match order with
  | .big => t.signed → (a < 0 ↔ b < 0)
  | .little => a = b ∨ ∃ i < t.size, (∀ j < i, byteAt t.size a j = byteAt t.size b j) ∧
      byteAt t.size a i ≠ byteAt t.size b i ∧ (byteAt t.size a i < byteAt t.size b i ↔ a < b)

variable {t : IntegerType} {a b : ℤ}

theorem toNat_emod (h : t.InRange a) :
    ((a % 256 ^ t.size).toNat : ℤ) = if a < 0 then a + 256 ^ t.size else a := by
  unfold IntegerType.InRange at h
  have hp : (0 : ℤ) < 256 ^ t.size := by positivity
  have heven : 256 ^ t.size / 2 * 2 = (256 : ℤ) ^ t.size := by cases t <;> rfl
  rw [Int.toNat_of_nonneg (Int.emod_nonneg _ hp.ne')]
  split_ifs with hneg
  · split_ifs at h
    · rw [← Int.add_emod_right, Int.emod_eq_of_lt (by omega) (by omega)]
    · omega
  · rw [Int.emod_eq_of_lt (by omega)]
    split_ifs at h <;> omega

theorem emod_inj (ha : t.InRange a) (hb : t.InRange b)
    (h : (a % 256 ^ t.size).toNat = (b % 256 ^ t.size).toNat) : a = b := by
  have hea := toNat_emod ha
  have heb := toNat_emod hb
  have hp : (0 : ℤ) < 256 ^ t.size := by positivity
  have heven : 256 ^ t.size / 2 * 2 = (256 : ℤ) ^ t.size := by cases t <;> rfl
  unfold IntegerType.InRange at ha hb
  rw [h] at hea
  split_ifs at hea heb ha hb <;> omega

def compareBytes (order : ByteOrder) (t : IntegerType) (a b : ℤ) : Ordering :=
  memcmp (represent order t.size a) (represent order t.size b)

theorem toNat_emod_lt (size : ℕ) (v : ℤ) : (v % 256 ^ size).toNat < 256 ^ size := by
  have hp : (0 : ℤ) < 256 ^ size := by positivity
  have h := Int.emod_lt_of_pos v hp
  have h0 := Int.emod_nonneg v hp.ne'
  exact (Int.toNat_lt h0).mpr (by exact_mod_cast h)

theorem compareBytes_big : compareBytes .big t a b =
    compare (a % 256 ^ t.size).toNat (b % 256 ^ t.size).toNat := by
  unfold compareBytes represent
  simp only []
  rw [memcmp_beBytes, Nat.mod_eq_of_lt (toNat_emod_lt _ _), Nat.mod_eq_of_lt (toNat_emod_lt _ _)]

theorem compareBytes_little_lt : compareBytes .little t a b = .lt ↔
    ∃ i < t.size, (∀ j < i, byteAt t.size a j = byteAt t.size b j) ∧
      byteAt t.size a i < byteAt t.size b i :=
  memcmp_leBytes_lt _ _ _

theorem compareBytes_swap (order : ByteOrder) :
    (compareBytes order t a b).swap = compareBytes order t b a :=
  memcmp_swap _ _

theorem compareBytes_eq (order : ByteOrder) (ha : t.InRange a) (hb : t.InRange b) :
    compareBytes order t a b = .eq ↔ a = b := by
  refine ⟨fun h => ?_, fun h => by rw [h]; exact memcmp_self _⟩
  unfold compareBytes at h
  rw [memcmp_eq_compare_ofBe (by cases order <;> simp [represent])] at h
  have hof := compare_eq_iff_eq.mp h
  refine emod_inj ha hb ?_
  have hlt := toNat_emod_lt t.size
  cases order with
  | big => rwa [represent, represent, ofBe_beBytes_of_lt (hlt a), ofBe_beBytes_of_lt (hlt b)] at hof
  | little =>
    have hbytes : leBytes t.size (a % 256 ^ t.size).toNat =
        leBytes t.size (b % 256 ^ t.size).toNat := by
      have hlen : (represent .little t.size a).length = (represent .little t.size b).length := by
        simp [represent]
      have hinv := beBytes_ofBe (represent .little t.size a)
      rw [hof, hlen, beBytes_ofBe] at hinv
      exact hinv.symm
    rw [← ofLe_leBytes_of_lt (hlt a), hbytes, ofLe_leBytes_of_lt (hlt b)]

theorem bytesAgree_big (ha : t.InRange a) (hb : t.InRange b) :
    BytesAgree .big t a b ↔ compareBytes .big t a b = compare a b := by
  rw [compareBytes_big]
  have hea := toNat_emod ha
  have heb := toNat_emod hb
  have hp : (0 : ℤ) < 256 ^ t.size := by positivity
  have heven : 256 ^ t.size / 2 * 2 = (256 : ℤ) ^ t.size := by cases t <;> rfl
  unfold IntegerType.InRange at ha hb
  generalize (a % 256 ^ t.size).toNat = x at hea ⊢
  generalize (b % 256 ^ t.size).toNat = y at heb ⊢
  unfold BytesAgree
  constructor
  · intro h
    have hmono : (x < y ↔ a < b) ∧ (x = y ↔ a = b) := by
      by_cases hs : t.signed
      · have hsign : a < 0 ↔ b < 0 := h hs
        rw [if_pos hs] at ha hb
        split_ifs at hea heb <;> omega
      · rw [if_neg hs] at ha hb
        split_ifs at hea heb <;> omega
    rcases lt_trichotomy a b with hab | hab | hab
    · rw [compare_lt_iff_lt.mpr hab, compare_lt_iff_lt.mpr (hmono.1.mpr hab)]
    · rw [compare_eq_iff_eq.mpr hab, compare_eq_iff_eq.mpr (hmono.2.mpr hab)]
    · rw [compare_gt_iff_gt.mpr hab, compare_gt_iff_gt.mpr (by omega)]
  · intro h hs
    rw [if_pos hs] at ha hb
    by_contra hsign
    rcases lt_trichotomy a b with hab | hab | hab
    · rw [compare_lt_iff_lt.mpr hab, compare_lt_iff_lt] at h
      split_ifs at hea heb <;> omega
    · exact hsign (by rw [hab])
    · rw [compare_gt_iff_gt.mpr hab, compare_gt_iff_gt] at h
      split_ifs at hea heb <;> omega

theorem bytesAgree_little (ha : t.InRange a) (hb : t.InRange b) :
    BytesAgree .little t a b ↔ compareBytes .little t a b = compare a b := by
  unfold BytesAgree
  rcases lt_trichotomy a b with hab | hab | hab
  · rw [compare_lt_iff_lt.mpr hab, compareBytes_little_lt]
    constructor
    · rintro (h | ⟨i, hi, hj, -, hlt⟩)
      · omega
      · exact ⟨i, hi, hj, hlt.mpr hab⟩
    · rintro ⟨i, hi, hj, hlt⟩
      exact Or.inr ⟨i, hi, hj, hlt.ne, iff_of_true hlt hab⟩
  · exact iff_of_true (Or.inl hab)
      (((compareBytes_eq _ ha hb).mpr hab).trans (compare_eq_iff_eq.mpr hab).symm)
  · have hswap : compareBytes .little t a b = .gt ↔ compareBytes .little t b a = .lt := by
      rw [← compareBytes_swap]
      cases compareBytes .little t b a <;> decide
    rw [compare_gt_iff_gt.mpr hab, hswap, compareBytes_little_lt]
    constructor
    · rintro (h | ⟨i, hi, hj, hne, hlt⟩)
      · omega
      · have hnot : ¬ byteAt t.size a i < byteAt t.size b i := fun h => by
          have := hlt.mp h
          omega
        exact ⟨i, hi, fun j hji => (hj j hji).symm, by omega⟩
    · rintro ⟨i, hi, hj, hlt⟩
      exact Or.inr ⟨i, hi, fun j hji => (hj j hji).symm, hlt.ne',
        iff_of_false (by omega) (by omega)⟩

theorem bytesAgree_iff (order : ByteOrder) (ha : t.InRange a) (hb : t.InRange b) :
    BytesAgree order t a b ↔ compareBytes order t a b = compare a b := by
  cases order with
  | big => exact bytesAgree_big ha hb
  | little => exact bytesAgree_little ha hb

theorem memory_integer (m : Machine) (t : IntegerType) (v w : ℤ) :
    (ValueType.integer t v).memory m (ValueType.integer t w).len = represent m.order t.size v :=
  List.take_left' (length_represent _ _ _)

/-- Comparing two integers gives zero or one, as the comparison of their bytes says. -/
theorem idmefValueTypeCompare_integer (m : Machine) (t : IntegerType) (a b : ℤ) (r : Relation) :
    idmefValueTypeCompare m (some (.integer t a)) (some (.integer t b)) r.operator =
      .ok (if r.admits (compareBytes m.order t a b) then 0 else 1) := by
  have hcmp : t.id.compare m = some (genericCompare m) := by cases t <;> rfl
  have hop : r.operator.inter t.id.operator ≠ {} := by cases t <;> cases r <;> decide
  have hgen : genericCompare m (some (.integer t a)) (some (.integer t b)) r.operator.positive =
      satisfies (signOf (compareBytes m.order t a b)) r.operator.positive := by
    rw [genericCompare, memory_integer, memory_integer]
    rfl
  have hid (v : ℤ) : (ValueType.integer t v).id = t.id := rfl
  simp only [idmefValueTypeCompare, Option.or, hid, hcmp, hgen, if_neg hop, ne_eq,
    not_true_eq_false, false_and, decide_false, Bool.false_eq_true, if_false]
  rw [← satisfies_operator]
  split_ifs <;> rfl

/-- Comparing two integers agrees with a relation between them exactly when the relation is one of
equality or the bytes of the integers in memory are in the order of the integers. -/
theorem integer_compare_iff (m : Machine) (t : IntegerType) (a b : ℤ) (r : Relation)
    (ha : t.InRange a) (hb : t.InRange b) :
    (idmefValueTypeCompare m (some (.integer t a)) (some (.integer t b)) r.operator = .ok 0 ↔
      r.Holds a b) ↔ r.Unordered ∨ BytesAgree m.order t a b := by
  have heq : compareBytes m.order t a b = .eq ↔ compare a b = .eq := by
    rw [compareBytes_eq _ ha hb, compare_eq_iff_eq]
  rw [bytesAgree_iff _ ha hb, ← r.admits_iff_admits heq, r.holds_iff,
    idmefValueTypeCompare_integer]
  split_ifs with h
  · simp [h]
  · simp [h]

def plainMachine (order : ByteOrder) : Machine :=
  ⟨order, fun _ _ _ => false, fun _ => 0, plainOverlay⟩

theorem integer_compare_uint8 :
    idmefValueTypeCompare (plainMachine .big) (some (.integer .uint8 3))
      (some (.integer .uint8 200)) Relation.lt.operator = .ok 0 ↔ Relation.lt.Holds 3 200 := by
  refine (integer_compare_iff (plainMachine .big) .uint8 3 200 .lt ?_ ?_).mpr (Or.inr ?_)
  · exact ⟨by decide, by decide⟩
  · exact ⟨by decide, by decide⟩
  · intro hs
    cases hs

/-- One is not found to be less than 256 on a little-endian machine, and minus one not less than
one on either machine. -/
theorem integer_compare_out_of_order :
    ¬ (idmefValueTypeCompare (plainMachine .little) (some (.integer .uint16 1))
      (some (.integer .uint16 256)) Relation.lt.operator = .ok 0 ↔ Relation.lt.Holds 1 256) ∧
    ∀ order, ¬ (idmefValueTypeCompare (plainMachine order) (some (.integer .int8 (-1)))
      (some (.integer .int8 1)) Relation.lt.operator = .ok 0 ↔ Relation.lt.Holds (-1) 1) := by
  have hlt : Relation.lt.Holds 1 256 ∧ Relation.lt.Holds (-1) 1 :=
    ⟨show (1 : ℤ) < 256 by decide, show (-1 : ℤ) < 1 by decide⟩
  refine ⟨fun h => ?_, fun order h => ?_⟩
  · have hno : idmefValueTypeCompare (plainMachine .little) (some (.integer .uint16 1))
        (some (.integer .uint16 256)) Relation.lt.operator = .ok 1 := rfl
    rw [hno] at h
    cases h.mpr hlt.1
  · have hno : idmefValueTypeCompare (plainMachine order) (some (.integer .int8 (-1)))
        (some (.integer .int8 1)) Relation.lt.operator = .ok 1 := by
      cases order <;> rfl
    rw [hno] at h
    cases h.mpr hlt.2

end LibPrelude
