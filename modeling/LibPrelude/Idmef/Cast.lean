import LibPrelude.Idmef.ValueType

/-! # Casts between integer types

A cast converts the integer to the target type and compares the two in C, where the
operands are brought to a common type first. Equal bits do not make equal integers there,
so the signs are compared as well.
-/

namespace LibPrelude

namespace IntegerType

def convert (t : IntegerType) (v : ℤ) : ℤ :=
  if t.signed then Int.bmod v (256 ^ t.size) else v % (256 ^ t.size : ℕ)

/-- The type of an operand narrower than an int. -/
def promote (t : IntegerType) : IntegerType := if t.size < 4 then int32 else t

/-- The type in which C compares operands of two types. -/
def common (t u : IntegerType) : IntegerType :=
  let t := t.promote
  let u := u.promote
  if t.signed = u.signed then if t.size < u.size then u else t
  else if t.signed then if t.size ≤ u.size then u else t
  else if u.size ≤ t.size then t else u

/-- The comparison `src == dst`. -/
def equal (t u : IntegerType) (src dst : ℤ) : Bool :=
  (t.common u).convert src = (t.common u).convert dst

def belowOne (t : IntegerType) (src : ℤ) : Bool :=
  (t.common int32).convert src < (t.common int32).convert 1

end IntegerType

/-- Whether the integer is the same, and as large compared with one, after the conversion. -/
def castchk (itype ntype : IntegerType) (src : ℤ) : Bool :=
  itype.equal ntype src (ntype.convert src) ∧
    itype.belowOne src = ntype.belowOne (ntype.convert src)

/-- The value after a cast of an integer to an integer type; a failure leaves it as it is. -/
def valueCastCheck (itype : IntegerType) (src : ℤ) (ntype : IntegerType) : Ret × ValueType :=
  if castchk itype ntype src then (.ok (), .integer ntype (ntype.convert src))
  else (.error .generic, .integer itype src)

theorem convert_of_inRange {t : IntegerType} {v : ℤ} (h : t.InRange v) : t.convert v = v := by
  unfold IntegerType.InRange at h
  cases t <;> simp [IntegerType.convert, IntegerType.signed, IntegerType.size, Int.bmod_def]
    at h ⊢ <;> omega

theorem convert_inRange (t : IntegerType) (v : ℤ) : t.InRange (t.convert v) := by
  unfold IntegerType.InRange
  cases t <;> simp [IntegerType.convert, IntegerType.signed, IntegerType.size, Int.bmod_def] <;>
    omega

theorem convert_emod (t : IntegerType) (v : ℤ) :
    t.convert v % (256 ^ t.size : ℕ) = v % (256 ^ t.size : ℕ) := by
  unfold IntegerType.convert
  split_ifs
  · exact Int.bmod_emod
  · exact Int.emod_emod _ _

theorem belowOne_of_inRange {t : IntegerType} {v : ℤ} (h : t.InRange v) :
    t.belowOne v = decide (v < 1) := by
  have hcommon : (t.common .int32).convert v = v ∧ (t.common .int32).convert 1 = 1 := by
    unfold IntegerType.InRange at h
    cases t <;> simp [IntegerType.common, IntegerType.promote, IntegerType.convert,
      IntegerType.signed, IntegerType.size, Int.bmod_def] at h ⊢ <;> omega
  rw [IntegerType.belowOne, hcommon.1, hcommon.2]

theorem bounds_of_inRange {t : IntegerType} {v : ℤ} (h : t.InRange v) :
    (-2 ^ 63 ≤ v ∧ v < 2 ^ 64) ∧ (t.size ≤ 4 → -2 ^ 31 ≤ v ∧ v < 2 ^ 32) := by
  unfold IntegerType.InRange at h
  cases t <;> simp [IntegerType.size, IntegerType.signed] at h ⊢ <;> omega

theorem size_common (t u : IntegerType) :
    (t.common u).size = 8 ∨ (t.common u).size = 4 ∧ t.size ≤ 4 ∧ u.size ≤ 4 := by
  cases t <;> cases u <;> decide

theorem eq_of_equal {t u : IntegerType} {v w : ℤ} (hv : t.InRange v) (hw : u.InRange w)
    (hequal : t.equal u v w) (hside : v < 1 ↔ w < 1) : v = w := by
  have hmod : v % (256 ^ (t.common u).size : ℕ) = w % (256 ^ (t.common u).size : ℕ) := by
    rw [← convert_emod, of_decide_eq_true hequal, convert_emod]
  obtain ⟨hv8, hv4⟩ := bounds_of_inRange hv
  obtain ⟨hw8, hw4⟩ := bounds_of_inRange hw
  rcases size_common t u with h8 | ⟨h4, ht, hu⟩
  · rw [h8] at hmod
    norm_num at hmod hv8 hw8
    omega
  · rw [h4] at hmod
    have hv4 := hv4 ht
    have hw4 := hw4 hu
    norm_num at hmod hv4 hw4
    omega

theorem castchk_iff {itype ntype : IntegerType} {src : ℤ} (h : itype.InRange src) :
    castchk itype ntype src ↔ ntype.InRange src := by
  simp only [castchk, Bool.decide_and, Bool.and_eq_true, decide_eq_true_eq,
    belowOne_of_inRange h, belowOne_of_inRange (convert_inRange ntype src), decide_eq_decide]
  constructor
  · rintro ⟨hequal, hside⟩
    rw [eq_of_equal h (convert_inRange ntype src) hequal hside]
    exact convert_inRange ntype src
  · intro hn
    rw [convert_of_inRange hn]
    exact ⟨decide_eq_true rfl, Iff.rfl⟩

/-- A cast succeeds for the integers of the target type and keeps the integer. -/
theorem cast_integer (itype ntype : IntegerType) (src : ℤ) (h : itype.InRange src) :
    (ntype.InRange src → valueCastCheck itype src ntype = (.ok (), .integer ntype src)) ∧
    (¬ ntype.InRange src →
      valueCastCheck itype src ntype = (.error .generic, .integer itype src)) := by
  unfold valueCastCheck
  constructor
  · intro hn
    rw [if_pos ((castchk_iff h).mpr hn), convert_of_inRange hn]
  · intro hn
    rw [if_neg (mt (castchk_iff h).mp hn)]

theorem cast_integer_minus_one :
    valueCastCheck .int64 (-1) .int8 = (.ok (), .integer .int8 (-1)) :=
  (cast_integer .int64 .int8 (-1) ⟨by decide, by decide⟩).1 ⟨by decide, by decide⟩

end LibPrelude
