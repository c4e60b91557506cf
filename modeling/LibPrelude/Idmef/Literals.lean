import LibPrelude.Idmef.ValueRead
import Mathlib.Data.List.TakeWhile

/-! # Integers read from text

An integer is read by a function of the C library for 64-bit numbers into a variable
that may be narrower or unsigned, and the range is checked on the variable. What is out
of range but wraps into it is read as another integer.
-/

namespace LibPrelude

/-- The digits of a literal with their base, after the prefix that tells it. -/
inductive Magnitude : List UInt8 → ℕ → Prop
  | decimal {b : UInt8} {bs : List UInt8} : b ≠ 48 → (b :: bs).all (digitOf · < 10) →
      Magnitude (b :: bs) (numberIn 10 (b :: bs))
  | octal {bs : List UInt8} : (48 :: bs).all (digitOf · < 8) →
      Magnitude (48 :: bs) (numberIn 8 (48 :: bs))
  | hexadecimal {x b : UInt8} {bs : List UInt8} : x = 120 ∨ x = 88 →
      (b :: bs).all (digitOf · < 16) → Magnitude (48 :: x :: b :: bs) (numberIn 16 (b :: bs))

/-- A text that is an integer as C writes it: blanks, a sign, and a magnitude. -/
inductive IntegerLiteral : List UInt8 → ℤ → Prop
  | plain {blanks bs : List UInt8} {n : ℕ} : blanks.all isSpace → Magnitude bs n →
      IntegerLiteral (blanks ++ bs) n
  | positive {blanks bs : List UInt8} {n : ℕ} : blanks.all isSpace → Magnitude bs n →
      IntegerLiteral (blanks ++ 43 :: bs) n
  | negative {blanks bs : List UInt8} {n : ℕ} : blanks.all isSpace → Magnitude bs n →
      IntegerLiteral (blanks ++ 45 :: bs) (-n)

def magnitude (bs : List UInt8) : Option ℕ :=
  let (base, digits) := numberBase bs
  if digits = [] ∨ ¬ digits.all (digitOf · < base) then none else some (numberIn base digits)

def literal (str : List UInt8) : Option ℤ := (wholeNumber str).map fun (neg, n) =>
  if neg then -n else n

variable {str bs : List UInt8} {v w : ℤ} {n : ℕ} {t : IntegerType}

theorem numberBase_cases (bs : List UInt8) :
    (∃ x b rest, bs = 48 :: x :: b :: rest ∧ (x = 120 ∨ x = 88) ∧ digitOf b < 16 ∧
      numberBase bs = (16, b :: rest)) ∨
    (∃ rest, bs = 48 :: rest ∧ numberBase bs = (8, bs)) ∨
    (bs.head? ≠ some 48 ∧ numberBase bs = (10, bs)) := by
  unfold numberBase
  split
  · rename_i x b rest
    split_ifs with hx
    · exact .inl ⟨x, b, rest, rfl, hx.1, hx.2, rfl⟩
    · exact .inr (.inl ⟨_, rfl, rfl⟩)
  · exact .inr (.inl ⟨_, rfl, rfl⟩)
  · rename_i hne
    refine .inr (.inr ⟨fun h => ?_, rfl⟩)
    obtain ⟨rest, rfl⟩ := List.head?_eq_some_iff.mp h
    exact hne rest rfl

theorem magnitude_of_base {base : ℕ} {digits : List UInt8} (h : numberBase bs = (base, digits)) :
    magnitude bs = some n ↔
      digits ≠ [] ∧ digits.all (digitOf · < base) ∧ numberIn base digits = n := by
  have hmag : magnitude bs = if digits = [] ∨ ¬ digits.all (digitOf · < base) then none
      else some (numberIn base digits) := by
    unfold magnitude
    rw [h]
  rw [hmag]
  by_cases hbad : digits = [] ∨ ¬ digits.all (digitOf · < base)
  · rw [if_pos hbad]
    exact iff_of_false nofun fun hgood => hbad.elim hgood.1 fun hnot => hnot hgood.2.1
  · rw [if_neg hbad, Option.some.injEq]
    push Not at hbad
    exact ⟨fun heq => ⟨hbad.1, hbad.2, heq⟩, fun hgood => hgood.2.2⟩

theorem magnitude_iff : magnitude bs = some n ↔ Magnitude bs n := by
  constructor
  · intro h
    rcases numberBase_cases bs with ⟨x, b, rest, rfl, hx, -, hbase⟩ | ⟨rest, rfl, hbase⟩ |
      ⟨hhead, hbase⟩
    · obtain ⟨-, hall, rfl⟩ := (magnitude_of_base hbase).mp h
      exact .hexadecimal hx hall
    · obtain ⟨-, hall, rfl⟩ := (magnitude_of_base hbase).mp h
      exact .octal hall
    · obtain ⟨hne, hall, rfl⟩ := (magnitude_of_base hbase).mp h
      obtain ⟨b, rest, rfl⟩ := List.exists_cons_of_ne_nil hne
      refine .decimal ?_ hall
      rintro rfl
      exact hhead rfl
  · intro h
    cases h with
    | @decimal b bs hb hall =>
      rcases numberBase_cases (b :: bs) with ⟨x, c, rest, heq, -⟩ | ⟨rest, heq, -⟩ | ⟨-, hbase⟩
      · exact absurd (List.cons.inj heq).1 hb
      · exact absurd (List.cons.inj heq).1 hb
      · exact (magnitude_of_base hbase).mpr ⟨List.cons_ne_nil _ _, hall, rfl⟩
    | @octal bs hall =>
      rcases numberBase_cases (48 :: bs) with ⟨x, c, rest, heq, hx, -⟩ | ⟨rest, -, hbase⟩ |
        ⟨hhead, -⟩
      · cases heq
        simp only [List.all_cons, Bool.and_eq_true, decide_eq_true_eq] at hall
        rcases hx with rfl | rfl
        · exact absurd hall.2.1 (by decide)
        · exact absurd hall.2.1 (by decide)
      · exact (magnitude_of_base hbase).mpr ⟨List.cons_ne_nil _ _, hall, rfl⟩
      · exact absurd rfl hhead
    | @hexadecimal x b bs hx hall =>
      have hb : digitOf b < 16 := by
        simp only [List.all_cons, Bool.and_eq_true, decide_eq_true_eq] at hall
        exact hall.1
      have hbase : numberBase (48 :: x :: b :: bs) = (16, b :: bs) := by
        simp only [numberBase]
        rw [if_pos ⟨hx, hb⟩]
      exact (magnitude_of_base hbase).mpr ⟨List.cons_ne_nil _ _, hall, rfl⟩

theorem Magnitude.head (h : Magnitude bs n) :
    ∃ b rest, bs = b :: rest ∧ isSpace b = false ∧ b ≠ 43 ∧ b ≠ 45 := by
  have hdigit : ∀ b : UInt8, digitOf b < 10 → isSpace b = false ∧ b ≠ 43 ∧ b ≠ 45 := by
    intro b hb
    have hfive (c : UInt8) : b = c ↔ b.toNat = c.toNat := UInt8.toNat_inj.symm
    simp only [digitOf, isDigit, isSpace, UInt8.le_iff_toNat_le, hfive, decide_eq_true_eq,
      decide_eq_false_iff_not, ne_eq, UInt8.reduceToNat] at hb ⊢
    split_ifs at hb <;> omega
  cases h with
  | @decimal b bs hb hall =>
    simp only [List.all_cons, Bool.and_eq_true, decide_eq_true_eq] at hall
    exact ⟨b, bs, rfl, hdigit b hall.1⟩
  | octal hall => exact ⟨48, _, rfl, by decide, by decide, by decide⟩
  | hexadecimal hx hall => exact ⟨48, _, rfl, by decide, by decide, by decide⟩

theorem dropWhile_blanks {blanks : List UInt8} (h : blanks.all isSpace) {b : UInt8}
    (hb : isSpace b = false) (rest : List UInt8) :
    (blanks ++ b :: rest).dropWhile isSpace = b :: rest := by
  have hblanks : blanks.dropWhile isSpace = [] := by
    exact List.dropWhile_eq_nil_iff.mpr (List.all_eq_true.mp h)
  rw [List.dropWhile_append, hblanks]
  simp [hb]

theorem signed_magnitude (neg : Bool) (bs : List UInt8) :
    (match numberBase bs with
      | (base, digits) => if digits = [] ∨ ¬ digits.all (digitOf · < base) then none
        else some (neg, numberIn base digits)) = (magnitude bs).map fun n => (neg, n) := by
  unfold magnitude
  rcases numberBase bs with ⟨base, digits⟩
  simp only
  split_ifs <;> rfl

theorem sign_of_other {b : UInt8} {bs : List UInt8} (hminus : b ≠ 45) (hplus : b ≠ 43) :
    (match b :: bs with
      | 45 :: bs => (true, bs)
      | 43 :: bs => (false, bs)
      | bs => (false, bs)) = (false, b :: bs) := by
  split
  · exact absurd (List.cons.inj ‹_›).1 hminus
  · exact absurd (List.cons.inj ‹_›).1 hplus
  · rfl

theorem wholeNumber_eq : wholeNumber str =
    match str.dropWhile isSpace with
    | 45 :: bs => (magnitude bs).map fun n => (true, n)
    | 43 :: bs => (magnitude bs).map fun n => (false, n)
    | bs => (magnitude bs).map fun n => (false, n) := by
  unfold wholeNumber
  rcases str.dropWhile isSpace with _ | ⟨b, bs⟩
  · exact signed_magnitude false []
  · by_cases hminus : b = 45
    · subst hminus
      exact signed_magnitude true bs
    · by_cases hplus : b = 43
      · subst hplus
        exact signed_magnitude false bs
      · have hsign := @sign_of_other b bs hminus hplus
        refine (congrArg (fun p : Bool × List UInt8 => match numberBase p.2 with
          | (base, digits) => if digits = [] ∨ ¬ digits.all (digitOf · < base) then none
            else some (p.1, numberIn base digits)) hsign).trans ?_
        refine (signed_magnitude false (b :: bs)).trans ?_
        split
        · exact absurd (List.cons.inj ‹_›).1 hminus
        · exact absurd (List.cons.inj ‹_›).1 hplus
        · rfl

/-- The reader of numbers reads the literals, each as what it stands for. -/
theorem literal_iff : literal str = some v ↔ IntegerLiteral str v := by
  constructor
  · intro h
    have hsplit := @List.takeWhile_append_dropWhile _ isSpace str
    have hblanks : (str.takeWhile isSpace).all isSpace := List.all_takeWhile
    rw [literal, wholeNumber_eq] at h
    split at h
    · rename_i bs heq
      simp only [Option.map_map, Option.map_eq_some_iff] at h
      obtain ⟨n, hn, rfl⟩ := h
      rw [← hsplit, heq]
      exact .negative hblanks (magnitude_iff.mp hn)
    · rename_i bs heq
      simp only [Option.map_map, Option.map_eq_some_iff] at h
      obtain ⟨n, hn, rfl⟩ := h
      rw [← hsplit, heq]
      exact .positive hblanks (magnitude_iff.mp hn)
    · simp only [Option.map_map, Option.map_eq_some_iff] at h
      obtain ⟨n, hn, rfl⟩ := h
      have hplain := IntegerLiteral.plain hblanks (magnitude_iff.mp hn)
      rw [hsplit] at hplain
      exact hplain
  · intro h
    rw [literal, wholeNumber_eq]
    cases h with
    | @plain blanks bs n hblanks hbs =>
      obtain ⟨b, rest, rfl, hspace, hplus, hminus⟩ := hbs.head
      rw [dropWhile_blanks hblanks hspace]
      split
      · rename_i heq
        cases heq
        exact absurd rfl hminus
      · rename_i heq
        cases heq
        exact absurd rfl hplus
      · rw [magnitude_iff.mpr hbs]
        rfl
    | @positive blanks bs n hblanks hbs =>
      rw [dropWhile_blanks hblanks (by decide)]
      simp only [magnitude_iff.mpr hbs]
      rfl
    | @negative blanks bs n hblanks hbs =>
      rw [dropWhile_blanks hblanks (by decide)]
      simp only [magnitude_iff.mpr hbs]
      rfl

/-- The number that the variable of a type holds after a literal was read into it, unless the
function of the library reports it out of range. -/
def IntegerType.stored (t : IntegerType) (v : ℤ) : Option ℤ :=
  match t with
  | int8 | int16 => if -2 ^ 63 ≤ v ∧ v < 2 ^ 63 then some (Int.bmod v (2 ^ 32)) else none
  | uint8 => if -2 ^ 63 ≤ v ∧ v < 2 ^ 63 then some (v % 2 ^ 32) else none
  | uint16 => if -2 ^ 64 < v ∧ v < 2 ^ 64 then some (v % 2 ^ 64 % 2 ^ 32) else none
  | int32 | int64 => if -2 ^ 63 ≤ v ∧ v < 2 ^ 63 then some v else none
  | uint32 | uint64 => if -2 ^ 64 < v ∧ v < 2 ^ 64 then some (v % 2 ^ 64) else none

/-- An integer out of the range of a type that the variable holds as one in range. -/
def IntegerType.Wraps (t : IntegerType) (v : ℤ) : Prop :=
  ¬ t.InRange v ∧
    match t with
    | int8 | int16 => -2 ^ 63 ≤ v ∧ v < 2 ^ 63 ∧ t.InRange (Int.bmod v (2 ^ 32))
    | uint8 => -2 ^ 63 ≤ v ∧ v < 2 ^ 63 ∧ t.InRange (v % 2 ^ 32)
    | uint16 => -2 ^ 64 < v ∧ v < 2 ^ 64 ∧ t.InRange (v % 2 ^ 32)
    | int32 | int64 => False
    | uint32 | uint64 => -2 ^ 64 < v ∧ v < 2 ^ 64 ∧ t.InRange (v % 2 ^ 64)

theorem strtoll_eq : strtoll str =
    (literal str).bind fun v => if -2 ^ 63 ≤ v ∧ v < 2 ^ 63 then some v else none := by
  unfold strtoll literal
  rcases wholeNumber str with _ | ⟨neg, n⟩ <;> rfl

theorem strtoull_eq : strtoull str =
    (literal str).bind fun v => if -2 ^ 64 < v ∧ v < 2 ^ 64 then some (v % 2 ^ 64) else none := by
  unfold strtoull literal
  rcases wholeNumber str with _ | ⟨neg, n⟩
  · rfl
  · simp only [Option.map_some, Option.bind_some]
    cases neg
    · have hiff : n < 2 ^ 64 ↔ -2 ^ 64 < (n : ℤ) ∧ (n : ℤ) < 2 ^ 64 := by omega
      simp only [hiff, Bool.false_eq_true, if_false]
    · have hiff : n < 2 ^ 64 ↔ -2 ^ 64 < -(n : ℤ) ∧ -(n : ℤ) < 2 ^ 64 := by omega
      simp only [hiff, if_true]

theorem strto_eq (t : IntegerType) (str : List UInt8) :
    t.strto str = (literal str).bind t.stored := by
  cases t <;> simp only [IntegerType.strto, strtoll_eq, strtoull_eq] <;>
    rcases literal str with _ | v <;> simp only [Option.bind_none, Option.map_none,
      Option.bind_some, IntegerType.stored] <;> split_ifs <;> rfl

theorem inRange_iff : t.InRange v ↔ ¬ (v < t.min ∨ t.max < v) := by
  unfold IntegerType.InRange IntegerType.min IntegerType.max
  split_ifs <;> omega

theorem read_iff {x : ValueType} : t.read str = .ok x ↔
    ∃ v w, IntegerLiteral str v ∧ t.stored v = some w ∧ t.InRange w ∧ x = .integer t w := by
  unfold IntegerType.read
  rw [strto_eq]
  rcases hl : literal str with _ | v
  · simp only [Option.bind_none]
    refine iff_of_false nofun ?_
    rintro ⟨v, w, hv, -⟩
    rw [literal_iff.mpr hv] at hl
    cases hl
  · have huniq {v' : ℤ} (h : IntegerLiteral str v') : v' = v := by
      rw [literal_iff.mpr h] at hl
      exact Option.some.inj hl
    simp only [Option.bind_some]
    rcases hs : t.stored v with _ | w
    · refine iff_of_false nofun ?_
      rintro ⟨v', w, hv, hw, -⟩
      rw [huniq hv, hs] at hw
      cases hw
    · simp only
      split_ifs with hrange
      · refine iff_of_false nofun ?_
        rintro ⟨v', w', hv, hw, hin, -⟩
        rw [huniq hv, hs] at hw
        cases hw
        exact inRange_iff.mp hin hrange
      · constructor
        · intro h
          cases h
          exact ⟨v, w, literal_iff.mp hl, hs, inRange_iff.mpr hrange, rfl⟩
        · rintro ⟨v', w', hv, hw, -, rfl⟩
          rw [huniq hv, hs] at hw
          cases hw
          rfl

theorem stored_of_inRange (h : t.InRange v) : t.stored v = some v := by
  unfold IntegerType.InRange at h
  cases t <;> simp only [IntegerType.signed, IntegerType.size, Bool.false_eq_true, if_true,
    if_false] at h <;> simp only [IntegerType.stored] <;> rw [if_pos (by omega)] <;>
    simp only [Option.some.injEq, Int.bmod_def] <;> omega

theorem wraps_iff : t.Wraps v ↔ ¬ t.InRange v ∧ ∃ w, t.stored v = some w ∧ t.InRange w := by
  unfold IntegerType.Wraps
  refine and_congr_right fun hv => ?_
  have hmod : v % 2 ^ 64 % 2 ^ 32 = v % 2 ^ 32 := by omega
  cases t
  case int32 | int64 =>
    refine iff_of_false id ?_
    rintro ⟨w, hw, hin⟩
    simp only [IntegerType.stored, Option.ite_none_right_eq_some, Option.some.injEq] at hw
    exact hv (hw.2 ▸ hin)
  all_goals
    simp only [IntegerType.stored, Option.ite_none_right_eq_some, Option.some.injEq, hmod]
    constructor
    · rintro ⟨h₁, h₂, hin⟩
      exact ⟨_, ⟨⟨h₁, h₂⟩, rfl⟩, hin⟩
    · rintro ⟨w, ⟨⟨h₁, h₂⟩, rfl⟩, hin⟩
      exact ⟨h₁, h₂, hin⟩

/-- A text is read as the integer of the type that it is a literal of, unless it is the literal of
an integer that wraps. -/
theorem integer_read_iff (pl : Platform) (t : IntegerType) (str : List UInt8) :
    (∀ x, idmefValueTypeRead pl t.id str = .ok x ↔
      ∃ v, IntegerLiteral str v ∧ t.InRange v ∧ x = .integer t v) ↔
    ∀ v, IntegerLiteral str v → ¬ t.Wraps v := by
  have hread : idmefValueTypeRead pl t.id str = t.read str := by cases t <;> rfl
  rw [hread]
  simp only [read_iff, wraps_iff]
  constructor
  · rintro h v hv ⟨hout, w, hw, hin⟩
    obtain ⟨v', hv', hin', -⟩ := (h _).mp ⟨v, w, hv, hw, hin, rfl⟩
    rw [← literal_iff] at hv hv'
    cases hv.symm.trans hv'
    exact hout hin'
  · intro h x
    constructor
    · rintro ⟨v, w, hv, hw, hin, rfl⟩
      have hv' : t.InRange v := by
        by_contra hout
        exact h v hv ⟨hout, w, hw, hin⟩
      rw [stored_of_inRange hv'] at hw
      cases hw
      exact ⟨v, hv, hv', rfl⟩
    · rintro ⟨v, hv, hin, rfl⟩
      exact ⟨v, v, hv, stored_of_inRange hin, hin, rfl⟩

/-- An unsigned number of 64 bits is read from a negative text. -/
theorem integer_read_negative :
    ¬ ∀ (pl : Platform) (x : ValueType),
      idmefValueTypeRead pl .uint64 (ascii "-1") = .ok x ↔
        ∃ v, IntegerLiteral (ascii "-1") v ∧ IntegerType.uint64.InRange v ∧
          x = .integer .uint64 v := by
  intro h
  let pl : Platform :=
    { order := .little, fnmatch := fun _ _ _ => false, timeByte := fun _ => 0,
      overlay := plainOverlay, gmtOffset := 0,
      strtof := fun _ => none, strtod := fun _ => none, readTime := fun _ => none,
      regcomp := fun _ _ => false, regexec := fun _ _ _ => false }
  obtain ⟨v, hv, hin, -⟩ := (h pl (.integer .uint64 (2 ^ 64 - 1))).mp rfl
  have hminus : literal (ascii "-1") = some (-1) := by decide
  rw [literal_iff.mpr hv] at hminus
  cases hminus
  simp [IntegerType.InRange, IntegerType.signed] at hin

end LibPrelude
