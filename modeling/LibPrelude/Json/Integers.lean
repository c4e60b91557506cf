import LibPrelude.General.Decimal
import LibPrelude.Idmef.Cast
import LibPrelude.Idmef.ValueRead

/-! # Integers in JSON

An integer is read as a signed one of 64 bits, to which a greater one is saturated, and is
then stored in the integer type of the field.
-/

namespace LibPrelude

inductive JsmnType where
  | undefined
  | object
  | array
  | string
  | primitive
  deriving DecidableEq, Repr

/-- A token, from its first byte to the one behind it. -/
structure JsmnToken where
  type : JsmnType
  start : ℕ
  stop : ℕ
  deriving DecidableEq, Repr

/-- Why JSON is not read. -/
inductive JsonFailure where
  | invalid
  | generic (message : String)
  deriving DecidableEq, Repr

def jsmnTypeToString : JsmnType → String
  | .string => "string"
  | .primitive => "primitive"
  | .object => "object"
  | .array => "array"
  | .undefined => "unknown"

/-- The bytes that end a primitive: a colon, blanks, a comma and closing brackets. -/
def primitiveEnds : List UInt8 := [58, 9, 13, 10, 32, 44, 93, 125]

def scanPrimitive : List UInt8 → ℕ → Except JsonFailure ℕ
  | [], pos => .ok pos
  | c :: js, pos =>
    if c = 0 ∨ c ∈ primitiveEnds then .ok pos
    else if c < 32 ∨ 127 ≤ c then .error .invalid
    else scanPrimitive js (pos + 1)

def jsmnParsePrimitive (js : List UInt8) (pos : ℕ) : Except JsonFailure JsmnToken :=
  (scanPrimitive (js.drop pos) pos).map fun stop => ⟨.primitive, pos, stop⟩

/-- The number that a text begins with, saturated, and the number of bytes read. -/
def strtollPrefix (str : List UInt8) : ℤ × ℕ :=
  let blanks := str.takeWhile isSpace
  let (neg, signs, bs) := splitSign (str.dropWhile isSpace)
  let digits := bs.takeWhile isDigit
  if digits = [] then (0, 0)
  else
    let n : ℤ := numberIn 10 digits
    (max (-2 ^ 63) (min (2 ^ 63 - 1) (if neg then -n else n)),
      blanks.length + signs + digits.length)

def getInteger (input : List UInt8) (j : JsmnToken) : Except JsonFailure ℤ :=
  if j.type ≠ .primitive then
    .error (.generic ("expected JSON integer got '" ++ jsmnTypeToString j.type ++ "'"))
  else
    let (out, read) := strtollPrefix (input.drop j.start)
    if j.start + read ≠ j.stop then .error (.generic "error decoding to integer") else .ok out

def setOptionalInt (t : IntegerType) (i : ℕ) (out : ℤ) (fields : List Field) : List Field :=
  fields.set i (.scalar true (t.convert out))

def readIntegerField (t : IntegerType) (i : ℕ) (input : List UInt8) (pos : ℕ)
    (fields : List Field) : Except JsonFailure (List Field) := do
  let j ← jsmnParsePrimitive input pos
  let out ← getInteger input j
  return setOptionalInt t i out fields

structure JsonInteger where
  neg : Bool
  digits : List UInt8
  digits_ne : digits ≠ []
  isDigit : ∀ b ∈ digits, isDigit b = true
  no_leading_zero : digits.head? = some 48 → digits = [48]

namespace JsonInteger

def text (n : JsonInteger) : List UInt8 := if n.neg then 45 :: n.digits else n.digits

def value (n : JsonInteger) : ℤ :=
  if n.neg then -(numberIn 10 n.digits : ℤ) else numberIn 10 n.digits

end JsonInteger

/-- The bytes that may follow a value: blanks, a comma and closing brackets. -/
def valueEnds : List UInt8 := [9, 10, 13, 32, 44, 93, 125]

section

variable {rest : List UInt8}

theorem valueEnds_spec (hrest : ∀ b ∈ rest.head?, b ∈ valueEnds) :
    ∀ b ∈ rest.head?, b ∈ primitiveEnds ∧ isDigit b = false := by
  intro b hb
  have hall : valueEnds.all fun b => b ∈ primitiveEnds && !isDigit b := by decide
  simpa using List.all_eq_true.mp hall b (hrest b hb)

theorem scanPrimitive_cons {b : UInt8} (hb : b = 45 ∨ isDigit b = true) (js : List UInt8)
    (pos : ℕ) : scanPrimitive (b :: js) pos = scanPrimitive js (pos + 1) := by
  have hbounds : 45 ≤ b.toNat ∧ b.toNat ≤ 57 := by
    obtain rfl | hb := hb
    · decide
    · have := isDigit_iff.mp hb
      omega
  have hends : ¬ (b = 0 ∨ b ∈ primitiveEnds) := by
    have hall : (0 :: primitiveEnds).all fun b => b.toNat < 45 ∨ 57 < b.toNat := by decide
    intro hmem
    have h := List.all_eq_true.mp hall b (List.mem_cons.mpr hmem)
    simp only [decide_eq_true_eq] at h
    omega
  have hvalid : ¬ (b < 32 ∨ 127 ≤ b) := by
    simp only [UInt8.lt_iff_toNat_lt, UInt8.le_iff_toNat_le, UInt8.reduceToNat]
    omega
  rw [scanPrimitive, if_neg hends, if_neg hvalid]

theorem scanPrimitive_append {bs : List UInt8} (hbs : ∀ b ∈ bs, b = 45 ∨ isDigit b = true)
    (hrest : ∀ b ∈ rest.head?, b ∈ primitiveEnds) (pos : ℕ) :
    scanPrimitive (bs ++ rest) pos = .ok (pos + bs.length) := by
  induction bs generalizing pos with
  | nil =>
    cases rest with
    | nil => rfl
    | cons b rest => exact if_pos (Or.inr (hrest b rfl))
  | cons b bs ih =>
    rw [List.cons_append, scanPrimitive_cons (hbs b (by simp)),
      ih fun b hb => hbs b (List.mem_cons_of_mem _ hb), List.length_cons]
    congr 1
    omega

theorem strtollPrefix_neg {ds : List UInt8} (hne : ds ≠ []) (hds : ∀ b ∈ ds, isDigit b = true)
    (hrest : ∀ b ∈ rest.head?, isDigit b = false) :
    strtollPrefix (45 :: (ds ++ rest)) =
      (max (-2 ^ 63) (min (2 ^ 63 - 1) (-(numberIn 10 ds : ℤ))), ds.length + 1) := by
  have hblank : isSpace 45 = false := by decide
  simp [strtollPrefix, splitSign, hblank, takeWhile_digits hds hrest, hne, add_comm]

theorem strtollPrefix_nonneg {ds : List UInt8} (hne : ds ≠ [])
    (hds : ∀ b ∈ ds, isDigit b = true) (hrest : ∀ b ∈ rest.head?, isDigit b = false) :
    strtollPrefix (ds ++ rest) =
      (max (-2 ^ 63) (min (2 ^ 63 - 1) (numberIn 10 ds : ℤ)), ds.length) := by
  have htake := takeWhile_digits hds hrest
  obtain _ | ⟨d, ds⟩ := ds
  · exact absurd rfl hne
  · have hd := isDigit_iff.mp (hds d (by simp))
    have hblank := not_isSpace_of_isDigit (hds d (by simp))
    rw [strtollPrefix, List.cons_append, List.takeWhile_cons_of_neg (by simp [hblank]),
      List.dropWhile_cons_of_neg (by simp [hblank]), splitSign_digit hd.1]
    rw [List.cons_append] at htake
    simp [htake]

theorem strtollPrefix_text (n : JsonInteger) (hrest : ∀ b ∈ rest.head?, isDigit b = false) :
    strtollPrefix (n.text ++ rest) =
      (max (-2 ^ 63) (min (2 ^ 63 - 1) n.value), n.text.length) := by
  cases hneg : n.neg with
  | true =>
    rw [JsonInteger.text, JsonInteger.value, hneg, if_pos rfl, if_pos rfl]
    exact strtollPrefix_neg n.digits_ne n.isDigit hrest
  | false =>
    rw [JsonInteger.text, JsonInteger.value, hneg, if_neg (by decide), if_neg (by decide)]
    exact strtollPrefix_nonneg n.digits_ne n.isDigit hrest

theorem readIntegerField_text (n : JsonInteger) (t : IntegerType) (i : ℕ) (pre : List UInt8)
    (fields : List Field) (hrest : ∀ b ∈ rest.head?, b ∈ valueEnds) :
    readIntegerField t i (pre ++ (n.text ++ rest)) pre.length fields =
      .ok (setOptionalInt t i (max (-2 ^ 63) (min (2 ^ 63 - 1) n.value)) fields) := by
  have hends := valueEnds_spec hrest
  have hbytes : ∀ b ∈ n.text, b = 45 ∨ isDigit b = true := by
    intro b hb
    unfold JsonInteger.text at hb
    split at hb
    · obtain rfl | hb := List.mem_cons.mp hb
      · exact Or.inl rfl
      · exact Or.inr (n.isDigit b hb)
    · exact Or.inr (n.isDigit b hb)
  have htoken : jsmnParsePrimitive (pre ++ (n.text ++ rest)) pre.length =
      .ok ⟨.primitive, pre.length, pre.length + n.text.length⟩ := by
    rw [jsmnParsePrimitive, List.drop_left,
      scanPrimitive_append hbytes fun b hb => (hends b hb).1]
    rfl
  have hout : getInteger (pre ++ (n.text ++ rest))
      ⟨.primitive, pre.length, pre.length + n.text.length⟩ =
        .ok (max (-2 ^ 63) (min (2 ^ 63 - 1) n.value)) := by
    rw [getInteger, List.drop_left, strtollPrefix_text n fun b hb => (hends b hb).2]
    simp
  rw [readIntegerField, htoken]
  exact congrArg (fun r => r >>= fun out => pure (setOptionalInt t i out fields)) hout

/-- Only the greatest type holds integers that are saturated, and it holds the bound. -/
theorem convert_saturated {t : IntegerType} {v : ℤ} (h : t.InRange v) (hv : 2 ^ 63 ≤ v) :
    t.convert (2 ^ 63 - 1) = 2 ^ 63 - 1 := by
  apply convert_of_inRange
  cases t
  all_goals
    simp only [IntegerType.InRange, IntegerType.signed, IntegerType.size, if_true, if_false,
      Bool.false_eq_true] at h ⊢
    norm_num at h hv ⊢
  all_goals omega

end

/-- An integer is stored as it is written, or not at all, just if the field holds it and it is less
than 2^63. -/
theorem json_integer_iff (cls : IdmefClassId) (name : String) (t : IntegerType) (i : ℕ)
    (fields : List Field) (n : JsonInteger) (pre rest : List UInt8)
    (hfield : cls.fields[i]? = some (.optionalInt t.id name))
    (hlength : fields.length = cls.fields.length) (hrest : ∀ b ∈ rest.head?, b ∈ valueEnds) :
    ((∃ e, readIntegerField t i (pre ++ (n.text ++ rest)) pre.length fields = .error e) ∨
      ∃ fields', readIntegerField t i (pre ++ (n.text ++ rest)) pre.length fields = .ok fields' ∧
        fields'[i]? = some (.scalar true n.value)) ↔ t.InRange n.value ∧ n.value < 2 ^ 63 := by
  obtain ⟨hi, -⟩ := List.getElem?_eq_some_iff.mp hfield
  rw [readIntegerField_text n t i pre fields hrest]
  have hstored : (setOptionalInt t i (max (-2 ^ 63) (min (2 ^ 63 - 1) n.value)) fields)[i]? =
      some (.scalar true (t.convert (max (-2 ^ 63) (min (2 ^ 63 - 1) n.value)))) := by
    rw [setOptionalInt, List.getElem?_set_self (hlength ▸ hi)]
  simp only [reduceCtorEq, exists_false, false_or, Except.ok.injEq, exists_eq_left', hstored,
    Option.some.injEq, Field.scalar.injEq, true_and]
  constructor
  · intro hconvert
    have hrange : t.InRange n.value := hconvert ▸ convert_inRange t _
    refine ⟨hrange, lt_of_not_ge fun hge => ?_⟩
    rw [min_eq_left (by omega), max_eq_right (by norm_num),
      convert_saturated hrange hge] at hconvert
    omega
  · rintro ⟨hrange, hlt⟩
    obtain ⟨⟨hlow, -⟩, -⟩ := bounds_of_inRange hrange
    rw [min_eq_right (by omega), max_eq_right hlow, convert_of_inRange hrange]

def port80 : JsonInteger :=
  ⟨false, ascii "80", by decide, List.all_eq_true.mp (by decide), by decide⟩

def port70000 : JsonInteger :=
  ⟨false, ascii "70000", by decide, List.all_eq_true.mp (by decide), by decide⟩

theorem comma_ends : ∀ b ∈ (ascii ",").head?, b ∈ valueEnds := by
  intro b hb
  have hcomma : (ascii ",").head? = some 44 := by decide
  obtain rfl := Option.some.inj (hcomma.symm.trans hb)
  decide

theorem json_integer_port :
    (∃ e, readIntegerField .uint16 5 (ascii "80,") 0 (newFields ⟨0, 0, 0⟩ .service) = .error e) ∨
      ∃ fields', readIntegerField .uint16 5 (ascii "80,") 0 (newFields ⟨0, 0, 0⟩ .service) =
        .ok fields' ∧ fields'[5]? = some (.scalar true port80.value) :=
  (json_integer_iff .service "port" .uint16 5 (newFields ⟨0, 0, 0⟩ .service) port80 [] (ascii ",")
    rfl rfl comma_ends).mpr ⟨by simp only [IntegerType.InRange]; decide, by decide⟩

/-- The port 70000 is stored as 4464. -/
theorem json_integer_port_wraps :
    ¬ ((∃ e, readIntegerField .uint16 5 (ascii "70000,") 0 (newFields ⟨0, 0, 0⟩ .service) =
        .error e) ∨
      ∃ fields', readIntegerField .uint16 5 (ascii "70000,") 0 (newFields ⟨0, 0, 0⟩ .service) =
        .ok fields' ∧ fields'[5]? = some (.scalar true port70000.value)) := by
  have hread := @readIntegerField_text (ascii ",") port70000 .uint16 5 []
    (newFields ⟨0, 0, 0⟩ .service) comma_ends
  have hstored : (setOptionalInt .uint16 5 (max (-2 ^ 63) (min (2 ^ 63 - 1) port70000.value))
      (newFields ⟨0, 0, 0⟩ .service))[5]? = some (.scalar true 4464) := rfl
  have hvalue : port70000.value = 70000 := by decide
  rintro (⟨e, he⟩ | ⟨fields', hok, hport⟩)
  · cases hread.symm.trans he
  · cases hread.symm.trans hok
    rw [hstored, hvalue] at hport
    cases hport

end LibPrelude
