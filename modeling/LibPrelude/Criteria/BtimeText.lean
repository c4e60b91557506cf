import LibPrelude.Criteria.BtimeDates

/-! # Texts of broken-down times

An expression gives values to fields, to each once. Parsing its text sets these fields and
leaves the others at -1; the hour is moved by the offset that is stored.
-/

namespace LibPrelude

/-- The text of a decimal number that an int holds, with or without a sign. -/
inductive DecimalText : List UInt8 → ℤ → Prop where
  | plain {ds : List UInt8} : ds ≠ [] → (∀ b ∈ ds, isDigit b = true) → digitsValue ds < 2 ^ 31 →
      DecimalText ds (digitsValue ds)
  | plus {ds : List UInt8} : ds ≠ [] → (∀ b ∈ ds, isDigit b = true) → digitsValue ds < 2 ^ 31 →
      DecimalText (43 :: ds) (digitsValue ds)
  | minus {ds : List UInt8} : ds ≠ [] → (∀ b ∈ ds, isDigit b = true) → digitsValue ds < 2 ^ 31 →
      DecimalText (45 :: ds) (-(digitsValue ds : ℤ))

namespace BtimeField

/-- What the numbers of a field are counted from. -/
def base : BtimeField → ℤ
  | month => 1
  | wday => 1
  | year => 1900
  | _ => 0

def names : BtimeField → List String
  | month => months
  | wday => days
  | _ => []

/-- The value of a field that a text stands for, offsets being in seconds. -/
inductive Denotes : BtimeField → List UInt8 → ℤ → Prop where
  | number {f : BtimeField} {value : List UInt8} {n : ℤ} : f ≠ gmtoff → DecimalText value n →
      (f.names ≠ [] → ∀ b ∈ value.head?, isDigit b = true) → Denotes f value (n - f.base)
  | name {f : BtimeField} {value : List UInt8} {i : ℕ} {s : String} : f.names[i]? = some s →
      value.map toLower = ascii s → Denotes f value i
  | offset {value : List UInt8} {n : ℤ} : DecimalText value n → Denotes gmtoff value (n * 3600)

def Valid (n : ℤ) : BtimeField → Prop
  | month => 0 ≤ n ∧ n < 12
  | wday => 0 ≤ n ∧ n < 7
  | year => -1900 ≤ n
  | mday => 1 ≤ n ∧ n ≤ 31
  | yday => 0 ≤ n ∧ n ≤ 365
  | hour => 0 ≤ n ∧ n < 24
  | min => 0 ≤ n ∧ n < 60
  | sec => 0 ≤ n ∧ n ≤ 60
  | gmtoff => -2 ^ 31 ≤ n ∧ n < 2 ^ 31

def put (tm : Tm) (n : ℤ) : BtimeField → Tm
  | month => { tm with mon := n }
  | wday => { tm with wday := n }
  | year => { tm with year := n }
  | mday => { tm with mday := n }
  | yday => { tm with yday := n }
  | hour => { tm with hour := n }
  | min => { tm with min := n }
  | sec => { tm with sec := n }
  | gmtoff => tm

end BtimeField

open BtimeField

section

variable {order : ByteOrder} {f g : BtimeField} {value tail : List UInt8} {n off : ℤ} {tm : Tm}

theorem get_put (hf : f ≠ gmtoff) : f.get (f.put tm n) = n := by
  cases f <;> first | rfl | exact absurd rfl hf

theorem get_put_of_ne (h : f ≠ g) : f.get (g.put tm n) = f.get tm := by
  cases g <;> cases f <;> first | rfl | exact absurd rfl h

theorem atoi_digits {ds : List UInt8} (hds : ∀ b ∈ ds, isDigit b = true)
    (hlt : digitsValue ds < 2 ^ 31) {sign : ℤ} (hsign : sign = 1 ∨ sign = -1) :
    Int.bmod (sign * digitsValue (ds.takeWhile isDigit)) (2 ^ 32) = sign * digitsValue ds := by
  rw [List.takeWhile_eq_self_iff.mpr hds]
  obtain rfl | rfl := hsign
  · exact Int.bmod_eq_of_le (by omega) (by omega)
  · exact Int.bmod_eq_of_le (by omega) (by omega)

theorem atoi_decimalText (h : DecimalText value n) : atoi value = n := by
  cases h with
  | plain hne hds hlt =>
    obtain ⟨d, ds, rfl⟩ := List.exists_cons_of_ne_nil hne
    have hd := isDigit_iff.mp (hds d (by simp))
    have hspace := not_isSpace_of_isDigit (hds d (by simp))
    have hminus : d ≠ 45 := by
      rintro rfl
      exact absurd hd.1 (by decide)
    have hplus : d ≠ 43 := by
      rintro rfl
      exact absurd hd.1 (by decide)
    have hvalue := atoi_digits hds hlt (Or.inl rfl)
    rw [one_mul] at hvalue
    rw [atoi, List.dropWhile_cons_of_neg (by simp [hspace])]
    split
    · rename_i heq
      cases heq
      exact absurd rfl hminus
    · rename_i heq
      cases heq
      exact absurd rfl hplus
    · simpa only [one_mul] using hvalue
  | plus hne hds hlt =>
    have hvalue := atoi_digits hds hlt (Or.inl rfl)
    rw [one_mul] at hvalue
    rw [atoi, List.dropWhile_cons_of_neg (by decide)]
    simpa only [one_mul] using hvalue
  | minus hne hds hlt =>
    have hvalue := atoi_digits hds hlt (Or.inr rfl)
    rw [neg_one_mul] at hvalue
    rw [atoi, List.dropWhile_cons_of_neg (by decide)]
    simpa only [neg_one_mul] using hvalue

theorem blank_not_mem_decimalText (h : DecimalText value n) : 32 ∉ value ∧ value ≠ [] := by
  have hblank : ∀ {ds : List UInt8}, (∀ b ∈ ds, isDigit b = true) → 32 ∉ ds :=
    fun hds hmem => absurd (hds 32 hmem) (by decide)
  cases h with
  | plain hne hds hlt => exact ⟨hblank hds, hne⟩
  | plus hne hds hlt => exact ⟨by simpa using hblank hds, by simp⟩
  | minus hne hds hlt => exact ⟨by simpa using hblank hds, by simp⟩

theorem toLower_of_large {b : UInt8} (h : 97 ≤ b.toNat) : toLower b = b := by
  refine if_neg fun hupper => ?_
  have hle := UInt8.le_iff_toNat_le.mp hupper.2
  exact absurd (h.trans hle) (by decide)

theorem names_spec (f : BtimeField) :
    (∀ s ∈ f.names, ∀ b ∈ ascii s, 97 ≤ b.toNat) ∧ (∀ s ∈ f.names, ascii s ≠ []) ∧
      ∀ e ∈ f.names.zipIdx, f.names.findIdx? (fun s => strcasecmp (ascii e.1) (ascii s)) =
        some e.2 := by
  have hletters : (f.names.all fun s => (ascii s).all fun b => 97 ≤ b.toNat) = true := by
    cases f <;> decide
  have hne : (f.names.all fun s => ascii s ≠ []) = true := by
    cases f <;> decide
  have hfirst : (f.names.zipIdx.all fun e =>
      f.names.findIdx? (fun s => strcasecmp (ascii e.1) (ascii s)) = some e.2) = true := by
    cases f <;> decide +kernel
  refine ⟨fun s hs b hb => ?_, fun s hs => ?_, fun e he => ?_⟩
  · simpa using List.all_eq_true.mp (List.all_eq_true.mp hletters s hs) b hb
  · simpa using List.all_eq_true.mp hne s hs
  · simpa using List.all_eq_true.mp hfirst e he

theorem name_spec {i : ℕ} {s : String} (hs : f.names[i]? = some s)
    (hvalue : value.map toLower = ascii s) :
    0 ∉ value ∧ 32 ∉ value ∧ (value.head?.map isDigit).getD false = false ∧
      f.names.findIdx? (fun s => strcasecmp value (ascii s)) = some i := by
  obtain ⟨hletters, -, hfirst⟩ := names_spec f
  have hmem := List.mem_of_getElem? hs
  have hbyte : ∀ b ∈ value, 97 ≤ (toLower b).toNat := fun b hb =>
    hletters s hmem _ (hvalue ▸ List.mem_map_of_mem hb)
  have hzero : 0 ∉ value := fun h => absurd (hbyte 0 h) (by decide)
  have hkeep : (ascii s).map toLower = ascii s := by
    rw [List.map_congr_left (g := id) fun b hb => ?_, List.map_id]
    exact toLower_of_large (hletters s hmem b hb)
  have hzero' : 0 ∉ ascii s := fun h => absurd (hletters s hmem 0 h) (by decide)
  have hsame : ∀ name, strcasecmp value name = strcasecmp (ascii s) name := by
    intro name
    rw [strcasecmp, strcasecmp, PreludeString.cString_of_not_mem hzero,
      PreludeString.cString_of_not_mem hzero', hvalue, hkeep]
  refine ⟨hzero, fun h => absurd (hbyte 32 h) (by decide), ?_, ?_⟩
  · cases value with
    | nil => rfl
    | cons b value =>
      have hb := hbyte b (by simp)
      refine Bool.eq_false_iff.mpr fun hdigit => ?_
      have hd := isDigit_iff.mp (show isDigit b = true from hdigit)
      have hupper : ¬ (65 ≤ b ∧ b ≤ 90) := by
        rw [UInt8.le_iff_toNat_le]
        exact fun h => absurd (h.1.trans hd.2) (by decide)
      rw [toLower, if_neg hupper] at hb
      omega
  · simp only [hsame]
    exact hfirst (s, i) (List.mem_zipIdx_iff_getElem?.mpr hs)

theorem BtimeField.Denotes.not_blank (h : f.Denotes value n) : 32 ∉ value := by
  cases h with
  | number _ htext _ => exact (blank_not_mem_decimalText htext).1
  | name hs hvalue => exact (name_spec hs hvalue).2.1
  | offset htext => exact (blank_not_mem_decimalText htext).1

theorem parseNamed_digit {names : List String} (htext : DecimalText value n)
    (hdigit : ∀ b ∈ value.head?, isDigit b = true) : parseNamed names value = some (n - 1) := by
  obtain ⟨b, bs, rfl⟩ := List.exists_cons_of_ne_nil (blank_not_mem_decimalText htext).2
  have hb := hdigit b rfl
  rw [parseNamed, if_pos (by simpa using hb), atoi_decimalText htext]

theorem parse_denotes (h : f.Denotes value n) (hvalid : f.Valid n) :
    f.parse order value tm off =
      some (f.put tm n, if f = gmtoff then writeInt order off n else off) := by
  cases h with
  | number hf htext hdigit =>
    rw [if_neg hf]
    cases f with
    | month =>
      rw [BtimeField.parse, parseNamed_digit htext (hdigit (by decide))]
      rfl
    | wday =>
      rw [BtimeField.parse, parseNamed_digit htext (hdigit (by decide))]
      rfl
    | year =>
      rw [BtimeField.parse, atoi_decimalText htext]
      rfl
    | gmtoff => exact absurd rfl hf
    | mday => simp only [BtimeField.parse, atoi_decimalText htext, base, sub_zero, put]
    | yday => simp only [BtimeField.parse, atoi_decimalText htext, base, sub_zero, put]
    | hour => simp only [BtimeField.parse, atoi_decimalText htext, base, sub_zero, put]
    | min => simp only [BtimeField.parse, atoi_decimalText htext, base, sub_zero, put]
    | sec => simp only [BtimeField.parse, atoi_decimalText htext, base, sub_zero, put]
  | @name _ _ i s hs hvalue =>
    obtain ⟨-, -, hhead, hfind⟩ := name_spec hs hvalue
    have hparse : parseNamed f.names value = some (i : ℤ) := by
      rw [parseNamed, hhead, if_neg (by decide), hfind]
      rfl
    cases f with
    | month =>
      rw [BtimeField.parse, show months = BtimeField.month.names from rfl, hparse]
      rfl
    | wday =>
      rw [BtimeField.parse, show days = BtimeField.wday.names from rfl, hparse]
      rfl
    | _ => cases hs
  | offset htext =>
    obtain ⟨hlow, hhigh⟩ := hvalid
    rw [BtimeField.parse, atoi_decimalText htext, if_pos rfl, mul_assoc,
      show (60 * 60 : ℤ) = 3600 from rfl, Int.bmod_eq_of_le (by omega) (by omega)]
    rfl

end

/-- A field with its value, and the blanks behind the one that ends the value. -/
structure BtimeEntry where
  field : BtimeField
  value : List UInt8
  number : ℤ
  blanks : ℕ
  denotes : field.Denotes value number
  valid : field.Valid number

def BtimeEntry.text (e : BtimeEntry) : List UInt8 := ascii e.field.name ++ (58 :: e.value)

def entriesText : List BtimeEntry → List UInt8
  | [] => []
  | [e] => e.text
  | e :: es => e.text ++ (32 :: (List.replicate e.blanks 32 ++ entriesText es))

/-- An expression that gives values to fields, to each once. -/
structure BtimeExpr where
  entries : List BtimeEntry
  entries_ne : entries ≠ []
  distinct : (entries.map (·.field)).Nodup

namespace BtimeExpr

def text (e : BtimeExpr) : List UInt8 := entriesText e.entries

def written (e : BtimeExpr) (f : BtimeField) : Option ℤ :=
  (e.entries.find? fun en => en.field = f).map (·.number)

end BtimeExpr

section

variable {order : ByteOrder} {f : BtimeField} {value tail : List UInt8} {off : ℤ} {tm : Tm}
  {e : BtimeEntry} {es : List BtimeEntry}

theorem findBtimeField_text (f : BtimeField) (tail : List UInt8) :
    findBtimeField (ascii f.name ++ (58 :: tail)) = some (f, tail) := by
  cases f <;> rfl

theorem findBtimeField_entry (e : BtimeEntry) (tail : List UInt8) :
    findBtimeField (e.text ++ tail) = some (e.field, e.value ++ tail) := by
  rw [BtimeEntry.text, List.append_assoc, List.cons_append, findBtimeField_text]

def BtimeEntry.set (order : ByteOrder) (e : BtimeEntry) (r : Tm × ℤ) : Tm × ℤ :=
  (e.field.put r.1 e.number, if e.field = gmtoff then writeInt order r.2 e.number else r.2)

theorem BtimeEntry.not_blank (e : BtimeEntry) : ∀ b ∈ e.value, decide (b ≠ 32) = true :=
  fun _ hb => decide_eq_true (ne_of_mem_of_not_mem hb e.denotes.not_blank)

theorem btimeParseFields_last (fuel : ℕ) :
    btimeParseFields order (fuel + 1) e.text tm off = some (e.set order (tm, off)) := by
  have hfind := findBtimeField_entry e []
  rw [List.append_nil, List.append_nil] at hfind
  rw [btimeParseFields, hfind]
  simp only [List.takeWhile_eq_self_iff.mpr e.not_blank, parse_denotes e.denotes e.valid,
    List.dropWhile_eq_nil_iff.mpr e.not_blank]
  rfl

theorem btimeParseFields_cons (fuel : ℕ) (rest : List UInt8) :
    btimeParseFields order (fuel + 1) (e.text ++ (32 :: rest)) tm off =
      btimeParseFields order fuel (rest.dropWhile (· = 32)) (e.set order (tm, off)).1
        (e.set order (tm, off)).2 := by
  have htake : (e.value ++ (32 :: rest)).takeWhile (· ≠ 32) = e.value := by
    rw [List.takeWhile_append_of_pos e.not_blank, List.takeWhile_cons_of_neg (by decide),
      List.append_nil]
  have hdrop : (e.value ++ (32 :: rest)).dropWhile (· ≠ 32) = 32 :: rest := by
    rw [List.dropWhile_append_of_pos e.not_blank, List.dropWhile_cons_of_neg (by decide)]
  rw [btimeParseFields, findBtimeField_entry]
  simp only [htake, hdrop, parse_denotes e.denotes e.valid]
  rfl

theorem text_head (e : BtimeEntry) (tail : List UInt8) :
    ∀ b ∈ (e.text ++ tail).head?, b ≠ 32 := by
  intro b hb
  have hhead : (e.text ++ tail).head? = (ascii e.field.name).head? := by
    rw [BtimeEntry.text]
    cases e.field <;> rfl
  rw [hhead] at hb
  rintro rfl
  revert hb
  cases e.field <;> decide

theorem dropWhile_blanks_entries (n : ℕ) (es : List BtimeEntry) :
    (List.replicate n 32 ++ entriesText es).dropWhile (fun b => decide (b = 32)) =
      entriesText es := by
  rw [List.dropWhile_append_of_pos fun b hb => by simpa using List.eq_of_mem_replicate hb]
  have hhead : ∀ b ∈ (entriesText es).head?, b ≠ 32 := by
    cases es with
    | nil => simp [entriesText]
    | cons e es =>
      cases es with
      | nil =>
        rw [entriesText, ← List.append_nil e.text]
        exact text_head e []
      | cons e' es => exact text_head e _
  cases htext : entriesText es with
  | nil => rfl
  | cons b bs =>
    exact List.dropWhile_cons_of_neg (by simpa using hhead b (by rw [htext]; rfl))

theorem entriesText_cons (e : BtimeEntry) (hne : es ≠ []) :
    entriesText (e :: es) =
      e.text ++ (32 :: (List.replicate e.blanks 32 ++ entriesText es)) := by
  cases es with
  | nil => exact absurd rfl hne
  | cons e' es => rfl

theorem btimeParseFields_entries (hne : es ≠ []) {fuel : ℕ}
    (hfuel : (entriesText es).length < fuel) :
    btimeParseFields order fuel (entriesText es) tm off =
      some (es.foldl (fun r e => e.set order r) (tm, off)) := by
  induction es generalizing fuel tm off with
  | nil => exact absurd rfl hne
  | cons e es ih =>
    obtain ⟨fuel, rfl⟩ := Nat.exists_eq_add_of_lt (Nat.zero_le _ |>.trans_lt hfuel)
    rw [Nat.zero_add] at hfuel ⊢
    by_cases hes : es = []
    · subst hes
      exact btimeParseFields_last fuel
    · rw [entriesText_cons e hes] at hfuel ⊢
      rw [btimeParseFields_cons, dropWhile_blanks_entries]
      refine ih hes ?_
      simp only [List.length_append, List.length_cons, List.length_replicate] at hfuel
      omega

end

namespace BtimeExpr

def offset (e : BtimeExpr) (gmtOffset : ℤ) : ℤ := (e.written gmtoff).getD gmtOffset

def storedOffset (e : BtimeExpr) (order : ByteOrder) (gmtOffset : ℤ) : ℤ :=
  match e.written gmtoff with
  | none => gmtOffset
  | some n => writeInt order gmtOffset n

/-- The hours that parsing takes off. -/
def shift (e : BtimeExpr) (order : ByteOrder) (gmtOffset : ℤ) : ℤ :=
  (e.storedOffset order gmtOffset).tdiv (60 * 60)

end BtimeExpr

section

variable {order : ByteOrder} {f : BtimeField} {n : ℤ} {r : Tm × ℤ} {e : BtimeEntry}
  {es : List BtimeEntry} {ex : BtimeExpr}

theorem find_eq_none (h : e.field ∉ es.map (·.field)) :
    es.find? (fun en => en.field = e.field) = none := by
  rw [List.find?_eq_none]
  intro en hen heq
  exact h (List.mem_map.mpr ⟨en, hen, of_decide_eq_true heq⟩)

theorem get_foldl (hnodup : (es.map (·.field)).Nodup) (hf : f ≠ gmtoff) :
    f.get (es.foldl (fun r e => e.set order r) r).1 =
      ((es.find? fun en => en.field = f).map (·.number)).getD (f.get r.1) := by
  induction es generalizing r with
  | nil => rfl
  | cons e es ih =>
    rw [List.map_cons, List.nodup_cons] at hnodup
    rw [List.foldl_cons, ih hnodup.2]
    by_cases h : e.field = f
    · subst h
      rw [find_eq_none hnodup.1, List.find?_cons_of_pos (by simp)]
      exact get_put hf
    · rw [List.find?_cons_of_neg (by simpa using h)]
      congr 1
      exact get_put_of_ne (Ne.symm h)

theorem offset_foldl (hnodup : (es.map (·.field)).Nodup) :
    (es.foldl (fun r e => e.set order r) r).2 =
      match (es.find? fun en => en.field = gmtoff).map (·.number) with
      | none => r.2
      | some n => writeInt order r.2 n := by
  induction es generalizing r with
  | nil => rfl
  | cons e es ih =>
    rw [List.map_cons, List.nodup_cons] at hnodup
    rw [List.foldl_cons, ih hnodup.2]
    by_cases h : e.field = gmtoff
    · rw [← h, find_eq_none hnodup.1, List.find?_cons_of_pos (by simp)]
      exact if_pos h
    · rw [List.find?_cons_of_neg (by simpa using h), BtimeEntry.set, if_neg h]

theorem written_valid (h : ex.written f = some n) : f.Valid n := by
  obtain ⟨e, he, rfl⟩ := Option.map_eq_some_iff.mp h
  have hf := List.find?_some he
  rw [decide_eq_true_eq] at hf
  exact hf ▸ e.valid

/-- Parsing the text of an expression gives its fields, the hour being moved. -/
theorem btimeParse_text (ex : BtimeExpr) (order : ByteOrder) (gmtOffset : ℤ) :
    ∃ tm, btimeParse order gmtOffset ex.text = some tm ∧
      (∀ f, f ≠ gmtoff → f ≠ hour → f.get tm = (ex.written f).getD (-1)) ∧
      tm.hour = match ex.written hour with
        | none => -1
        | some h => Int.bmod (h - ex.shift order gmtOffset) (2 ^ 32) := by
  have hparse := @btimeParseFields_entries order gmtOffset ⟨-1, -1, -1, -1, -1, -1, -1, -1⟩
    ex.entries ex.entries_ne ((entriesText ex.entries).length + 1) (Nat.lt_succ_self _)
  have hoffset := @offset_foldl order (⟨-1, -1, -1, -1, -1, -1, -1, -1⟩, gmtOffset) ex.entries
    ex.distinct
  have hget : ∀ f, f ≠ gmtoff → f.get (ex.entries.foldl (fun r e => e.set order r)
      (⟨-1, -1, -1, -1, -1, -1, -1, -1⟩, gmtOffset)).1 = (ex.written f).getD (-1) := by
    intro f hf
    rw [get_foldl ex.distinct hf, BtimeExpr.written]
    cases f <;> rfl
  rw [btimeParse, BtimeExpr.text, hparse]
  generalize ex.entries.foldl (fun r e => e.set order r)
    (⟨-1, -1, -1, -1, -1, -1, -1, -1⟩, gmtOffset) = r at hoffset hget
  have hshift : ex.shift order gmtOffset = r.2.tdiv (60 * 60) := by
    rw [BtimeExpr.shift, hoffset]
    rfl
  have hhour : r.1.hour = (ex.written hour).getD (-1) := hget hour (by decide)
  refine ⟨_, rfl, fun f hf hne => ?_, ?_⟩
  · rw [← hget f hf]
    split_ifs
    · cases f <;> first | rfl | exact absurd rfl hne
    · rfl
  · cases hw : ex.written hour with
    | none =>
      rw [hw] at hhour
      rw [if_neg (by simp [hhour])]
      exact hhour
    | some h =>
      have hvalid := written_valid hw
      rw [hw] at hhour
      have hne : r.1.hour ≠ -1 := by
        rw [hhour, Option.getD_some]
        have := hvalid.1
        omega
      rw [if_pos hne, hshift]
      simp only [hhour, Option.getD_some]

end

end LibPrelude
