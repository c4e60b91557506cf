import LibPrelude.Idmef.DataText
import LibPrelude.Unicode

/-! # Strings in JSON

The body of a string is decoded byte by byte. A backslash starts an escape, which is one
more byte, or a `u` with the digits of a code point. The escapes of code points are handed
over from two bytes before the `u` on, which is not where they start.
-/

namespace LibPrelude

inductive UnescapeFailure where
  | append (e : ErrorCode)
  | unicode (ret : ℤ)
  deriving DecidableEq, Repr

/-- How the decoding ends, and the text; there is no result when it reads outside of the body. -/
abbrev Unescaped := Option (Except UnescapeFailure Unit × List UInt8)

def escapedByte (c : UInt8) : UInt8 :=
  if c = 98 then 8 else if c = 116 then 9 else if c = 110 then 10 else if c = 102 then 12
  else if c = 114 then 13 else c

/-- The fuel is one more than the size. A failure to append a byte that is no escape is ignored. -/
def unescapeStringFrom (n : Ncat) (order : ByteOrder) (body : List UInt8) :
    ℕ → ℕ → List UInt8 → Unescaped
  | 0, _, out => some (.ok (), out)
  | fuel + 1, i, out =>
    if i < body.length then do
      let c ← body[i]?
      if c ≠ 92 then
        match n.ncat out [c] with
        | .ok out => unescapeStringFrom n order body fuel (i + 1) out
        | .error _ => unescapeStringFrom n order body fuel (i + 1) out
      else
        let c ← body[i + 1]?
        if c = 117 then
          if i = 0 then none
          else
            let (ret, bytes) ← preludeUnicodeToString order (body.drop (i - 1))
            if ret < 0 then return (.error (.unicode ret), out)
            unescapeStringFrom n order body fuel (i + 1 + ret.toNat) (out ++ bytes)
        else
          match n.ncat out [escapedByte c] with
          | .ok out => unescapeStringFrom n order body fuel (i + 2) out
          | .error e => return (.error (.append e), out)
    else some (.ok (), out)

def unescapeString (n : Ncat) (order : ByteOrder) (out body : List UInt8) : Unescaped :=
  unescapeStringFrom n order body (body.length + 1) 0 out

def upperHexDigit (d : ℕ) : UInt8 := .ofNat (if d < 10 then 48 + d else 55 + d)

/-- What is written for a byte of a string. -/
def convByte (c : UInt8) : List UInt8 :=
  if c = 92 ∨ c = 34 ∨ c = 47 then [92, c]
  else if c = 8 then [92, 98]
  else if c = 9 then [92, 116]
  else if c = 10 then [92, 110]
  else if c = 12 then [92, 102]
  else if c = 13 then [92, 114]
  else if 0x20 ≤ c then [c]
  else [92, 117, 48, 48, upperHexDigit (c.toNat / 16), upperHexDigit (c.toNat % 16)]

def convBody (content : List UInt8) : List UInt8 := content.flatMap convByte

def convString (content : List UInt8) : List UInt8 := 34 :: (convBody content ++ [34])

/-- The bytes that may stand behind a backslash, and what they stand for. -/
def shortEscapes : List (UInt8 × UInt8) :=
  [(34, 34), (92, 92), (47, 47), (98, 8), (102, 12), (110, 10), (114, 13), (116, 9)]

/-- The text that the body of a string literal denotes. -/
inductive JsonDenotes : List UInt8 → List UInt8 → Prop where
  | nil : JsonDenotes [] []
  | raw {body text : List UInt8} {c : Char} : 0x20 ≤ c.toNat → c ≠ '"' → c ≠ '\\' →
      JsonDenotes body text →
      JsonDenotes (String.utf8EncodeChar c ++ body) (String.utf8EncodeChar c ++ text)
  | escape {body text : List UInt8} {b v : UInt8} : (b, v) ∈ shortEscapes → JsonDenotes body text →
      JsonDenotes (92 :: b :: body) (v :: text)
  | unicode {esc body text : List UInt8} {c : Char} :
      NamesChar (92 :: 117 :: esc) (esc.length + 2) c → JsonDenotes body text →
      JsonDenotes (92 :: 117 :: (esc ++ body)) (String.utf8EncodeChar c ++ text)

/-- Whether an escape of a code point occurs. -/
def escapesUnicode : List UInt8 → Bool
  | [] => false
  | [_] => false
  | c :: b :: body =>
    if c = 92 then b = 117 || escapesUnicode body else escapesUnicode (b :: body)

/-- The same over bytes that need not be text. -/
inductive Decodes : List UInt8 → List UInt8 → Prop where
  | nil : Decodes [] []
  | raw {body text : List UInt8} {b : UInt8} : b ≠ 92 → Decodes body text →
      Decodes (b :: body) (b :: text)
  | escape {body text : List UInt8} {b v : UInt8} : (b, v) ∈ shortEscapes → Decodes body text →
      Decodes (92 :: b :: body) (v :: text)
  | unicode {esc body text bytes : List UInt8} : Decodes body text →
      Decodes (92 :: 117 :: (esc ++ body)) (bytes ++ text)

section

variable {n : Ncat} {order : ByteOrder} {body text pre out : List UInt8} {c : Char}

theorem shortEscapes_spec {b v : UInt8} (h : (b, v) ∈ shortEscapes) :
    b ≠ 117 ∧ escapedByte b = v := by
  have hall : shortEscapes.all fun e => e.1 ≠ 117 && escapedByte e.1 = e.2 := by decide
  simpa using List.all_eq_true.mp hall _ h

theorem Decodes.raws {bs : List UInt8} (hbs : ∀ b ∈ bs, b ≠ 92) (h : Decodes body text) :
    Decodes (bs ++ body) (bs ++ text) := by
  induction bs with
  | nil => exact h
  | cons b bs ih =>
    exact .raw (hbs b (by simp)) (ih fun b hb => hbs b (List.mem_cons_of_mem _ hb))

theorem utf8EncodeChar_ne (hc : c ≠ '\\') : ∀ b ∈ String.utf8EncodeChar c, b ≠ 92 := by
  have hval : c.toNat ≠ 92 := fun h => hc (Char.toNat_inj.mp h)
  have hbyte : ∀ v : ℕ, v % 256 ≠ 92 → (92 : UInt8) ≠ .ofNat v := by
    intro v hv heq
    have h := congrArg UInt8.toNat heq
    rw [UInt8.toNat_ofNat'] at h
    exact hv h.symm
  intro b hb heq
  subst heq
  unfold String.utf8EncodeChar at hb
  change (92 : UInt8) ∈ (if c.toNat ≤ 0x7f then [UInt8.ofNat c.toNat]
    else if c.toNat ≤ 0x7ff then
      [UInt8.ofNat (c.toNat / 64 % 0x20 + 0xc0), UInt8.ofNat (c.toNat % 0x40 + 0x80)]
    else if c.toNat ≤ 0xffff then
      [UInt8.ofNat (c.toNat / 4096 % 0x10 + 0xe0), UInt8.ofNat (c.toNat / 64 % 0x40 + 0x80),
        UInt8.ofNat (c.toNat % 0x40 + 0x80)]
    else
      [UInt8.ofNat (c.toNat / 262144 % 0x08 + 0xf0), UInt8.ofNat (c.toNat / 4096 % 0x40 + 0x80),
        UInt8.ofNat (c.toNat / 64 % 0x40 + 0x80), UInt8.ofNat (c.toNat % 0x40 + 0x80)]) at hb
  split_ifs at hb with h₁ h₂ h₃
  all_goals simp only [List.mem_cons, List.not_mem_nil, or_false] at hb
  · exact hbyte _ (by omega) hb
  · obtain hb | hb := hb
    all_goals exact hbyte _ (by omega) hb
  · obtain hb | hb | hb := hb
    all_goals exact hbyte _ (by omega) hb
  · obtain hb | hb | hb | hb := hb
    all_goals exact hbyte _ (by omega) hb

theorem JsonDenotes.decodes (h : JsonDenotes body text) : Decodes body text := by
  induction h with
  | nil => exact .nil
  | raw _ _ hne _ ih => exact ih.raws (utf8EncodeChar_ne hne)
  | escape hb _ ih => exact .escape hb ih
  | unicode _ _ ih => exact .unicode ih

theorem escapesUnicode_cons {b : UInt8} (hb : b ≠ 92) :
    escapesUnicode (b :: body) = escapesUnicode body := by
  cases body with
  | nil => rfl
  | cons d body => rw [escapesUnicode, if_neg hb]

/-- What is handed over for an escape starts before it, and is no escape. -/
theorem preludeUnicodeToString_before {x : UInt8} :
    preludeUnicodeToString order (x :: 92 :: body) = some (errorGeneric.toInt, []) := by
  by_cases hx : x = 92
  · subst hx
    rfl
  · rw [preludeUnicodeToString]
    exact if_pos hx

/-- From any position on, a body is decoded just if no escape of a code point is left. -/
theorem unescapeStringFrom_iff (hn : ∀ out text, n.ncat out text = .ok (out ++ text))
    (h : Decodes body text) : ∀ (pre out : List UInt8) (fuel : ℕ), body.length < fuel →
      (unescapeStringFrom n order (pre ++ body) fuel pre.length out = some (.ok (), out ++ text) ↔
        escapesUnicode body = false) := by
  induction h with
  | nil =>
    intro pre out fuel hfuel
    obtain ⟨fuel, rfl⟩ : ∃ k, fuel = k + 1 := ⟨fuel - 1, by simp at hfuel; omega⟩
    simp [unescapeStringFrom, escapesUnicode]
  | @raw body text b hb h ih =>
    intro pre out fuel hfuel
    obtain ⟨fuel, rfl⟩ : ∃ k, fuel = k + 1 := ⟨fuel - 1, by omega⟩
    have hrest := ih (pre ++ [b]) (out ++ [b]) fuel (by simpa using hfuel)
    rw [escapesUnicode_cons hb, ← hrest, unescapeStringFrom]
    simp [hb, hn]
  | @escape body text b v hb h ih =>
    intro pre out fuel hfuel
    obtain ⟨fuel, rfl⟩ : ∃ k, fuel = k + 1 := ⟨fuel - 1, by omega⟩
    obtain ⟨hne, hv⟩ := shortEscapes_spec hb
    have hrest := ih (pre ++ [92, b]) (out ++ [v]) fuel (by simp at hfuel; omega)
    have hescapes : escapesUnicode (92 :: b :: body) = escapesUnicode body := by
      simp [escapesUnicode, hne]
    rw [hescapes, ← hrest, unescapeStringFrom]
    simp [hne, hv, hn]
  | @unicode esc body text bytes h ih =>
    intro pre out fuel hfuel
    obtain ⟨fuel, rfl⟩ : ∃ k, fuel = k + 1 := ⟨fuel - 1, by omega⟩
    refine iff_of_false ?_ (by simp [escapesUnicode])
    rw [unescapeStringFrom]
    obtain rfl | ⟨init, x, rfl⟩ := List.eq_nil_or_concat pre
    · simp
    · have hdrop : (init ++ [x] ++ 92 :: 117 :: (esc ++ body)).drop ((init ++ [x]).length - 1) =
          x :: 92 :: 117 :: (esc ++ body) := by
        rw [List.append_assoc, List.length_append, List.length_singleton, Nat.add_sub_cancel,
          List.drop_left]
        rfl
      have hletter : (init ++ [x] ++ 92 :: 117 :: (esc ++ body))[(init ++ [x]).length + 1]? =
          some 117 := by
        rw [List.getElem?_append_right (Nat.le_add_right _ 1), Nat.add_sub_cancel_left]
        rfl
      have hneg : errorGeneric.toInt < 0 := by decide
      simp only [List.concat_eq_append, hdrop, hletter, preludeUnicodeToString_before]
      simp [hneg]

/-- The control bytes of which the escape is short. -/
def shortControls : List UInt8 := [8, 9, 10, 12, 13]

/-- A byte is written as a short escape, as itself, or, when it is a control byte without a short
escape, as a code point. -/
theorem convByte_cases (b : UInt8) :
    (∃ x, convByte b = [92, x] ∧ (x, b) ∈ shortEscapes ∧ (0x20 ≤ b ∨ b ∈ shortControls)) ∨
      (convByte b = [b] ∧ b ≠ 92 ∧ (0x20 ≤ b ∨ b ∈ shortControls)) ∨
      ((∃ esc, convByte b = 92 :: 117 :: esc) ∧ ¬ (0x20 ≤ b ∨ b ∈ shortControls)) := by
  unfold convByte
  split_ifs with hself h8 h9 h10 h12 h13 hprint
  · obtain rfl | rfl | rfl := hself
    all_goals exact Or.inl ⟨_, rfl, by decide, by decide⟩
  · subst h8
    exact Or.inl ⟨_, rfl, by decide, by decide⟩
  · subst h9
    exact Or.inl ⟨_, rfl, by decide, by decide⟩
  · subst h10
    exact Or.inl ⟨_, rfl, by decide, by decide⟩
  · subst h12
    exact Or.inl ⟨_, rfl, by decide, by decide⟩
  · subst h13
    exact Or.inl ⟨_, rfl, by decide, by decide⟩
  · exact Or.inr (Or.inl ⟨rfl, fun h => hself (Or.inl h), Or.inl hprint⟩)
  · refine Or.inr (Or.inr ⟨⟨_, rfl⟩, ?_⟩)
    simp [shortControls, hprint, h8, h9, h10, h12, h13]

theorem convBody_decodes (content : List UInt8) : Decodes (convBody content) content := by
  induction content with
  | nil => exact .nil
  | cons b content ih =>
    rw [convBody, List.flatMap_cons]
    obtain ⟨x, hx, hmem, -⟩ | ⟨hb, hne, -⟩ | ⟨⟨esc, hesc⟩, -⟩ := convByte_cases b
    · rw [hx]
      exact .escape hmem ih
    · rw [hb]
      exact .raw hne ih
    · rw [hesc]
      exact @Decodes.unicode esc _ _ [b] ih

theorem escapesUnicode_convBody (content : List UInt8) :
    escapesUnicode (convBody content) = false ↔ ∀ b ∈ content, 0x20 ≤ b ∨ b ∈ shortControls := by
  induction content with
  | nil => simp [convBody, escapesUnicode]
  | cons b content ih =>
    rw [convBody, List.flatMap_cons, List.forall_mem_cons]
    obtain ⟨x, hx, hmem, hb⟩ | ⟨hself, hne, hb⟩ | ⟨⟨esc, hesc⟩, hb⟩ := convByte_cases b
    · have hrest : escapesUnicode ([92, x] ++ convBody content) =
          escapesUnicode (convBody content) := by
        simp [escapesUnicode, (shortEscapes_spec hmem).1]
      rw [hx, ← convBody, hrest, ih]
      exact (and_iff_right hb).symm
    · rw [hself, ← convBody, List.singleton_append, escapesUnicode_cons hne, ih]
      exact (and_iff_right hb).symm
    · rw [hesc]
      exact iff_of_false (by simp [escapesUnicode]) fun hall => hb hall.1

end

/-- A string literal is decoded just if it has no escape of a code point; so what is written for a
string is read as the string just if it has no control byte but those with a short escape. -/
theorem unescape_string_iff (n : Ncat) (hn : ∀ out text, n.ncat out text = .ok (out ++ text))
    (order : ByteOrder) (out : List UInt8) :
    (∀ body text, JsonDenotes body text →
      (unescapeString n order out body = some (.ok (), out ++ text) ↔
        escapesUnicode body = false)) ∧
    ∀ content, unescapeString n order out (convBody content) = some (.ok (), out ++ content) ↔
      ∀ b ∈ content, 0x20 ≤ b ∨ b ∈ shortControls := by
  constructor
  · intro body text h
    exact unescapeStringFrom_iff hn h.decodes [] out _ (Nat.lt_succ_self _)
  · intro content
    rw [← escapesUnicode_convBody]
    exact unescapeStringFrom_iff hn (convBody_decodes content) [] out _ (Nat.lt_succ_self _)

theorem unescape_string_escapes :
    unescapeString plainNcat .little [] (ascii "a\\\\b") = some (.ok (), ascii "a\\b") := by
  have hall : (ascii "a\\b").all fun b => 0x20 ≤ b ∨ b ∈ shortControls := by decide
  have h := (unescape_string_iff plainNcat (fun _ _ => rfl) .little []).2 (ascii "a\\b")
  exact h.mpr fun b hb => of_decide_eq_true (List.all_eq_true.mp hall b hb)

/-- The escape of a letter behind another letter is refused. -/
theorem unescape_string_unicode : JsonDenotes (ascii "a\\u0041") (ascii "aA") ∧
    unescapeString plainNcat .little [] (ascii "a\\u0041") ≠ some (.ok (), ascii "aA") := by
  constructor
  · have h := JsonDenotes.unicode (@NamesChar.short (ascii "0041") [] 'A' rfl rfl) .nil
    exact JsonDenotes.raw (c := 'a') (by decide) (by decide) (by decide) h
  · decide

end LibPrelude
