import LibPrelude.Criteria.Expansion
import LibPrelude.Unicode

/-! # Quoted values

The value between two quotes is read with its escapes replaced. A backslash before
the quote itself is kept, no value can be empty, and two bytes after `\x` are never
refused.
-/

namespace LibPrelude

variable {pl : CriteriaPlatform} {op : Operator} {str body pre post v : List UInt8} {q c : UInt8}
  {n : ℕ}

theorem map_map_except {α β γ : Type} (x : Except ErrorCode α) (f : α → β) (g : β → γ) :
    (x.map f).map g = x.map (g ∘ f) := by
  cases x <;> rfl

theorem escapeFrom_fuel (hn : str.length ≤ n) :
    escapeFrom pl op n str = escapeFrom pl op str.length str := by
  induction n using Nat.strong_induction_on generalizing str with
  | _ n ih =>
    match n, str with
    | 0, [] => rfl
    | n + 1, [] => rfl
    | 0, _ :: _ => simp at hn
    | n + 1, [c] => rfl
    | n + 1, b :: c :: str =>
      simp only [List.length_cons] at hn
      have hlong : ∀ w : List UInt8, w.length ≤ str.length + 1 →
          escapeFrom pl op n w = escapeFrom pl op (str.length + 1) w := by
        intro w hw
        rw [ih n (by omega) (by omega)]
        rcases Nat.lt_or_ge (str.length + 1) (n + 1) with hlt | hge
        · rw [ih (str.length + 1) hlt hw]
        · rw [show str.length + 1 = n by omega, ih n (by omega) (by omega)]
      simp only [List.length_cons]
      rw [escapeFrom, escapeFrom, hlong (c :: str) le_rfl, hlong str (by omega),
        hlong (str.drop 2) (by simp; omega)]
      have hdrop : ∀ k, escapeFrom pl op n (str.drop k) =
          escapeFrom pl op (str.length + 1) (str.drop k) := fun k => hlong _ (by simp; omega)
      simp only [hdrop]

theorem escapeStr_plain (hc : c ≠ 92) :
    escapeStr pl op (c :: str) = (escapeStr pl op str).map (c :: ·) := by
  cases str with
  | nil => rfl
  | cons d str =>
    unfold escapeStr
    simp only [List.length_cons]
    rw [escapeFrom, if_pos hc]

theorem escapeStr_simple {b : UInt8} (hc : simpleEscape op c = some b) :
    escapeStr pl op (92 :: c :: str) = (escapeStr pl op str).map (b :: ·) := by
  unfold escapeStr
  simp only [List.length_cons]
  rw [escapeFrom, if_neg (by simp), hc]
  simp only
  rw [escapeFrom_fuel (Nat.le_succ _)]

theorem escapeStr_kept (hc : simpleEscape op c = none) (hu : ¬(c = 117 ∨ c = 85)) (hx : c ≠ 120) :
    escapeStr pl op (92 :: c :: str) = (escapeStr pl op str).map ([92, c] ++ ·) := by
  unfold escapeStr
  simp only [List.length_cons]
  rw [escapeFrom, if_neg (by simp), hc]
  simp only [if_neg hu, if_neg hx]
  rw [escapeFrom_fuel (Nat.le_succ _)]

/-- Two bytes after `\x` are taken along whatever they are. -/
theorem escapeStr_hex (hc : simpleEscape op 120 = none) :
    escapeStr pl op (92 :: 120 :: str) =
      if str.length < 2 then .error .generic
      else (escapeStr pl op (str.drop 2)).map ((pl.sscanfHex str).getD 120 :: ·) := by
  unfold escapeStr
  simp only [List.length_cons]
  rw [escapeFrom, if_neg (by simp), hc]
  simp only [show ¬((120 : UInt8) = 117 ∨ (120 : UInt8) = 85) by decide, if_false, if_true]
  rw [escapeFrom_fuel (by simp; omega)]

theorem escapeStr_unicode (hc : simpleEscape op c = none) (hu : c = 117 ∨ c = 85) :
    escapeStr pl op (92 :: c :: str) =
      match pl.unicodeToString (92 :: c :: str) with
      | .error e => .error e
      | .ok (text, n) => (escapeStr pl op (str.drop (n - 2))).map (text ++ ·) := by
  unfold escapeStr
  simp only [List.length_cons]
  rw [escapeFrom, if_neg (by simp), hc]
  simp only [if_pos hu]
  rcases pl.unicodeToString (92 :: c :: str) with e | ⟨text, n⟩
  · rfl
  · simp only
    rw [escapeFrom_fuel (by simp; omega)]

theorem escapeStr_append (hpre : 92 ∉ pre) :
    escapeStr pl op (pre ++ str) = (escapeStr pl op str).map (pre ++ ·) := by
  induction pre with
  | nil =>
    rw [List.nil_append]
    cases escapeStr pl op str with
    | error e => rfl
    | ok out => rfl
  | cons b pre ih =>
    rw [List.mem_cons, not_or] at hpre
    rw [List.cons_append, escapeStr_plain (Ne.symm hpre.1), ih hpre.2, map_map_except]
    rfl

theorem valueText_iff : valueText pl op (.value body) = .ok v ↔
    ∃ out, escapeStr pl op body = .ok out ∧ out ≠ [] ∧ PreludeString.cString out = v := by
  simp only [valueText]
  cases h : escapeStr pl op body with
  | error e => simp
  | ok out =>
    cases out with
    | nil => simp
    | cons b out => simp

/-- What may stand between quotes: a backslash goes with any byte but a newline. -/
inductive Quotable (q : UInt8) : List UInt8 → Prop
  | nil : Quotable q []
  | plain {c : UInt8} {body : List UInt8} : c ≠ 92 → c ≠ q → Quotable q body →
      Quotable q (c :: body)
  | escape {c : UInt8} {body : List UInt8} : c ≠ 10 → Quotable q body →
      Quotable q (92 :: c :: body)

theorem Quotable.append {body' : List UInt8} (h : Quotable q body) (h' : Quotable q body') :
    Quotable q (body ++ body') := by
  induction h with
  | nil => exact h'
  | plain hc hq _ ih => exact .plain hc hq ih
  | escape hc _ ih => exact .escape hc ih

theorem quotable_plain (hb : 92 ∉ body) (hq : q ∉ body) : Quotable q body := by
  induction body with
  | nil => exact .nil
  | cons c body ih =>
    rw [List.mem_cons, not_or] at hb hq
    exact .plain (Ne.symm hb.1) (Ne.symm hq.1) (ih hb.2 hq.2)

def quotedText (q : UInt8) (body : List UInt8) : List UInt8 := q :: (body ++ [q])

theorem matches_quoted {quote except : String} (hquote : ascii quote = [q])
    (hexcept : (ascii except).all fun b => b = 92 ∨ b = q) (hb : Quotable q body) :
    (Pattern.quoted quote except).Matches ByteSet.mem (quotedText q body) := by
  have hone : (Pattern.oneOf quote).Matches ByteSet.mem [q] := by
    refine .set ?_
    rw [hquote]
    exact @mem_ranges [q] q false ▸ by simp
  have hslash : (Pattern.oneOf "\\").Matches ByteSet.mem [92] := .set (by decide)
  have hstar : (Rx.star (.alt (Pattern.noneOf except)
      (.seq (Pattern.oneOf "\\") Pattern.dot))).Matches ByteSet.mem body := by
    induction hb with
    | nil => exact .nil
    | @plain c body hc hcq _ ih =>
      refine .cons (v := [c]) (.left (.set ?_)) ih
      have hnot : c ∉ ascii except := fun h =>
        (of_decide_eq_true (List.all_eq_true.mp hexcept c h)).elim hc hcq
      exact mem_ranges.trans (by simp [hnot])
    | @escape c body hc _ ih =>
      refine .cons (v := [92, c]) (.right (.seq (v := [92]) hslash (.set ?_))) ih
      have hnot : c ∉ ascii "\n" := by
        intro h
        exact hc (List.mem_singleton.mp h)
      exact mem_ranges.trans (by simp [hnot])
  exact .seq (v := [q]) hone (.seq hstar hone)

theorem exists_valueText (hq : q = 39 ∨ q = 34) (hb : Quotable q body) :
    ∃ w : ValueText, w.text = quotedText q body ∧ w.token = .value body := by
  have htoken : ((quotedText q body).drop 1).dropLast = body := by
    simp [quotedText]
  rcases hq with rfl | rfl
  · refine ⟨⟨quotedText 39 body, .sqstring, matches_quoted rfl (by decide) hb, ?_⟩, rfl, ?_⟩
    · rintro ⟨⟩
    exact congrArg Token.value htoken
  · refine ⟨⟨quotedText 34 body, .dqstring, matches_quoted rfl (by decide) hb, ?_⟩, rfl, ?_⟩
    · rintro ⟨⟩
    exact congrArg Token.value htoken

/-- The criterion `path = ` followed by a quoted value. -/
def literalText (path : PathText) (q : UInt8) (body : List UInt8) : List UInt8 :=
  criterionText path .equal ++ quotedText q body

/-- The text is read as the comparison of the path with `v`. -/
def Denotes (pl : CriteriaPlatform) (text : List UInt8) (path : IdmefPath) (v : List UInt8) :
    Prop :=
  ParserState.initial.parse pl (criteriaTokens text) =
    .ok (.atom ⟨path, some (.value (.string ⟨some v⟩)), criterionEqual⟩)

def Rejected (pl : CriteriaPlatform) (text : List UInt8) : Prop :=
  ∀ t, ParserState.initial.parse pl (criteriaTokens text) ≠ .ok t

theorem parse_literal {path : PathText} {p : IdmefPath} {t : ParsedCriteria}
    (hp : idmefPathNewFast path.text = .ok p) (hq : q = 39 ∨ q = 34) (hb : Quotable q body) :
    ParserState.initial.parse pl (criteriaTokens (literalText path q body)) = .ok t ↔
      ∃ b, valueCriteria pl p criterionEqual (.value body) = .ok b ∧ t = .atom b := by
  rcases exists_valueText hq hb with ⟨w, htext, htoken⟩
  have htokens := expandedText_tokens path .equal (.operand w)
  rw [show expandedText path .equal (.operand w) = literalText path q body by
    rw [literalText, ← htext]; rfl] at htokens
  have hparse := @parse_criteriaTokens _ pl t _ path.text .equal token_isValue (.operand w)
  rw [htokens, hparse, htoken.symm]
  constructor
  · rintro ⟨p', hp', -, e, he, rfl⟩
    obtain rfl : p = p' := Except.ok.inj (hp.symm.trans hp')
    obtain ⟨b, hb, rfl⟩ := Formula.Infix.traverse_operand_ok.mp he
    exact ⟨b, hb, rfl⟩
  · rintro ⟨b, hb, rfl⟩
    exact ⟨p, hp, (by decide : Fits 3), .operand b,
      Formula.Infix.traverse_operand_ok.mpr ⟨b, hb, rfl⟩, rfl⟩

theorem newFromString_string {p : IdmefPath} (hp : idmefPathGetValueType p = .string)
    (v : List UInt8) :
    idmefCriterionValueNewFromString pl.toPlatform p v criterionEqual =
      .ok (.value (.string ⟨some v⟩)) := by
  have hcheck : idmefValueTypeCheckOperator .string criterionEqual = .ok () := by decide
  have hplain : criterionPlainValue pl.toPlatform p v criterionEqual =
      .ok (.value (.string ⟨some v⟩)) := by
    unfold criterionPlainValue idmefValueNewFromPath
    simp only [hp, hcheck]
    rfl
  unfold idmefCriterionValueNewFromString
  simp only [hp]
  rw [if_neg (by decide), if_neg (by decide), hplain]

section

variable {path : PathText} {p : IdmefPath}

theorem denotes_iff (hp : idmefPathNewFast path.text = .ok p)
    (htype : idmefPathGetValueType p = .string) (hq : q = 39 ∨ q = 34) (hb : Quotable q body) :
    Denotes pl (literalText path q body) p v ↔
      valueText pl criterionEqual (.value body) = .ok v := by
  rw [Denotes, parse_literal hp hq hb]
  unfold valueCriteria
  cases hv : valueText pl criterionEqual (.value body) with
  | error e => simp
  | ok w =>
    simp only [newFromString_string htype]
    constructor
    · rintro ⟨b, hb, heq⟩
      cases hb
      cases heq
      rfl
    · intro heq
      cases heq
      exact ⟨_, rfl, rfl⟩

theorem rejected_iff (hp : idmefPathNewFast path.text = .ok p)
    (htype : idmefPathGetValueType p = .string) (hq : q = 39 ∨ q = 34) (hb : Quotable q body) :
    Rejected pl (literalText path q body) ↔
      ∀ v, valueText pl criterionEqual (.value body) ≠ .ok v := by
  constructor
  · intro h v hv
    exact h _ ((denotes_iff hp htype hq hb).mpr hv)
  · intro h t ht
    obtain ⟨b, hb, -⟩ := (parse_literal hp hq hb).mp ht
    unfold valueCriteria at hb
    cases hv : valueText pl criterionEqual (.value body) with
    | error e => simp [hv] at hb
    | ok v => exact h v hv

end

/-- Each backslash and each enclosing quote gets a backslash before it. -/
def enclosed (q : UInt8) (v : List UInt8) : List UInt8 :=
  v.flatMap fun c => if c = 92 ∨ c = q then [92, c] else [c]

/-- What is read of it: the backslash before a quote is kept. -/
def reread (q : UInt8) (v : List UInt8) : List UInt8 :=
  v.flatMap fun c => if c = q then [92, c] else [c]

theorem quotable_enclosed (hq : q = 39 ∨ q = 34) (v : List UInt8) : Quotable q (enclosed q v) := by
  induction v with
  | nil => exact .nil
  | cons c v ih =>
    rw [enclosed, List.flatMap_cons]
    split
    · rename_i hc
      refine .escape ?_ ih
      rcases hc with rfl | rfl
      · decide
      · rcases hq with rfl | rfl <;> decide
    · rename_i hc
      rw [not_or] at hc
      exact .plain hc.1 hc.2 ih

theorem escapeStr_enclosed (hq : q = 39 ∨ q = 34) (v : List UInt8) :
    escapeStr pl criterionEqual (enclosed q v) = .ok (reread q v) := by
  have hquote : simpleEscape criterionEqual q = none ∧ ¬(q = 117 ∨ q = 85) ∧ q ≠ 120 ∧ q ≠ 92 := by
    rcases hq with rfl | rfl <;> decide
  induction v with
  | nil => rfl
  | cons c v ih =>
    rw [enclosed, reread, List.flatMap_cons, List.flatMap_cons, ← enclosed, ← reread]
    by_cases hc : c = q
    · rw [if_pos (.inr hc), if_pos hc, hc]
      change escapeStr pl criterionEqual (92 :: q :: enclosed q v) = _
      rw [escapeStr_kept hquote.1 hquote.2.1 hquote.2.2.1, ih]
      rfl
    · by_cases h92 : c = 92
      · rw [if_pos (.inl h92), if_neg hc, h92]
        change escapeStr pl criterionEqual (92 :: 92 :: enclosed q v) = _
        rw [escapeStr_simple (b := 92) (by decide), ih]
        rfl
      · rw [if_neg (by simp [h92, hc]), if_neg hc]
        change escapeStr pl criterionEqual (c :: enclosed q v) = _
        rw [escapeStr_plain h92, ih]
        rfl

theorem reread_eq_iff : reread q v = v ↔ q ∉ v := by
  have hlen : ∀ w : List UInt8, (reread q w).length = w.length + w.count q := by
    intro w
    induction w with
    | nil => rfl
    | cons c w ih =>
      rw [reread, List.flatMap_cons, ← reread, List.length_append, ih, List.length_cons,
        List.count_cons]
      by_cases hc : c = q
      · simp [hc]
        omega
      · simp [hc]
        omega
  constructor
  · intro h hmem
    have hcount := List.count_pos_iff.mpr hmem
    have := hlen v
    rw [h] at this
    omega
  · intro h
    induction v with
    | nil => rfl
    | cons c v ih =>
      rw [List.mem_cons, not_or] at h
      rw [reread, List.flatMap_cons, ← reread, ih h.2, if_neg (Ne.symm h.1)]
      rfl

theorem zero_not_mem_reread (hq : q ≠ 0) (h : 0 ∉ v) : 0 ∉ reread q v := by
  unfold reread
  rw [List.mem_flatMap]
  rintro ⟨c, hc, hmem⟩
  have hne : c ≠ 0 := fun h0 => h (h0 ▸ hc)
  split at hmem
  · rename_i hcq
    simp [hcq] at hmem
    exact hq hmem.symm
  · exact hne (List.mem_singleton.mp hmem).symm

def PlainBytes (q : UInt8) (w : List UInt8) : Prop := 92 ∉ w ∧ q ∉ w ∧ 0 ∉ w

theorem PlainBytes.quotable {w : List UInt8} (h : PlainBytes q w) : Quotable q w :=
  quotable_plain h.1 h.2.1

/-- The conversion `%2hhx` of two hexadecimal digits. -/
def ScansHex (sscanfHex : List UInt8 → Option UInt8) : Prop :=
  ∀ a b x y rest, digitValue a = some x → digitValue b = some y →
    sscanfHex (a :: b :: rest) = some (.ofNat (16 * x + y))

/-- What `prelude_unicode_to_string` appends and how much it reads; where it reads outside of its
input there is nothing to tell. -/
def unicodeToString (order : ByteOrder) (inp : List UInt8) :
    Except ErrorCode (List UInt8 × ℕ) :=
  match preludeUnicodeToString order inp with
  | none => .error .generic
  | some (ret, out) => if ret < 0 then .error .generic else .ok (out, ret.toNat)

theorem cString_iff {w : List UInt8} (hpre : 0 ∉ pre) (hpost : 0 ∉ post) :
    PreludeString.cString (pre ++ w ++ post) = pre ++ w ++ post ↔ 0 ∉ w := by
  constructor
  · intro h hmem
    have hnot : (0 : UInt8) ∉ PreludeString.cString (pre ++ w ++ post) := by
      intro h0
      have := List.mem_takeWhile_imp h0
      simp at this
    rw [h] at hnot
    exact hnot (by simp [hmem])
  · intro h
    refine PreludeString.cString_of_not_mem ?_
    simp [hpre, hpost, h]

section

variable {path : PathText} {p : IdmefPath}

theorem denotes_between {w : List UInt8} (hp : idmefPathNewFast path.text = .ok p)
    (htype : idmefPathGetValueType p = .string) (hq : q = 39 ∨ q = 34) (hb : Quotable q body)
    (hpre : 0 ∉ pre) (hpost : 0 ∉ post) (hw : w ≠ [])
    (hread : escapeStr pl criterionEqual body = .ok (pre ++ w ++ post)) :
    Denotes pl (literalText path q body) p (pre ++ w ++ post) ↔ 0 ∉ w := by
  rw [denotes_iff hp htype hq hb, valueText_iff, ← cString_iff hpre hpost]
  constructor
  · rintro ⟨out, hout, -, hcut⟩
    obtain rfl := Except.ok.inj (hread.symm.trans hout)
    exact hcut
  · intro h
    exact ⟨_, hread, by simp [hw], h⟩

theorem quoted_value_iff (hp : idmefPathNewFast path.text = .ok p)
    (htype : idmefPathGetValueType p = .string) (hq : q = 39 ∨ q = 34) (hv : 0 ∉ v) :
    Denotes pl (literalText path q (enclosed q v)) p v ↔ v ≠ [] ∧ q ∉ v := by
  have hzero : q ≠ 0 := by rcases hq with rfl | rfl <;> decide
  have hcut := PreludeString.cString_of_not_mem (zero_not_mem_reread hzero hv)
  rw [denotes_iff hp htype hq (quotable_enclosed hq v), valueText_iff, escapeStr_enclosed hq]
  constructor
  · rintro ⟨out, hout, hne, h⟩
    obtain rfl := Except.ok.inj hout
    rw [hcut] at h
    refine ⟨?_, reread_eq_iff.mp h⟩
    rintro rfl
    exact hne rfl
  · rintro ⟨hne, hmem⟩
    have hsame := reread_eq_iff.mpr hmem
    exact ⟨_, rfl, by rw [hsame]; exact hne, by rw [hcut, hsame]⟩

theorem digit_plain {a : UInt8} {x : ℕ} (hq : q = 39 ∨ q = 34) (h : digitValue a = some x) :
    a ≠ 92 ∧ a ≠ q := by
  constructor
  · rintro rfl
    cases h
  · rintro rfl
    rcases hq with rfl | rfl
    · cases h
    · cases h

theorem hex_escape_iff {a b : UInt8} {x y : ℕ} (hhex : ScansHex pl.sscanfHex)
    (hp : idmefPathNewFast path.text = .ok p) (htype : idmefPathGetValueType p = .string)
    (hq : q = 39 ∨ q = 34) (hpre : PlainBytes q pre) (hpost : PlainBytes q post)
    (ha : digitValue a = some x) (hb : digitValue b = some y) :
    Denotes pl (literalText path q (pre ++ 92 :: 120 :: a :: b :: post)) p
      (pre ++ [.ofNat (16 * x + y)] ++ post) ↔ 16 * x + y ≠ 0 := by
  have hbody : Quotable q (pre ++ 92 :: 120 :: a :: b :: post) :=
    hpre.quotable.append (.escape (by decide) (.plain (digit_plain hq ha).1 (digit_plain hq ha).2
      (.plain (digit_plain hq hb).1 (digit_plain hq hb).2 hpost.quotable)))
  have hread : escapeStr pl criterionEqual (pre ++ 92 :: 120 :: a :: b :: post) =
      .ok (pre ++ [.ofNat (16 * x + y)] ++ post) := by
    have hend := @escapeStr_append pl criterionEqual [] post hpost.1
    rw [List.append_nil] at hend
    rw [escapeStr_append hpre.1, escapeStr_hex (by decide), if_neg (by simp),
      hhex a b x y post ha hb, List.drop_succ_cons, List.drop_succ_cons, List.drop_zero, hend]
    simp [escapeStr, escapeFrom, Except.map]
  have hbound := (digitValue_some ha).2
  have hbound' := (digitValue_some hb).2
  rw [denotes_between hp htype hq hbody hpre.2.2 hpost.2.2 (by simp) hread, List.mem_singleton,
    not_iff_not, ← UInt8.toNat_inj, UInt8.toNat_ofNat', Nat.mod_eq_of_lt (by omega)]
  exact eq_comm

theorem hex_escape_rejected_iff {rest : List UInt8} (hp : idmefPathNewFast path.text = .ok p)
    (htype : idmefPathGetValueType p = .string) (hq : q = 39 ∨ q = 34) (hpre : PlainBytes q pre)
    (hrest : PlainBytes q rest) :
    Rejected pl (literalText path q (pre ++ 92 :: 120 :: rest)) ↔ rest.length < 2 := by
  have hbody : Quotable q (pre ++ 92 :: 120 :: rest) :=
    hpre.quotable.append (.escape (by decide) hrest.quotable)
  rw [rejected_iff hp htype hq hbody]
  have hread : escapeStr pl criterionEqual (pre ++ 92 :: 120 :: rest) =
      if rest.length < 2 then .error .generic
      else .ok (pre ++ (pl.sscanfHex rest).getD 120 :: rest.drop 2) := by
    have hdrop : 92 ∉ rest.drop 2 := fun h => hrest.1 (List.mem_of_mem_drop h)
    have hend := @escapeStr_append pl criterionEqual [] (rest.drop 2) hdrop
    rw [List.append_nil] at hend
    rw [escapeStr_append hpre.1, escapeStr_hex (by decide)]
    split
    · rfl
    · rw [hend]
      simp [escapeStr, escapeFrom, Except.map]
  constructor
  · intro h
    by_contra hlen
    rw [if_neg hlen] at hread
    exact h _ (valueText_iff.mpr ⟨_, hread, by simp, rfl⟩)
  · intro hlen v hv
    rw [if_pos hlen] at hread
    obtain ⟨out, hout, -⟩ := valueText_iff.mp hv
    rw [hread] at hout
    cases hout

theorem namesChar_size {inp : List UInt8} {size : ℕ} {c : Char} (h : NamesChar inp size c) :
    2 ≤ size := by
  cases h <;> omega

/-- An escape that is not misread stands for the character it names, and one that names none is
refused. -/
theorem unicode_escape_denotes {order : ByteOrder} {inp : List UInt8}
    (hunicode : pl.unicodeToString = unicodeToString order)
    (hp : idmefPathNewFast path.text = .ok p) (htype : idmefPathGetValueType p = .string)
    (hq : q = 39 ∨ q = 34) (hpre : PlainBytes q pre) (hinp : Quotable q inp)
    (hstart : StartsEscape inp)
    (hread : ¬Misread order inp) :
    (∀ size c, NamesChar inp size c → PlainBytes q (inp.drop size) →
      (Denotes pl (literalText path q (pre ++ inp)) p
        (pre ++ String.utf8EncodeChar c ++ inp.drop size) ↔ 0 ∉ String.utf8EncodeChar c)) ∧
    ((∀ size c, ¬NamesChar inp size c) → Rejected pl (literalText path q (pre ++ inp))) := by
  have htranslated : Translated inp (preludeUnicodeToString order inp) := by
    obtain ⟨rest, rfl | rfl⟩ := hstart
    · exact translated_long.mpr hread
    · exact translated_short.mpr hread
  obtain ⟨ret, out, hres, -, hnamed, hunnamed⟩ := htranslated
  obtain ⟨c, rest, rfl, hu⟩ : ∃ c rest, inp = 92 :: c :: rest ∧ (c = 117 ∨ c = 85) := by
    obtain ⟨rest, rfl | rfl⟩ := hstart
    · exact ⟨85, rest, rfl, .inr rfl⟩
    · exact ⟨117, rest, rfl, .inl rfl⟩
  have hsimple : simpleEscape criterionEqual c = none := by
    rcases hu with rfl | rfl <;> decide
  have hbody : Quotable q (pre ++ 92 :: c :: rest) := hpre.quotable.append hinp
  have hrun : escapeStr pl criterionEqual (pre ++ 92 :: c :: rest) =
      if ret < 0 then .error .generic
      else (escapeStr pl criterionEqual (rest.drop (ret.toNat - 2))).map
        ((pre ++ out) ++ ·) := by
    rw [escapeStr_append hpre.1, escapeStr_unicode hsimple hu, hunicode, unicodeToString, hres]
    by_cases hneg : ret < 0
    · simp only [if_pos hneg]
      rfl
    · simp only [if_neg hneg]
      rw [map_map_except]
      congr 1
      funext w
      simp
  constructor
  · intro size ch hname hplain
    obtain ⟨rfl, rfl⟩ := hnamed size ch hname
    have hsize := namesChar_size hname
    have hdrop : rest.drop (size - 2) = (92 :: c :: rest).drop size := by
      obtain ⟨k, rfl⟩ : ∃ k, size = k + 2 := ⟨size - 2, by omega⟩
      rfl
    have hend := @escapeStr_append pl criterionEqual [] _ hplain.1
    rw [List.append_nil] at hend
    rw [if_neg (by omega), Int.toNat_natCast, hdrop, hend] at hrun
    refine denotes_between hp htype hq hbody hpre.2.2 hplain.2.2 ?_ ?_
    · exact String.utf8EncodeChar_ne_nil
    · rw [hrun]
      simp [escapeStr, escapeFrom, Except.map]
  · intro hnone
    rw [if_pos (hunnamed hnone)] at hrun
    refine (rejected_iff hp htype hq hbody).mpr fun v hv => ?_
    obtain ⟨w, hw, -⟩ := valueText_iff.mp hv
    rw [hrun] at hw
    cases hw

/-- A quoted value denotes `v` exactly if `v` is not empty and does not hold the quote itself; a
byte in hexadecimal is read unless it is a NUL, and refused only where the value ends before it
does; a character that is not misread is read unless it is a NUL. -/
theorem quoted_literal_iff (order : ByteOrder) (hhex : ScansHex pl.sscanfHex)
    (hunicode : pl.unicodeToString = unicodeToString order)
    (hp : idmefPathNewFast path.text = .ok p) (htype : idmefPathGetValueType p = .string)
    (hq : q = 39 ∨ q = 34) :
    (∀ v : List UInt8, 0 ∉ v →
      (Denotes pl (literalText path q (enclosed q v)) p v ↔ v ≠ [] ∧ q ∉ v)) ∧
    (∀ pre post a b x y, PlainBytes q pre → PlainBytes q post → digitValue a = some x →
      digitValue b = some y →
      (Denotes pl (literalText path q (pre ++ 92 :: 120 :: a :: b :: post)) p
        (pre ++ [.ofNat (16 * x + y)] ++ post) ↔ 16 * x + y ≠ 0)) ∧
    (∀ pre rest, PlainBytes q pre → PlainBytes q rest →
      (Rejected pl (literalText path q (pre ++ 92 :: 120 :: rest)) ↔ rest.length < 2)) ∧
    ∀ pre inp, PlainBytes q pre → Quotable q inp → StartsEscape inp → ¬Misread order inp →
      (∀ size c, NamesChar inp size c → PlainBytes q (inp.drop size) →
        (Denotes pl (literalText path q (pre ++ inp)) p
          (pre ++ String.utf8EncodeChar c ++ inp.drop size) ↔ 0 ∉ String.utf8EncodeChar c)) ∧
      ((∀ size c, ¬NamesChar inp size c) → Rejected pl (literalText path q (pre ++ inp))) := by
  refine ⟨fun v hv => quoted_value_iff hp htype hq hv, ?_, ?_, ?_⟩
  · intro pre post a b x y hpre hpost ha hb
    exact hex_escape_iff hhex hp htype hq hpre hpost ha hb
  · intro pre rest hpre hrest
    exact hex_escape_rejected_iff hp htype hq hpre hrest
  · intro pre inp hpre hinp hstart hread
    exact unicode_escape_denotes hunicode hp htype hq hpre hinp hstart hread

end

/-- A platform whose conversions of escapes are those of the source. -/
def escapePlatform : CriteriaPlatform where
  toPlatform := plainPlatform
  unicodeToString := unicodeToString .little
  sscanfHex
    | a :: b :: _ =>
      match digitValue a, digitValue b with
      | some x, some y => some (.ofNat (16 * x + y))
      | some x, none => some (.ofNat x)
      | none, _ => none
    | _ => none

theorem escapePlatform_scansHex : ScansHex escapePlatform.sscanfHex := by
  intro a b x y rest ha hb
  simp only [escapePlatform, ha, hb]

theorem quoted_literal_messageid :
    Denotes escapePlatform (literalText messageidText 34 (enclosed 34 (ascii "a\\b")))
      messageidPath (ascii "a\\b") :=
  ((quoted_literal_iff .little escapePlatform_scansHex rfl messageidText_path rfl
    (.inr rfl)).1 (ascii "a\\b") (by decide)).mpr ⟨by decide, by decide⟩

/-- The criterion `alert.messageid = "\""` compares with a backslash and a quote. -/
theorem quoted_literal_quote :
    Denotes escapePlatform (literalText messageidText 34 (enclosed 34 [34])) messageidPath
      [92, 34] ∧
    ¬Denotes escapePlatform (literalText messageidText 34 (enclosed 34 [34])) messageidPath
      [34] := by
  have hquote : ¬Denotes escapePlatform (literalText messageidText 34 (enclosed 34 [34]))
      messageidPath [34] := fun h =>
    ((quoted_value_iff messageidText_path rfl (.inr rfl) (by decide)).mp h).2 (by decide)
  refine ⟨(denotes_iff messageidText_path rfl (.inr rfl) (quotable_enclosed (.inr rfl) _)).mpr ?_,
    hquote⟩
  rfl

end LibPrelude
