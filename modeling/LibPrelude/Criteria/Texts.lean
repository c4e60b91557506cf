import LibPrelude.Criteria.Lexer

/-! # Texts of paths, relations and values

What the lexer makes of a path, of a relation and of a value followed by a blank, a
parenthesis or the end of the text.
-/

namespace LibPrelude

open Pattern LexAction

def TokRelation.text : TokRelation → List UInt8
  | substring => ascii "<>"
  | substringNocase => ascii "<>*"
  | notSubstring => ascii "!<>"
  | notSubstringNocase => ascii "!<>*"
  | regexp => ascii "~"
  | regexpNocase => ascii "~*"
  | notRegexp => ascii "!~"
  | notRegexpNocase => ascii "!~*"
  | greater => ascii ">"
  | greaterOrEqual => ascii ">="
  | less => ascii "<"
  | lessOrEqual => ascii "<="
  | equal => ascii "="
  | equalNocase => ascii "=*"
  | notEqual => ascii "!="
  | notEqualNocase => ascii "!=*"

/-- A path, but for the one word that the lexer takes for a relation. -/
structure PathText where
  text : List UInt8
  isPath : idmefPath.Matches ByteSet.mem text
  notRelation : text ≠ ascii "substr"

inductive ValueKind where
  | rsqstring
  | rdqstring
  | sqstring
  | dqstring
  | bare
  deriving DecidableEq

namespace ValueKind

def pattern : ValueKind → Pattern
  | rsqstring => Pattern.rsqstring
  | rdqstring => Pattern.rdqstring
  | sqstring => Pattern.sqstring
  | dqstring => Pattern.dqstring
  | bare => bareValue

def action : ValueKind → LexAction
  | rsqstring => raw
  | rdqstring => raw
  | sqstring => string
  | dqstring => string
  | bare => LexAction.bare

def token (text : List UInt8) : ValueKind → Token
  | rsqstring => .rawValue ((text.drop 2).dropLast)
  | rdqstring => .rawValue ((text.drop 2).dropLast)
  | sqstring => .value ((text.drop 1).dropLast)
  | dqstring => .value ((text.drop 1).dropLast)
  | bare => .value text

end ValueKind

/-- The string that a quote, perhaps after an `r`, opens. -/
def opening : List UInt8 → Option ValueKind
  | [] => none
  | b :: text =>
    if b = 39 then some .sqstring
    else if b = 34 then some .dqstring
    else if b = 114 then
      if text.head? = some 39 then some .rsqstring
      else if text.head? = some 34 then some .rdqstring
      else none
    else none

/-- A string, or a word that does not start like one or with a newline. -/
structure ValueText where
  text : List UInt8
  kind : ValueKind
  isValue : kind.pattern.Matches ByteSet.mem text
  isWord : kind = .bare → opening text = none ∧ text.head? ≠ some 10

def ValueText.token (v : ValueText) : Token := v.kind.token v.text

/-- The first byte and those where a range starts or has just ended. -/
def ByteSet.cuts (cs : List ByteSet) : List UInt8 :=
  0 :: cs.flatMap fun c => c.ranges.flatMap fun r => [r.1, r.2 + 1]

theorem mem_pred {c : ByteSet} {b : UInt8} (hb : b ≠ 0)
    (h : ∀ r ∈ c.ranges, b ≠ r.1 ∧ b ≠ r.2 + 1) : c.mem b = c.mem (b - 1) := by
  have hrange : ∀ r ∈ c.ranges, (decide (r.1 ≤ b) && decide (b ≤ r.2)) =
      (decide (r.1 ≤ b - 1) && decide (b - 1 ≤ r.2)) := by
    intro r hr
    obtain ⟨hstart, hend⟩ := h r hr
    have hpred : (b - 1).toNat = b.toNat - 1 := by
      rw [UInt8.toNat_sub_of_le b 1]
      · rfl
      · rw [UInt8.le_iff_toNat_le]
        have : b.toNat ≠ 0 := fun h => hb (UInt8.toNat_inj.mp h)
        change 1 ≤ b.toNat
        omega
    have hzero : b.toNat ≠ 0 := fun h => hb (UInt8.toNat_inj.mp h)
    have hstart' : b.toNat ≠ r.1.toNat := fun h => hstart (UInt8.toNat_inj.mp h)
    have hend' : b.toNat ≠ (r.2.toNat + 1) % 256 := by
      intro h
      refine hend (UInt8.toNat_inj.mp (h.trans ?_))
      rw [UInt8.toNat_add]
      rfl
    have := UInt8.toNat_lt b
    have := UInt8.toNat_lt r.2
    rw [Bool.eq_iff_iff]
    simp only [Bool.and_eq_true, decide_eq_true_eq, UInt8.le_iff_toNat_le, hpred]
    omega
  rw [ByteSet.mem, ByteSet.mem, Bool.eq_iff_iff]
  have hany : (c.ranges.any fun r => decide (r.1 ≤ b) && decide (b ≤ r.2)) =
      c.ranges.any fun r => decide (r.1 ≤ b - 1) && decide (b - 1 ≤ r.2) := by
    rw [Bool.eq_iff_iff, List.any_eq_true, List.any_eq_true]
    constructor
    · rintro ⟨r, hr, hrb⟩
      exact ⟨r, hr, (hrange r hr).symm.trans hrb⟩
    · rintro ⟨r, hr, hrb⟩
      exact ⟨r, hr, (hrange r hr).trans hrb⟩
  rw [hany]

/-- Sets tell a byte no better apart than the last of the cuts before it. -/
theorem exists_cut (cs : List ByteSet) (b : UInt8) :
    ∃ a ∈ ByteSet.cuts cs, ∀ c ∈ cs, c.mem b = c.mem a := by
  induction hn : b.toNat generalizing b with
  | zero =>
    have hzero : b = 0 := UInt8.toNat_inj.mp hn
    exact ⟨b, hzero ▸ List.mem_cons_self, fun _ _ => rfl⟩
  | succ n ih =>
    by_cases hb : b ∈ ByteSet.cuts cs
    · exact ⟨b, hb, fun _ _ => rfl⟩
    · have hzero : b ≠ 0 := fun h => hb (h ▸ List.mem_cons_self)
      have hpred : (b - 1).toNat = n := by
        rw [UInt8.toNat_sub_of_le b 1]
        · rw [hn]
          rfl
        · rw [UInt8.le_iff_toNat_le, hn]
          exact Nat.le_add_left 1 n
      obtain ⟨a, ha, hlike⟩ := ih (b - 1) hpred
      refine ⟨a, ha, fun c hc => (mem_pred hzero fun r hr => ?_).trans (hlike c hc)⟩
      have hcut : ∀ a ∈ [r.1, r.2 + 1], a ∈ ByteSet.cuts cs := by
        intro a ha
        exact List.mem_cons_of_mem _ (List.mem_flatMap.mpr
          ⟨c, hc, List.mem_flatMap.mpr ⟨r, hr, ha⟩⟩)
      exact ⟨fun h => hb (hcut b (by simp [h])), fun h => hb (hcut b (by simp [h]))⟩

theorem like_of_cuts {cs : List ByteSet} {bs : List UInt8}
    (h : ∀ a ∈ ByteSet.cuts cs, ∃ b' ∈ bs, ∀ c ∈ cs, c.mem a = c.mem b') (b : UInt8) :
    ∃ b' ∈ bs, ∀ c ∈ cs, c.mem b = c.mem b' := by
  obtain ⟨a, ha, hba⟩ := exists_cut cs b
  obtain ⟨b', hb', hab⟩ := h a ha
  exact ⟨b', hb', fun c hc => (hba c hc).trans (hab c hc)⟩

def ByteSet.points (bs : List UInt8) : ByteSet := ⟨bs.map fun b => (b, b), false⟩

theorem mem_ranges {bs : List UInt8} {b : UInt8} {negated : Bool} :
    ByteSet.mem ⟨bs.map fun b => (b, b), negated⟩ b = (decide (b ∈ bs) != negated) := by
  have hpoint (a : UInt8) : a ≤ b ∧ b ≤ a ↔ b = a :=
    ⟨fun h => UInt8.le_antisymm h.2 h.1, fun h => h ▸ ⟨UInt8.le_refl _, UInt8.le_refl _⟩⟩
  have hany : (bs.any fun a => decide (a ≤ b) && decide (b ≤ a)) = decide (b ∈ bs) := by
    rw [Bool.eq_iff_iff]
    simp [hpoint]
  rw [ByteSet.mem, List.any_map]
  exact congrArg (· != negated) hany

/-- The rules of a state that go on after a text are done with it. -/
def Done (rules : List (Pattern × LexAction)) (text : List UInt8) : Prop :=
  ∀ rule ∈ rules, (rule.1.derivs ByteSet.mem text).isDone

instance (rules : List (Pattern × LexAction)) (text : List UInt8) : Decidable (Done rules text) :=
  inferInstanceAs (Decidable (∀ rule ∈ rules, _ = true))

/-- Bytes that blanks do not go on with. -/
def NotBlank (b : UInt8) : Prop := ByteSet.mem ⟨[(32, 32), (9, 9), (10, 10)], false⟩ b = false

instance (b : UInt8) : Decidable (NotBlank b) := inferInstanceAs (Decidable (_ = _))

/-- Only blanks go on after a blank. -/
def BlankOnly (rules : List (Pattern × LexAction)) : Prop :=
  ∀ rule ∈ rules, rule.1 = blank ∨ (rule.1.derivs ByteSet.mem [32]).isDone

instance (rules : List (Pattern × LexAction)) : Decidable (BlankOnly rules) :=
  inferInstanceAs (Decidable (∀ rule ∈ rules, _ ∨ _ = true))

/-- No rule matches a text. -/
def Unmatched (rules : List (Pattern × LexAction)) (text : List UInt8) : Prop :=
  ∀ rule ∈ rules, (rule.1.derivs ByteSet.mem text).nullable = false

instance (rules : List (Pattern × LexAction)) (text : List UInt8) :
    Decidable (Unmatched rules text) :=
  inferInstanceAs (Decidable (∀ rule ∈ rules, _ = false))

/-- What is left of the pattern of paths after each kind of text. -/
def pathStates : List Pattern :=
  ["", "a", "a.", "a(", "a(-", "a(0", "a(\"", "a(\"b", "a(\"b\"", "a('", "a('b", "a(0)", "a()"].map
    fun text => idmefPath.derivs ByteSet.mem (ascii text)

def pathBytes : List UInt8 := [32, 97, 48, 42, 45, 46, 40, 41, 34, 39]

/-- What is left of the patterns of strings after each kind of text. -/
def stringStates : List Pattern :=
  [sqstring, dqstring, rsqstring, rdqstring].flatMap fun r =>
    ["", "r", "'", "'\\", "''", "\"", "\"\\", "\"\"", "a"].map fun text =>
      r.derivs ByteSet.mem (ascii text)

/-- A byte of each kind that the patterns of strings tell apart. -/
def stringBytes : List UInt8 := [32, 39, 34, 92, 10, 114]

/-- What evaluation tells about the tables of rules. -/
structure Tables : Prop where
  relationDone : ∀ r : TokRelation, Done initialRules (r.text ++ [32])
  initialBlank : Unmatched (initialRules.take 29) [32] ∧ BlankOnly initialRules
  valueBlank : Unmatched (valueRules.take 5) [32] ∧ BlankOnly valueRules
  initialAvoids : ∀ rule ∈ initialRules, rule.1.avoids ByteSet.mem 32 ∨
    rule.1 = idmefPath ∨ rule.1 = blank ∨ rule.1 = dot
  initialBeforePath : ∀ rule ∈ initialRules.take 4, rule.1 = lit "substr" ∨
    rule.1 = lit "!substr" ∨ rule.1 = lit "substr*" ∨ rule.1 = lit "!substr*"
  noPath : (idmefPath.derivs ByteSet.mem (ascii "!substr")).nullable = false ∧
    (idmefPath.derivs ByteSet.mem (ascii "substr*")).nullable = false ∧
    (idmefPath.derivs ByteSet.mem (ascii "!substr*")).nullable = false
  pathLike : ∀ a ∈ ByteSet.cuts idmefPath.classes.dedup, ∃ b' ∈ pathBytes,
    ∀ c ∈ idmefPath.classes.dedup, ByteSet.mem c a = ByteSet.mem c b'
  pathClasses : ∀ r ∈ pathStates, ∀ c ∈ r.classes, c ∈ idmefPath.classes.dedup
  pathClosed : ∀ r ∈ pathStates, ∀ b ∈ pathBytes, Rx.deriv ByteSet.mem b r ∈ pathStates
  pathStops : ∀ r ∈ pathStates, r.nullable → (Rx.deriv ByteSet.mem 32 r).isFail
  stringLike : ∀ a ∈ ByteSet.cuts (stringStates.flatMap Rx.classes).dedup, ∃ b' ∈ stringBytes,
    ∀ c ∈ (stringStates.flatMap Rx.classes).dedup, ByteSet.mem c a = ByteSet.mem c b'
  stringClasses : ∀ r ∈ stringStates, ∀ c ∈ r.classes,
    c ∈ (stringStates.flatMap Rx.classes).dedup
  stringClosed : ∀ r ∈ stringStates, ∀ b ∈ stringBytes,
    Rx.deriv ByteSet.mem b r ∈ stringStates
  stringStops : ∀ b : UInt8, b ∈ ([32, 41] : List UInt8) → ∀ r ∈ stringStates, r.nullable →
    (Rx.deriv ByteSet.mem b r).isFail
  stringMem : ∀ k : ValueKind, k ≠ .bare → k.pattern ∈ stringStates
  otherFirsts : ∀ rule ∈ (valueRules.drop 5).dropLast, ∀ c ∈ rule.1.firsts,
    ∃ bs ∈ ([[32, 9, 10], [40], [41], [38], [124]] : List (List UInt8)), c = .points bs

theorem tables : Tables := by
  constructor
  case relationDone =>
    have hall : ∀ r ∈ ([.substring, .substringNocase, .notSubstring, .notSubstringNocase, .regexp,
        .regexpNocase, .notRegexp, .notRegexpNocase, .greater, .greaterOrEqual, .less,
        .lessOrEqual, .equal, .equalNocase, .notEqual, .notEqualNocase] : List TokRelation),
        Done initialRules (r.text ++ [32]) := by
      decide +kernel
    intro r
    exact hall r (by cases r <;> simp)
  case stringMem =>
    have hall : ∀ k ∈ ([.rsqstring, .rdqstring, .sqstring, .dqstring] : List ValueKind),
        k.pattern ∈ stringStates := by
      decide +kernel
    intro k hk
    exact hall k (by cases k <;> simp_all)
  all_goals decide +kernel

section

variable {st : LexState} {rest text : List UInt8} {b : UInt8}

theorem scan_initial {act : LexAction} (hst : st.start = .initial)
    (hm : munch ByteSet.mem initialRules (text ++ rest) = some (text.length, act))
    (hne : text ≠ []) : criteriaScanner.scan st (text ++ rest) =
      ((act st text).2.toList ++ (criteriaScanner.scan (act st text).1 rest).1,
        (criteriaScanner.scan (act st text).1 rest).2) := by
  refine Scanner.scan_append ?_ hne
  simp only [criteriaScanner, hst]
  exact hm

theorem scan_value {act : LexAction} (hst : st.start = .idmefValue)
    (hm : munch ByteSet.mem valueRules (text ++ rest) = some (text.length, act))
    (hne : text ≠ []) : criteriaScanner.scan st (text ++ rest) =
      ((act st text).2.toList ++ (criteriaScanner.scan (act st text).1 rest).1,
        (criteriaScanner.scan (act st text).1 rest).2) := by
  refine Scanner.scan_append ?_ hne
  simp only [criteriaScanner, hst]
  exact hm

theorem munch_done {rules : List (Pattern × LexAction)} {n : ℕ} {act : LexAction}
    (hdone : Done rules text) (hm : munch ByteSet.mem rules text = some (n, act)) :
    munch ByteSet.mem rules (text ++ rest) = some (n, act) :=
  (munch_append_done hdone).trans hm

theorem scan_relation (hst : st.start = .initial) (r : TokRelation) :
    criteriaScanner.scan st (r.text ++ 32 :: rest) =
      (.relation r :: (criteriaScanner.scan st.push (32 :: rest)).1,
        (criteriaScanner.scan st.push (32 :: rest)).2) := by
  have hm : munch ByteSet.mem initialRules (r.text ++ 32 :: rest) =
      some (r.text.length, LexAction.relation r) := by
    rw [List.append_cons]
    refine munch_done (tables.relationDone r) ?_
    cases r <;> rfl
  rw [scan_initial hst hm (by cases r <;> decide)]
  rfl

theorem scan_initial_fixed (hst : st.start = .initial) (text : List UInt8) (act : LexAction)
    (hne : text ≠ [])
    (hdone : Done initialRules text)
    (hm : munch ByteSet.mem initialRules text = some (text.length, act)) :
    criteriaScanner.scan st (text ++ rest) =
      ((act st text).2.toList ++ (criteriaScanner.scan (act st text).1 rest).1,
        (criteriaScanner.scan (act st text).1 rest).2) :=
  scan_initial hst (munch_done hdone hm) hne

theorem scan_value_fixed (hst : st.start = .idmefValue) (text : List UInt8) (act : LexAction)
    (hne : text ≠ [])
    (hdone : Done valueRules text)
    (hm : munch ByteSet.mem valueRules text = some (text.length, act)) :
    criteriaScanner.scan st (text ++ rest) =
      ((act st text).2.toList ++ (criteriaScanner.scan (act st text).1 rest).1,
        (criteriaScanner.scan (act st text).1 rest).2) :=
  scan_value hst (munch_done hdone hm) hne

theorem not_matches_blank {w : List UInt8} (hb : NotBlank b) (hmem : b ∈ w) :
    ¬ blank.Matches ByteSet.mem w := by
  intro h
  exact Bool.false_ne_true (hb.symm.trans ((Rx.matches_plus_set.mp h).2 b hmem))

theorem munch_blank {rules before after : List (Pattern × LexAction)}
    (hrules : rules = before ++ (blank, skip) :: after) (hbefore : Unmatched before [32])
    (honly : BlankOnly rules) (hb : NotBlank b) :
    munch ByteSet.mem rules ([32] ++ b :: rest) = some (1, skip) := by
  have hblank : blank.Matches ByteSet.mem [32] := by
    rw [Rx.matches_iff_nullable]
    rfl
  subst hrules
  refine munch_eq hblank (fun rule hmem u hne hu => ?_) fun rule hmem => ?_
  · obtain ⟨c, u, rfl⟩ := List.exists_cons_of_ne_nil hne
    obtain ⟨rfl, -⟩ := List.cons_prefix_cons.mp hu
    rcases honly rule hmem with heq | hdone
    · rw [heq]
      exact not_matches_blank hb (List.mem_cons_of_mem _ List.mem_cons_self)
    · rw [← Rx.matches_derivs]
      exact Rx.not_matches_done hdone
  · rw [Rx.matches_iff_nullable, hbefore rule hmem]
    exact Bool.false_ne_true

theorem scan_blank (hb : NotBlank b) :
    criteriaScanner.scan st (32 :: b :: rest) = criteriaScanner.scan st (b :: rest) := by
  have hinitial : initialRules = initialRules.take 29 ++ (blank, skip) :: initialRules.drop 30 :=
    rfl
  have hvalue : valueRules = valueRules.take 5 ++ (blank, skip) :: valueRules.drop 6 := rfl
  cases hst : st.start with
  | initial =>
    have hm := @munch_blank rest b _ _ _ hinitial tables.initialBlank.1 tables.initialBlank.2 hb
    exact scan_initial hst hm (show [32] ≠ [] by decide)
  | idmefValue =>
    have hm := @munch_blank rest b _ _ _ hvalue tables.valueBlank.1 tables.valueBlank.2 hb
    exact scan_value hst hm (show [32] ≠ [] by decide)

theorem matches_literal {bs w : List UInt8} :
    (seqs (bs.map fun b => .set ⟨[(b, b)], false⟩)).Matches ByteSet.mem w ↔ w = bs := by
  have hmem (b c : UInt8) : ByteSet.mem ⟨[(b, b)], false⟩ c ↔ c = b := by
    rw [show ByteSet.mem ⟨[(b, b)], false⟩ c = _ from @mem_ranges [b] _ _]
    simp
  induction bs generalizing w with
  | nil => exact Rx.matches_empty
  | cons b bs ih =>
    cases bs with
    | nil =>
      rw [List.map_singleton, seqs, Rx.matches_set]
      constructor
      · rintro ⟨c, hc, rfl⟩
        rw [(hmem b c).mp hc]
      · rintro rfl
        exact ⟨b, (hmem b b).mpr rfl, rfl⟩
    | cons b' bs =>
      refine Rx.matches_seq.trans ?_
      constructor
      · rintro ⟨u, v, rfl, hu, hv⟩
        obtain ⟨c, hc, rfl⟩ := Rx.matches_set.mp hu
        rw [(hmem b c).mp hc, ih.mp hv]
        rfl
      · rintro rfl
        exact ⟨[b], b' :: bs, rfl, Rx.matches_set.mpr ⟨b, (hmem b b).mpr rfl, rfl⟩, ih.mpr rfl⟩

theorem stops_idmefPath : Rx.Stops ByteSet.mem idmefPath 32 := by
  have hlike : ∀ b : UInt8, ∃ b' ∈ pathBytes, ∀ c ∈ idmefPath.classes.dedup,
      ByteSet.mem c b = ByteSet.mem c b' := like_of_cuts tables.pathLike
  exact Rx.stops_of_closed hlike tables.pathClasses tables.pathClosed tables.pathStops
    List.mem_cons_self

theorem head_of_matches {r : Pattern} (hnil : r.nullable = false)
    (h : r.Matches ByteSet.mem text) : ∃ b w, text = b :: w ∧ ∃ c ∈ r.firsts, ByteSet.mem c b := by
  cases text with
  | nil => exact absurd (Rx.nullable_iff.mpr h) (by simp [hnil])
  | cons b w => exact ⟨b, w, rfl, Rx.first_of_matches h rfl⟩

theorem head_of_point {r : Pattern} {a : UInt8} (hnil : r.nullable = false)
    (hfirst : r.firsts = [.points [a]]) (h : r.Matches ByteSet.mem text) :
    ∃ w, text = a :: w := by
  obtain ⟨b, w, rfl, c, hc, hb⟩ := head_of_matches hnil h
  rw [hfirst, List.mem_singleton] at hc
  rw [hc, ByteSet.points, mem_ranges] at hb
  exact ⟨w, by simpa using hb⟩

theorem path_head (h : idmefPath.Matches ByteSet.mem text) :
    ∃ b w, text = b :: w ∧ NotBlank b := by
  obtain ⟨b, w, rfl, c, hc, hb⟩ := head_of_matches rfl h
  refine ⟨b, w, rfl, ?_⟩
  rw [show idmefPath.firsts =
    [⟨[(97, 122), (65, 90), (48, 57), (95, 95), (45, 45)], false⟩] from rfl,
    List.mem_singleton] at hc
  subst hc
  have hblank : ∀ a ∈ ([32, 9, 10] : List UInt8), ByteSet.mem
      ⟨[(97, 122), (65, 90), (48, 57), (95, 95), (45, 45)], false⟩ a = false := by
    simp [ByteSet.mem]
  refine (@mem_ranges [32, 9, 10] _ _).trans ?_
  rw [Bool.bne_false, decide_eq_false_iff_not]
  intro hmem
  rw [hblank b hmem] at hb
  cases hb

theorem scan_path (hst : st.start = .initial) (w : PathText) :
    criteriaScanner.scan st (w.text ++ 32 :: rest) =
      (.path w.text :: (criteriaScanner.scan st (32 :: rest)).1,
        (criteriaScanner.scan st (32 :: rest)).2) := by
  obtain ⟨b, w', htext, hb⟩ := path_head w.isPath
  have hm : munch ByteSet.mem initialRules (w.text ++ 32 :: rest) =
      some (w.text.length, fun st s => (st, some (.path s))) := by
    have hrules : initialRules = initialRules.take 4 ++
        (idmefPath, fun st s => (st, some (.path s))) :: initialRules.drop 5 := rfl
    rw [hrules]
    refine munch_eq w.isPath (fun rule hmem u hne hu => ?_) fun rule hmem hmatch => ?_
    · rw [← hrules] at hmem
      obtain ⟨c, u, rfl⟩ := List.exists_cons_of_ne_nil hne
      obtain ⟨rfl, -⟩ := List.cons_prefix_cons.mp hu
      intro hmatch
      rcases tables.initialAvoids rule hmem with havoid | heq | heq | heq
      · exact Rx.not_mem_of_avoids havoid hmatch (by simp)
      · rw [heq] at hmatch
        exact stops_idmefPath _ _ w.isPath hmatch
      · rw [heq] at hmatch
        exact not_matches_blank hb (by simp [htext]) hmatch
      · rw [heq] at hmatch
        obtain ⟨c, -, hc⟩ := Rx.matches_set.mp hmatch
        have := congrArg List.length hc
        simp [htext] at this
    · have hlit {cs : String} (h : (lit cs).Matches ByteSet.mem w.text) : w.text = ascii cs :=
        matches_literal.mp h
      have hnot {cs : String} (hcs : (idmefPath.derivs ByteSet.mem (ascii cs)).nullable = false)
          (h : (lit cs).Matches ByteSet.mem w.text) : False := by
        have := w.isPath
        rw [hlit h, Rx.matches_iff_nullable, hcs] at this
        cases this
      rcases tables.initialBeforePath rule hmem with h | h | h | h <;> rw [h] at hmatch
      · exact w.notRelation (hlit hmatch)
      · exact hnot tables.noPath.1 hmatch
      · exact hnot tables.noPath.2.1 hmatch
      · exact hnot tables.noPath.2.2 hmatch
  rw [scan_initial hst hm (by simp [htext])]
  rfl

theorem sqstring_head (h : sqstring.Matches ByteSet.mem text) : ∃ w, text = 39 :: w :=
  head_of_point rfl rfl h

theorem dqstring_head (h : dqstring.Matches ByteSet.mem text) : ∃ w, text = 34 :: w :=
  head_of_point rfl rfl h

theorem raw_head {r : Pattern} (h : Rx.Matches ByteSet.mem (.seq (oneOf "r") r) text) :
    ∃ w, text = 114 :: w ∧ r.Matches ByteSet.mem w := by
  obtain ⟨u, v, rfl, hu, hv⟩ := Rx.matches_seq.mp h
  exact ⟨v, by rw [(@matches_literal [114] _).mp hu]; rfl, hv⟩

theorem opening_of_matches {k : ValueKind} (hk : k ≠ .bare)
    (h : k.pattern.Matches ByteSet.mem text) : opening text = some k := by
  cases k with
  | rsqstring =>
    obtain ⟨w, rfl, hw⟩ := raw_head h
    obtain ⟨w, rfl⟩ := sqstring_head hw
    rfl
  | rdqstring =>
    obtain ⟨w, rfl, hw⟩ := raw_head h
    obtain ⟨w, rfl⟩ := dqstring_head hw
    rfl
  | sqstring =>
    obtain ⟨w, rfl⟩ := sqstring_head h
    rfl
  | dqstring =>
    obtain ⟨w, rfl⟩ := dqstring_head h
    rfl
  | bare => exact absurd rfl hk

def Ends (b : UInt8) : Prop := b = 32 ∨ b = 41

theorem opening_append (hne : text ≠ []) (hb : Ends b) :
    opening (text ++ b :: rest) = opening text := by
  obtain ⟨c, w, rfl⟩ := List.exists_cons_of_ne_nil hne
  cases w with
  | nil => rcases hb with rfl | rfl <;> simp [opening]
  | cons d w => rfl

theorem stops_string {k : ValueKind} (hk : k ≠ .bare) (hb : Ends b) :
    Rx.Stops ByteSet.mem k.pattern b := by
  have hlike : ∀ b : UInt8, ∃ b' ∈ stringBytes, ∀ c ∈ (stringStates.flatMap Rx.classes).dedup,
      ByteSet.mem c b = ByteSet.mem c b' := like_of_cuts tables.stringLike
  refine Rx.stops_of_closed hlike tables.stringClasses tables.stringClosed
    (tables.stringStops b ?_) (tables.stringMem k hk)
  rcases hb with rfl | rfl <;> decide

theorem opening_first {k : ValueKind} (h : opening text = some k) :
    ∃ c w, text = c :: w ∧ (c = 39 ∨ c = 34 ∨ c = 114) := by
  cases text with
  | nil => cases h
  | cons c w =>
    refine ⟨c, w, rfl, ?_⟩
    by_contra hne
    push Not at hne
    simp [opening, hne] at h

namespace ValueText

theorem opening_eq (v : ValueText) :
    opening v.text = if v.kind = .bare then none else some v.kind := by
  split_ifs with hk
  · exact (v.isWord hk).1
  · exact opening_of_matches hk v.isValue

theorem head (v : ValueText) : ∃ c w, v.text = c :: w ∧
    ByteSet.mem ⟨(ascii " \t()&|").map fun b => (b, b), true⟩ c ∧ c ≠ 10 := by
  cases hk : v.kind with
  | bare =>
    have hv := v.isValue
    rw [hk] at hv
    obtain ⟨hne, hall⟩ := Rx.matches_plus_set.mp hv
    obtain ⟨c, w, hw⟩ := List.exists_cons_of_ne_nil hne
    refine ⟨c, w, hw, hall c (by simp [hw]), fun hc => ?_⟩
    refine (v.isWord hk).2 ?_
    rw [hw, hc]
    rfl
  | _ =>
    have hopen := v.opening_eq
    rw [hk, if_neg (by decide)] at hopen
    obtain ⟨c, w, hw, rfl | rfl | rfl⟩ := opening_first hopen <;>
      exact ⟨_, w, hw, by decide, by decide⟩

theorem ne_nil (v : ValueText) : v.text ≠ [] := by
  obtain ⟨c, w, hw, -⟩ := v.head
  simp [hw]

/-- The patterns of values do not go on after a value where it ends. -/
theorem not_pattern (v : ValueText) (hb : Ends b) (k : ValueKind) :
    ¬ k.pattern.Matches ByteSet.mem (v.text ++ b :: rest) := by
  intro h
  by_cases hk : k = .bare
  · subst hk
    have hmem := (Rx.matches_plus_set.mp h).2 b (by simp)
    rcases hb with rfl | rfl <;> revert hmem <;> decide
  · have hopen := opening_of_matches hk h
    rw [opening_append v.ne_nil hb, v.opening_eq] at hopen
    split_ifs at hopen
    obtain rfl := Option.some.inj hopen
    exact stops_string hk hb _ _ v.isValue h

theorem not_earlier (v : ValueText) {k : ValueKind} (hk : k ≠ .bare) (hne : k ≠ v.kind) :
    ¬ k.pattern.Matches ByteSet.mem v.text := by
  intro h
  have hopen := opening_of_matches hk h
  rw [v.opening_eq] at hopen
  split_ifs at hopen
  exact hne (Option.some.inj hopen).symm

end ValueText

def ValueKind.rule (k : ValueKind) : Pattern × LexAction := (k.pattern, k.action)

theorem valueRules_eq : valueRules =
    [ValueKind.rsqstring, .rdqstring, .sqstring, .dqstring, .bare].map ValueKind.rule ++
      ((valueRules.drop 5).dropLast ++ [(dot, token .error)]) := rfl

theorem valueRules_cases {rule : Pattern × LexAction} (hmem : rule ∈ valueRules) :
    (∃ k : ValueKind, rule.1 = k.pattern) ∨ rule.1 = dot ∨ ∀ (b : UInt8) (w : List UInt8),
      ByteSet.mem ⟨(ascii " \t()&|").map fun b => (b, b), true⟩ b → b ≠ 10 →
        ¬ rule.1.Matches ByteSet.mem (b :: w) := by
  rw [valueRules_eq] at hmem
  rcases List.mem_append.mp hmem with hmem | hmem
  · obtain ⟨k, -, rfl⟩ := List.mem_map.mp hmem
    exact .inl ⟨k, rfl⟩
  · rcases List.mem_append.mp hmem with hmem | hmem
    · refine .inr (.inr fun b w hb hnewline hmatch => ?_)
      obtain ⟨c, hc, hfirst⟩ := Rx.first_of_matches hmatch rfl
      obtain ⟨bs, hbs, rfl⟩ := tables.otherFirsts rule hmem c hc
      rw [ByteSet.points, mem_ranges, Bool.bne_false, decide_eq_true_eq] at hfirst
      have hends : b ∈ ([32, 9, 40, 41, 38, 124] : List UInt8) ∨ b = 10 := by
        simp only [List.mem_cons, List.not_mem_nil, or_false] at hbs
        rcases hbs with rfl | rfl | rfl | rfl | rfl <;>
          simp only [List.mem_cons, List.not_mem_nil, or_false] at hfirst ⊢ <;> grind
      rw [mem_ranges, Bool.bne_true, Bool.not_eq_true', decide_eq_false_iff_not] at hb
      exact hends.elim hb hnewline
    · rw [List.mem_singleton.mp hmem]
      exact .inr (.inl rfl)

theorem valueRules_split (k : ValueKind) : ∃ (ks : List ValueKind) (after : List _),
    valueRules = ks.map ValueKind.rule ++ (k.pattern, k.action) :: after ∧
      ∀ k' ∈ ks, k' ≠ .bare ∧ k' ≠ k := by
  cases k with
  | rsqstring => exact ⟨[], valueRules.drop 1, rfl, by decide⟩
  | rdqstring => exact ⟨[.rsqstring], valueRules.drop 2, rfl, by decide⟩
  | sqstring => exact ⟨[.rsqstring, .rdqstring], valueRules.drop 3, rfl, by decide⟩
  | dqstring => exact ⟨[.rsqstring, .rdqstring, .sqstring], valueRules.drop 4, rfl, by decide⟩
  | bare =>
    exact ⟨[.rsqstring, .rdqstring, .sqstring, .dqstring], valueRules.drop 5, rfl, by decide⟩

/-- A value is read up to a blank, a closing parenthesis or the end of the text. -/
theorem scan_valueText (hst : st.start = .idmefValue) (v : ValueText)
    (hrest : ∀ b w, rest = b :: w → Ends b) : criteriaScanner.scan st (v.text ++ rest) =
      (v.token :: (criteriaScanner.scan st.popAfterValue rest).1,
        (criteriaScanner.scan st.popAfterValue rest).2) := by
  obtain ⟨c, w, hw, hc, hnewline⟩ := v.head
  have hlong : ∀ rule ∈ valueRules, ∀ u, u ≠ [] → u <+: rest →
      ¬ rule.1.Matches ByteSet.mem (v.text ++ u) := by
    intro rule hmem u hne hu
    obtain ⟨b, u, rfl⟩ := List.exists_cons_of_ne_nil hne
    obtain ⟨w', hw'⟩ := hu
    have hb : Ends b := hrest b (u ++ w') hw'.symm
    rcases valueRules_cases hmem with ⟨k, heq⟩ | heq | hfail
    · rw [heq]
      exact v.not_pattern hb k
    · rw [heq]
      intro hmatch
      obtain ⟨d, -, hd⟩ := Rx.matches_set.mp hmatch
      have := congrArg List.length hd
      simp [hw] at this
    · rw [hw, List.cons_append]
      exact hfail c _ hc hnewline
  have hm : munch ByteSet.mem valueRules (v.text ++ rest) =
      some (v.text.length, v.kind.action) := by
    obtain ⟨ks, after, hrules, hks⟩ := valueRules_split v.kind
    rw [hrules] at hlong ⊢
    refine munch_eq v.isValue hlong fun rule hmem => ?_
    obtain ⟨k, hk, rfl⟩ := List.mem_map.mp hmem
    exact v.not_earlier (hks k hk).1 (hks k hk).2
  rw [scan_value hst hm v.ne_nil]
  unfold ValueText.token
  cases v.kind <;> rfl

end

end LibPrelude
