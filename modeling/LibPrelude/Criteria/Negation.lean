import LibPrelude.Criteria.Value

/-! # Negated operators

A criterion with a negated operator should match exactly when the one with the
positive operator does not. Plain values keep to this. A regular expression matches
neither way what has no text, and a broken-down time fails on what is absent.
-/

namespace LibPrelude

/-- The operators of criteria without a negation. -/
def positiveOperators : List Operator :=
  [criterionEqual, criterionEqualNocase, criterionLesser, criterionLesserOrEqual,
    criterionGreater, criterionGreaterOrEqual, criterionSubstr, criterionSubstrNocase,
    criterionRegex, criterionRegexNocase, criterionNull]

variable {pl : Platform} {cv : CriterionValue} {op : Operator} {path : IdmefPath}
  {str : List UInt8} {x : Option ValueType}

theorem positive_facts (hop : op ∈ positiveOperators) :
    op.isCriterion ∧ op.negated.isCriterion ∧ op.not = false ∧ op ≠ {} ∧
      op ≠ criterionNotNull ∧ op.negated ≠ criterionNull ∧
      (op.negated = criterionNotNull ↔ op = criterionNull) := by
  simp only [positiveOperators, List.mem_cons, List.not_mem_nil, or_false] at hop
  rcases hop with rfl | rfl | rfl | rfl | rfl | rfl | rfl | rfl | rfl | rfl | rfl <;> decide

def countLeaves (pl : Platform) (cv : CriterionValue) (op : Operator) :
    List (Option ValueType) → MatchCb → Except ErrorCode MatchCb
  | [], mcb => .ok mcb
  | x :: xs, mcb =>
    match cv.match pl op x with
    | .error e => .error e
    | .ok ret => countLeaves pl cv op xs (mcb.count ret)

theorem countLeaves_append (xs ys : List (Option ValueType)) (mcb : MatchCb) :
    countLeaves pl cv op (xs ++ ys) mcb =
      match countLeaves pl cv op xs mcb with
      | .error e => .error e
      | .ok mcb => countLeaves pl cv op ys mcb := by
  induction xs generalizing mcb with
  | nil => rfl
  | cons x xs ih =>
    rw [List.cons_append, countLeaves, countLeaves]
    cases cv.match pl op x with
    | error e => rfl
    | ok ret => exact ih (mcb.count ret)

theorem countLeaves_singleton (x : Option ValueType) (mcb : MatchCb) :
    countLeaves pl cv op [x] mcb = (cv.match pl op x).map mcb.count := by
  rw [countLeaves]
  cases cv.match pl op x <;> rfl

mutual

theorem doMatchCb_eq (v : Option IdmefValue) (mcb : MatchCb) :
    doMatchCb pl cv op v mcb = countLeaves pl cv op (leavesOpt v) mcb := by
  match v with
  | none => rw [doMatchCb, leavesOpt, countLeaves_singleton]
  | some value => rw [doMatchCb, leavesOpt, doMatchValue_eq value mcb]

theorem doMatchValue_eq (v : IdmefValue) (mcb : MatchCb) :
    doMatchValue pl cv op v mcb = countLeaves pl cv op v.leaves mcb := by
  match v with
  | .scalar v => rw [doMatchValue, IdmefValue.leaves, countLeaves_singleton]
  | .list l => rw [doMatchValue, IdmefValue.leaves, doMatchList_eq l mcb]

theorem doMatchList_eq (l : List (Option IdmefValue)) (mcb : MatchCb) :
    doMatchList pl cv op l mcb = countLeaves pl cv op (leavesList l) mcb := by
  match l with
  | [] => rfl
  | v :: vs =>
    rw [doMatchList, leavesList, countLeaves_append, doMatchCb_eq v mcb]
    cases countLeaves pl cv op (leavesOpt v) mcb with
    | error e => rfl
    | ok mcb' => exact doMatchList_eq vs mcb'

end

def hit (pl : Platform) (cv : CriterionValue) (op : Operator) (x : Option ValueType) : Bool :=
  match cv.match pl op x with
  | .error _ => false
  | .ok ret => 0 < ret

theorem countLeaves_ok {xs : List (Option ValueType)}
    (h : ∀ x ∈ xs, ∃ ret, cv.match pl op x = .ok ret) (mcb : MatchCb) :
    countLeaves pl cv op xs mcb =
      .ok ⟨mcb.matched + xs.countP (hit pl cv op), mcb.nmatch + xs.countP (!hit pl cv op ·)⟩ := by
  induction xs generalizing mcb with
  | nil => rfl
  | cons x xs ih =>
    obtain ⟨ret, hret⟩ := h x List.mem_cons_self
    have hx : hit pl cv op x = decide (0 < ret) := by rw [hit, hret]
    rw [countLeaves, hret]
    simp only [ih fun y hy => h y (List.mem_cons_of_mem _ hy), List.countP_cons, hx, MatchCb.count]
    by_cases hpos : 0 < ret <;> simp [hpos] <;> omega

theorem countLeaves_error {xs : List (Option ValueType)} {e : ErrorCode} (hx : x ∈ xs)
    (he : cv.match pl op x = .error e) (mcb : MatchCb) :
    ∃ e, countLeaves pl cv op xs mcb = .error e := by
  induction xs generalizing mcb with
  | nil => cases hx
  | cons y ys ih =>
    rw [countLeaves]
    rcases hy : cv.match pl op y with e' | ret
    · exact ⟨e', rfl⟩
    · rcases List.mem_cons.mp hx with rfl | hx
      · rw [he] at hy
        cases hy
      · exact ih hx _

theorem leaves_of_not_list {v : Option IdmefValue} (h : isList v = false) :
    ∃ x, leavesOpt v = [x] := by
  match v with
  | none => exact ⟨none, rfl⟩
  | some (.scalar v) => exact ⟨some v, rfl⟩
  | some (.list l) => cases h

/-- Over what is designated a positive operator asks for one match, a negated one and the null
operator ask for nothing but matches. -/
theorem valueMatch_result {v : Option IdmefValue} (hne : leavesOpt v ≠ [])
    (h : ∀ x ∈ leavesOpt v, ∃ ret, cv.match pl op x = .ok ret) :
    ∃ n, idmefCriterionValueMatch pl (some cv) v op = .ok n ∧
      (0 < n ↔ if (op.not ∨ op = criterionNull) ∧ op ≠ criterionNotNull then
        ∀ x ∈ leavesOpt v, hit pl cv op x else ∃ x ∈ leavesOpt v, hit pl cv op x) := by
  have hex : 0 < (leavesOpt v).countP (hit pl cv op) ↔ ∃ x ∈ leavesOpt v, hit pl cv op x :=
    List.countP_pos_iff
  have hall : (leavesOpt v).countP (!hit pl cv op ·) = 0 ↔ ∀ x ∈ leavesOpt v, hit pl cv op x := by
    simp [List.countP_eq_zero]
  have hsome : (∀ x ∈ leavesOpt v, hit pl cv op x) → ∃ x ∈ leavesOpt v, hit pl cv op x := by
    intro hx
    obtain ⟨x, xs, heq⟩ := List.exists_cons_of_ne_nil hne
    exact ⟨x, by simp [heq], hx x (by simp [heq])⟩
  generalize hm : (leavesOpt v).countP (hit pl cv op) = m at hex
  generalize hn : (leavesOpt v).countP (!hit pl cv op ·) = n at hall
  have hmatch : idmefCriterionValueMatch pl (some cv) v op =
      .ok (if isList v ∧ op ≠ criterionNotNull then
        if op = criterionNull then if n = 0 then 1 else 0
        else if op.not ∧ 0 < n then 0 else m
      else m) := by
    simp only [idmefCriterionValueMatch, myValueMatch, doMatchCb_eq, countLeaves_ok h,
      Nat.zero_add, hm, hn]
    split_ifs <;> rfl
  refine ⟨_, hmatch, ?_⟩
  by_cases hl : isList v
  · by_cases hnn : op = criterionNotNull
    · simp [eq_true hnn, ← hex]
    · by_cases hnull : op = criterionNull
      · by_cases h0 : n = 0 <;> simp [hl, hnn, eq_true hnull, h0, ← hall]
      · by_cases hnot : op.not
        · by_cases h0 : n = 0
          · simp only [hl, hnn, hnull, hnot, h0, lt_irrefl, ne_eq, not_false_eq_true, and_self,
              if_true, if_false, and_false, or_false, hex]
            exact iff_of_true (hsome (hall.mp h0)) (hall.mp h0)
          · have hpos : 0 < n := Nat.pos_of_ne_zero h0
            simp [hl, hnn, hnull, hnot, hpos, ← hall, h0]
        · simp [hl, hnn, hnull, hnot, ← hex]
  · obtain ⟨x, hx⟩ := leaves_of_not_list (by simpa using hl)
    rw [hx] at hex ⊢
    simp only [hl, Bool.false_eq_true, false_and, if_false, hex]
    simp

theorem valueMatch_error {v : Option IdmefValue} {e : ErrorCode} (hx : x ∈ leavesOpt v)
    (he : cv.match pl op x = .error e) :
    ∃ e, idmefCriterionValueMatch pl (some cv) v op = .error e := by
  obtain ⟨e', he'⟩ := countLeaves_error hx he ⟨0, 0⟩
  refine ⟨e', ?_⟩
  simp only [idmefCriterionValueMatch, myValueMatch, doMatchCb_eq, he']

theorem compare_isSome {m : Machine} {tid : IdmefValueTypeId} (h : tid.operator ≠ {}) :
    ∃ c, tid.compare m = some c := by
  cases tid <;> first | exact ⟨_, rfl⟩ | exact absurd rfl h

theorem inter_negated {t : Operator} (hnot : op.not = false) (h : op.inter t ≠ {}) :
    op.negated.inter t ≠ {} := by
  intro heq
  refine h ?_
  simp only [Operator.inter, Operator.negated, Operator.mk.injEq] at heq ⊢
  simp only [hnot, Bool.false_and, and_true]
  exact ⟨heq.1, heq.2.1, heq.2.2.1, heq.2.2.2.1, heq.2.2.2.2.1, heq.2.2.2.2.2.1, heq.2.2.2.2.2.2.1,
    heq.2.2.2.2.2.2.2.1, heq.2.2.2.2.2.2.2.2.1⟩

theorem compare_supported {m : Machine} {v t : ValueType} (ht : x.or (some v) = some t)
    (hx : ∀ u, x = some u → u.id = v.id ∨ u.id = .enum) (hop : op.inter t.id.operator ≠ {}) :
    ∃ c, t.id.compare m = some c ∧ idmefValueTypeCompare m x (some v) op =
      (let ret := c x (some v) op.positive
      let ret := if ret < 0 then 1 else ret
      if op.not then .ok (if ret = 0 then 1 else 0) else .ok ret) := by
  have hne : t.id.operator ≠ {} := by
    intro h0
    rw [h0] at hop
    exact hop (by simp [Operator.inter])
  obtain ⟨c, hc⟩ := compare_isSome (m := m) hne
  refine ⟨c, hc, ?_⟩
  cases x with
  | none =>
    obtain rfl : v = t := by simpa using ht
    simp [idmefValueTypeCompare, hop, hc]
  | some u =>
    obtain rfl : u = t := by simpa using ht
    rcases hx u rfl with hu | hu
    · rw [hu] at hop hc
      simp [idmefValueTypeCompare, hop, hc, hu]
    · rw [hu] at hop hc
      simp [idmefValueTypeCompare, hop, hc, hu]

/-- Comparing values whose type supports the operator gives a number, and with the negated operator
zero exactly when the number is not zero. -/
theorem compare_negated {m : Machine} {v : ValueType} {tid : IdmefValueTypeId}
    (hop : op ∈ positiveOperators) (htid : op.inter tid.operator = op)
    (hvid : op.inter v.id.operator = op) (hv : v.id = tid ∨ tid = .enum)
    (hx : ∀ t, x = some t → t.id = tid) :
    ∃ ret, idmefValueTypeCompare m x (some v) op = .ok ret ∧
      idmefValueTypeCompare m x (some v) op.negated = .ok (if ret = 0 then 1 else 0) := by
  obtain ⟨-, -, hnot, hne, -⟩ := positive_facts hop
  obtain ⟨t, ht, hinter⟩ : ∃ t, x.or (some v) = some t ∧ op.inter t.id.operator = op := by
    cases x with
    | none => exact ⟨v, rfl, hvid⟩
    | some t => exact ⟨t, rfl, by rw [hx t rfl, htid]⟩
  have hxv : ∀ u, x = some u → u.id = v.id ∨ u.id = .enum := by
    intro u hu
    rw [hx u hu]
    exact hv.imp_left Eq.symm
  have hsup : op.inter t.id.operator ≠ {} := by rwa [hinter]
  obtain ⟨c, hc, heq⟩ := compare_supported (m := m) ht hxv hsup
  obtain ⟨c', hc', heq'⟩ := compare_supported (m := m) ht hxv (inter_negated hnot hsup)
  obtain rfl : c = c' := Option.some.inj (hc.symm.trans hc')
  rw [heq, heq', hnot]
  exact ⟨_, rfl, rfl⟩

theorem checkOperator_ok {tid : IdmefValueTypeId} :
    idmefValueTypeCheckOperator tid op = .ok () ↔ op.inter tid.operator = op := by
  unfold idmefValueTypeCheckOperator
  split_ifs with h <;> simp [h]

theorem criterionPlainValue_ok (h : criterionPlainValue pl path str op = .ok cv) :
    ∃ v, cv = .value v ∧ op.inter (idmefPathGetValueType path).operator = op ∧
      op.inter v.id.operator = op ∧
      (v.id = idmefPathGetValueType path ∨ idmefPathGetValueType path = .enum) := by
  unfold criterionPlainValue at h
  rcases hcheck : idmefValueTypeCheckOperator (idmefPathGetValueType path) op with e | u
  · simp [hcheck] at h
  simp only [hcheck] at h
  have hnew {v : ValueType} (h : idmefCriterionValueNewValue v op = .ok cv) :
      cv = .value v ∧ op.inter v.id.operator = op := by
    unfold idmefCriterionValueNewValue at h
    rcases hv : idmefValueTypeCheckOperator v.id op with e | u
    · simp [hv] at h
    · simp only [hv, Except.ok.injEq] at h
      exact ⟨h.symm, checkOperator_ok.mp hv⟩
  by_cases henum : idmefPathGetValueType path = .enum ∧ op.substr
  · simp only [henum, and_self, if_true] at h
    rcases hr : idmefValueTypeRead pl .string str with e | v
    · simp [hr] at h
    · simp only [hr] at h
      exact ⟨v, (hnew h).1, checkOperator_ok.mp hcheck, (hnew h).2, .inr henum.1⟩
  · simp only [henum, if_false] at h
    rcases hr : idmefValueNewFromPath pl path str with e | v
    · simp [hr] at h
    · simp only [hr] at h
      exact ⟨v, (hnew h).1, checkOperator_ok.mp hcheck, (hnew h).2,
        .inl (idmefValueNewFromPath_id hr)⟩

/-- What a criterion value made from a text can be. -/
def Accepted (path : IdmefPath) (op : Operator) : CriterionValue → Prop
  | .value v => op.inter (idmefPathGetValueType path).operator = op ∧ op.inter v.id.operator = op ∧
      (v.id = idmefPathGetValueType path ∨ idmefPathGetValueType path = .enum)
  | .regex _ _ => op.regex
  | .btime _ => idmefPathGetValueType path = .time

theorem newFromString_accepted (h : idmefCriterionValueNewFromString pl path str op = .ok cv) :
    Accepted path op cv := by
  unfold idmefCriterionValueNewFromString at h
  have hplain (h : criterionPlainValue pl path str op = .ok cv) : Accepted path op cv := by
    obtain ⟨v, rfl, hv⟩ := criterionPlainValue_ok h
    exact hv
  dsimp only at h
  split_ifs at h with htime hregex
  · split at h
    · cases h
      exact htime
    · exact hplain h
  · unfold idmefCriterionValueNewRegex at h
    split_ifs at h
    cases h
    exact hregex.1
  · exact hplain h

/-- A leaf of the right type for which the criterion value has an answer at all. -/
def Answers (pl : Platform) (cv : CriterionValue) (op : Operator) (x : Option ValueType) : Prop :=
  (∃ ret, cv.match pl op x = .ok ret) ∧ ∃ ret, cv.match pl op.negated x = .ok ret

theorem value_negated {v : ValueType} (hop : op ∈ positiveOperators)
    (hv : Accepted path op (.value v)) (hx : ∀ t, x = some t → t.id = idmefPathGetValueType path) :
    Answers pl (.value v) op x ∧
      hit pl (.value v) op.negated x = !hit pl (.value v) op x := by
  obtain ⟨ret, h, h'⟩ := compare_negated (m := pl.toMachine) hop hv.1 hv.2.1 hv.2.2 hx
  have hm : CriterionValue.match pl (.value v) op x = .ok (if ret = 0 then 1 else 0) := by
    simp only [CriterionValue.match, valueMatch, h]
  have hm' : CriterionValue.match pl (.value v) op.negated x = .ok (if ret = 0 then 0 else 1) := by
    simp only [CriterionValue.match, valueMatch, h']
    by_cases h0 : ret = 0 <;> simp [h0]
  refine ⟨⟨⟨_, hm⟩, _, hm'⟩, ?_⟩
  rw [hit, hit, hm, hm']
  by_cases h0 : ret = 0 <;> simp [h0]

theorem regex_negated {pattern : List UInt8} {nocase : Bool} (hop : op ∈ positiveOperators) :
    Answers pl (.regex pattern nocase) op x ∧
      hit pl (.regex pattern nocase) op.negated x =
        ((regexText x).isSome && !hit pl (.regex pattern nocase) op x) ∧
      (hit pl (.regex pattern nocase) op x → (regexText x).isSome) := by
  obtain ⟨-, -, hnot, -⟩ := positive_facts hop
  have hnot' : op.negated.not = true := rfl
  refine ⟨⟨⟨_, rfl⟩, _, rfl⟩, ?_⟩
  simp only [hit, CriterionValue.match, regexMatch]
  rcases regexText x with _ | s
  · simp
  · by_cases hr : pl.regexec nocase pattern (PreludeString.cString s) <;> simp [hr, hnot, hnot']

theorem doBtimeMatch_negated (tm : Tm) : doBtimeMatch tm op.negated x = doBtimeMatch tm op x := by
  rcases x with _ | v
  · rfl
  cases v
  case time t =>
    simp only [doBtimeMatch]
    cases needFullCompare tm <;> rfl
  all_goals rfl

theorem integerCompare_cases (a b : ℤ) : integerCompare a b op = 0 ∨ integerCompare a b op = 1 := by
  unfold integerCompare
  split_ifs <;> simp

theorem btime_negated {tm : Tm} {t : IdmefTime} (hop : op ∈ positiveOperators) :
    Answers pl (.btime tm) op (some (.time t)) ∧
      hit pl (.btime tm) op.negated (some (.time t)) = !hit pl (.btime tm) op (some (.time t)) := by
  obtain ⟨-, -, hnot, -⟩ := positive_facts hop
  have hnot' : op.negated.not = true := rfl
  have hret : doBtimeMatch tm op (some (.time t)) = 0 ∨
    doBtimeMatch tm op (some (.time t)) = 1 := by
    simp only [doBtimeMatch]
    split_ifs <;> first | exact .inl rfl | exact .inr rfl | exact integerCompare_cases _ _
  simp only [Answers, hit, CriterionValue.match, btimeMatch, doBtimeMatch_negated, hnot, hnot']
  rcases hret with hret | hret <;> simp [hret]

theorem btime_absent (pl : Platform) (tm : Tm) (op : Operator) :
    CriterionValue.match pl (.btime tm) op none = .error .generic := rfl

theorem criterionMatch_results {object : Obj} {v : Option IdmefValue}
    (hop : op ∈ positiveOperators) (hget : idmefPathGet path object = .ok v)
    (hne : leavesOpt v ≠ []) (h : ∀ x ∈ leavesOpt v, Answers pl cv op x) :
    ∃ b b', criterionMatch pl object ⟨path, some cv, op⟩ = .ok b ∧
      criterionMatch pl object ⟨path, some cv, op.negated⟩ = .ok b' ∧
      (b = true ↔ if op = criterionNull then ∀ x ∈ leavesOpt v, hit pl cv op x
        else ∃ x ∈ leavesOpt v, hit pl cv op x) ∧
      (b' = true ↔ if op = criterionNull then ∃ x ∈ leavesOpt v, hit pl cv op.negated x
        else ∀ x ∈ leavesOpt v, hit pl cv op.negated x) := by
  obtain ⟨hcrit, hcrit', hnot, -, hnn, hnull', hnn'⟩ := positive_facts hop
  have hnot' : op.negated.not = true := rfl
  have hs : ∀ x ∈ leavesOpt v, ∃ ret, cv.match pl op x = .ok ret := fun x hx => (h x hx).1
  have hs' : ∀ x ∈ leavesOpt v, ∃ ret, cv.match pl op.negated x = .ok ret :=
    fun x hx => (h x hx).2
  obtain ⟨n, hn, hpos⟩ := valueMatch_result hne hs
  obtain ⟨n', hn', hpos'⟩ := valueMatch_result hne hs'
  refine ⟨decide (0 < n), decide (0 < n'), ?_, ?_, ?_, ?_⟩
  · simp only [criterionMatch, hcrit, not_true_eq_false, if_false, hget, hn]
  · simp only [criterionMatch, hcrit', not_true_eq_false, if_false, hget, hn']
  · rw [decide_eq_true_iff, hpos]
    by_cases hnull : op = criterionNull
    · rw [if_pos ⟨.inr hnull, hnn⟩, if_pos hnull]
    · rw [if_neg (by simp [hnot, hnull]), if_neg hnull]
  · rw [decide_eq_true_iff, hpos']
    by_cases hnull : op = criterionNull
    · rw [if_neg fun hc => hc.2 (hnn'.mpr hnull), if_pos hnull]
    · rw [if_pos ⟨.inl hnot', fun hc => hnull (hnn'.mp hc)⟩, if_neg hnull]

theorem complement_of_leaves {object : Obj} {v : Option IdmefValue} (hop : op ∈ positiveOperators)
    (hget : idmefPathGet path object = .ok v) (hne : leavesOpt v ≠ [])
    (h : ∀ x ∈ leavesOpt v, Answers pl cv op x ∧ hit pl cv op.negated x = !hit pl cv op x) :
    ∃ b, criterionMatch pl object ⟨path, some cv, op⟩ = .ok b ∧
      criterionMatch pl object ⟨path, some cv, op.negated⟩ = .ok !b := by
  obtain ⟨b, b', hb, hb', hres, hres'⟩ :=
    criterionMatch_results hop hget hne fun x hx => (h x hx).1
  refine ⟨b, hb, ?_⟩
  rw [hb']
  have hneg : b' = true ↔ ¬ b = true := by
    rw [hres, hres']
    split_ifs
    · push Not
      refine exists_congr fun x => and_congr_right fun hx => ?_
      rw [(h x hx).2]
      cases hit pl cv op x <;> simp
    · push Not
      refine forall_congr' fun x => imp_congr_right fun hx => ?_
      rw [(h x hx).2]
      cases hit pl cv op x <;> simp
  rw [Except.ok.injEq, Bool.eq_iff_iff, hneg, Bool.not_eq_true, Bool.not_eq_true']

/-- The leaves on which a negated operator gives the opposite as a whole: for a regular expression
one leaf matches or all have a text, for a broken-down time none is absent. -/
def Complementary (pl : Platform) (cv : CriterionValue) (xs : List (Option ValueType)) : Prop :=
  match cv with
  | .value _ => True
  | .regex pattern nocase => (∃ x ∈ xs, ∃ s, regexText x = some s ∧
      pl.regexec nocase pattern (PreludeString.cString s)) ∨ ∀ x ∈ xs, (regexText x).isSome
  | .btime _ => none ∉ xs

theorem regex_hit {pattern : List UInt8} {nocase : Bool} (hop : op ∈ positiveOperators) :
    hit pl (.regex pattern nocase) op x ↔
      ∃ s, regexText x = some s ∧ pl.regexec nocase pattern (PreludeString.cString s) := by
  obtain ⟨-, -, hnot, -⟩ := positive_facts hop
  simp only [hit, CriterionValue.match, regexMatch]
  rcases regexText x with _ | s
  · simp
  · by_cases hr : pl.regexec nocase pattern (PreludeString.cString s) <;> simp [hr, hnot]

/-- A criterion made from a text and the one with the negated operator give opposite answers, and
no error, exactly when what the path designates is complementary for the value. -/
theorem criterion_negation_iff {object : Obj} (hop : op ∈ positiveOperators)
    (hcv : idmefCriterionValueNewFromString pl path str op = .ok cv)
    (ho : HasType (.struct path.topClass) object) :
    (∃ b, criterionMatch pl object ⟨path, some cv, op⟩ = .ok b ∧
      criterionMatch pl object ⟨path, some cv, op.negated⟩ = .ok !b) ↔
    ∃ v, idmefPathGet path object = .ok v ∧ Complementary pl cv (leavesOpt v) := by
  obtain ⟨v, hget, hne, htype⟩ := idmefPathGet_designates ho
  have hacc := newFromString_accepted hcv
  have hiff : (∃ w, idmefPathGet path object = .ok w ∧ Complementary pl cv (leavesOpt w)) ↔
      Complementary pl cv (leavesOpt v) := by
    constructor
    · rintro ⟨w, hw, hc⟩
      obtain rfl := Except.ok.inj (hget.symm.trans hw)
      exact hc
    · exact fun hc => ⟨v, hget, hc⟩
  rw [hiff]
  cases cv with
  | value w =>
    refine iff_of_true (complement_of_leaves hop hget hne fun x hx => ?_) True.intro
    exact value_negated hop hacc fun t ht => htype t (ht ▸ hx)
  | regex pattern nocase =>
    have hnn : op ≠ criterionNull := by
      rintro rfl
      cases hacc
    obtain ⟨b, b', hb, hb', hres, hres'⟩ := criterionMatch_results hop hget hne fun x _ =>
      (regex_negated hop (x := x)).1
    rw [if_neg hnn] at hres hres'
    have hopposite :
      (∃ c, criterionMatch pl object ⟨path, some (.regex pattern nocase), op⟩ = .ok c ∧
        criterionMatch pl object ⟨path, some (.regex pattern nocase), op.negated⟩ = .ok !c) ↔
        (b' = true ↔ ¬ b = true) := by
      rw [hb, hb']
      cases b <;> cases b' <;> simp
    rw [hopposite, hres, hres', Complementary]
    simp only [(regex_negated hop).2.1, ← regex_hit hop, Bool.and_eq_true, Bool.not_eq_true']
    constructor
    · intro h
      by_cases hex : ∃ x ∈ leavesOpt v, hit pl (.regex pattern nocase) op x
      · exact .inl hex
      · exact .inr fun x hx => (h.mpr hex x hx).1
    · rintro (⟨x, hx, hhit⟩ | htext)
      · refine iff_of_false (fun hall => ?_) fun hno => hno ⟨x, hx, hhit⟩
        rw [(hall x hx).2] at hhit
        cases hhit
      · constructor
        · rintro hall ⟨x, hx, hhit⟩
          rw [(hall x hx).2] at hhit
          cases hhit
        · intro hno x hx
          exact ⟨htext x hx, Bool.eq_false_iff.mpr fun hhit => hno ⟨x, hx, hhit⟩⟩
  | btime tm =>
    have htm : idmefPathGetValueType path = .time := hacc
    constructor
    · rintro ⟨b, hb, -⟩ hmem
      obtain ⟨e, he⟩ := valueMatch_error hmem (btime_absent pl tm op)
      obtain ⟨hcrit, -⟩ := positive_facts hop
      simp [criterionMatch, hcrit, hget, he] at hb
    · intro hmem
      refine complement_of_leaves hop hget hne fun x hx => ?_
      rcases x with _ | t
      · exact absurd hx hmem
      · have ht := htype t hx
        rw [htm] at ht
        cases t with
        | time t => exact btime_negated hop
        | integer t v => cases t <;> cases ht
        | _ => cases ht

def emptyAlert : Obj :=
  .struct .message 1 [.ptr (some (.prim 1 (.string preludeStringNew))),
    .union 1 (some (idmefNew ⟨0, 0, 0⟩ .alert))]

def messageidPath : IdmefPath where
  topClass := .message
  elements := [⟨indexForbidden, none, 1⟩, ⟨indexForbidden, none, 0⟩]
  valid := ⟨by decide, by decide, rfl⟩

def analyzerTimePath : IdmefPath where
  topClass := .message
  elements := [⟨indexForbidden, none, 1⟩, ⟨indexForbidden, none, 5⟩]
  valid := ⟨by decide, by decide, rfl⟩

theorem emptyAlert_hasType : HasType (.struct .message) emptyAlert := by
  refine ⟨by decide, rfl, ⟨by decide, rfl⟩, ⟨by decide, by decide, rfl, ?_⟩, trivial⟩
  repeat' constructor

theorem criterion_negation_messageid :
    (∃ b, criterionMatch plainPlatform emptyAlert
        ⟨messageidPath, some (.value (.string ⟨some (ascii "a")⟩)), criterionEqual⟩ = .ok b ∧
      criterionMatch plainPlatform emptyAlert
        ⟨messageidPath, some (.value (.string ⟨some (ascii "a")⟩)), criterionEqual.negated⟩ =
          .ok !b) ↔
    ∃ v, idmefPathGet messageidPath emptyAlert = .ok v ∧ Complementary plainPlatform
      (.value (.string ⟨some (ascii "a")⟩)) (leavesOpt v) :=
  @criterion_negation_iff plainPlatform _ criterionEqual messageidPath (ascii "a") emptyAlert
    (by decide) rfl emptyAlert_hasType

/-- A regular expression matches the missing identifier of a message neither way, and a month of
its missing time is an error both ways. -/
theorem criterion_negation_absent :
    HasType (.struct .message) emptyAlert ∧
    idmefCriterionValueNewFromString plainPlatform messageidPath (ascii "a") criterionRegex =
      .ok (.regex (ascii "a") false) ∧
    criterionMatch plainPlatform emptyAlert
      ⟨messageidPath, some (.regex (ascii "a") false), criterionRegex⟩ = .ok false ∧
    criterionMatch plainPlatform emptyAlert
      ⟨messageidPath, some (.regex (ascii "a") false), criterionRegex.negated⟩ = .ok false ∧
    idmefCriterionValueNewFromString plainPlatform analyzerTimePath (ascii "month:january")
      criterionEqual = .ok (.btime ⟨-1, -1, -1, -1, 0, -1, -1, -1⟩) ∧
    criterionMatch plainPlatform emptyAlert
      ⟨analyzerTimePath, some (.btime ⟨-1, -1, -1, -1, 0, -1, -1, -1⟩), criterionEqual⟩ =
        .error .generic :=
  ⟨emptyAlert_hasType, rfl, rfl, rfl, rfl, rfl⟩

end LibPrelude
