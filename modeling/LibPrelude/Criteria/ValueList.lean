import LibPrelude.Criteria.Reading

/-! # Lists of values

A relation may be followed by values joined by operators between parentheses. The list
should mean the criteria in which each of its values has the path and the relation to
itself. The parser reads both, but groups the operators of the list to the right.
-/

namespace LibPrelude

open Formula (Infix Op)

variable {α : Type}

def opToken : Op → Token
  | .and => .and
  | .or => .or

/-- The tokens of an expression, given those of its operands. -/
@[simp] def infixTokens (f : α → List Token) : Infix α → List Token
  | .operand a => f a
  | .paren e => .lparen :: (infixTokens f e ++ [.rparen])
  | .operandThen a op rest => f a ++ opToken op :: infixTokens f rest
  | .parenThen e op rest =>
    .lparen :: (infixTokens f e ++ .rparen :: opToken op :: infixTokens f rest)

def Token.isValue : Token → Bool
  | .rawValue _ => true
  | .value _ => true
  | _ => false

/-- The stack has room for a number of grammar symbols. -/
def Fits (n : ℕ) : Prop := n + 1 < yyMaxDepth

instance (n : ℕ) : Decidable (Fits n) := inferInstanceAs (Decidable (n + 1 < yyMaxDepth))

theorem Fits.mono {m n : ℕ} (h : Fits n) (hle : m ≤ n) : Fits m := by
  unfold Fits at h ⊢
  omega

theorem fits_max {m n : ℕ} : Fits (max m n) ↔ Fits m ∧ Fits n := by
  unfold Fits
  omega

/-- The most grammar symbols on the stack while a list of values is read on top of others. -/
@[simp] def listPeak : ℕ → Infix α → ℕ
  | h, .operand _ => h + 1
  | h, .paren e => max (h + 1) (max (listPeak (h + 1) e) (h + 3))
  | h, .operandThen _ _ rest => max (h + 1) (max (h + 2) (listPeak (h + 2) rest))
  | h, .parenThen e _ rest =>
    max (h + 1) (max (listPeak (h + 1) e) (max (h + 3) (max (h + 2) (listPeak (h + 2) rest))))

/-- The most grammar symbols on the stack while criteria are read on top of others, given whether
there are criteria before the last `||` and between it and the last `&&`. -/
@[simp] def criteriaPeak (h : ℕ) : Bool → Bool → Infix α → ℕ
  | o, a, .operand _ => h + 2 * o.toNat + 2 * a.toNat + 3
  | o, a, .paren e =>
    max (h + 2 * o.toNat + 2 * a.toNat + 3)
      (criteriaPeak (h + 2 * o.toNat + 2 * a.toNat + 1) false false e)
  | o, a, .operandThen _ .and rest =>
    max (h + 2 * o.toNat + 2 * a.toNat + 3) (criteriaPeak h o true rest)
  | o, a, .operandThen _ .or rest =>
    max (h + 2 * o.toNat + 2 * a.toNat + 3) (criteriaPeak h true false rest)
  | o, a, .parenThen e .and rest =>
    max (h + 2 * o.toNat + 2 * a.toNat + 3)
      (max (criteriaPeak (h + 2 * o.toNat + 2 * a.toNat + 1) false false e)
        (criteriaPeak h o true rest))
  | o, a, .parenThen e .or rest =>
    max (h + 2 * o.toNat + 2 * a.toNat + 3)
      (max (criteriaPeak (h + 2 * o.toNat + 2 * a.toNat + 1) false false e)
        (criteriaPeak h true false rest))

def closeList (path : IdmefPath) (op : Operator) (t : ParsedCriteria) :
    List PendingValues → Expects
  | [] => .criteriaOperator t
  | p :: outer => .operator path op p outer t

section

variable {pl : CriteriaPlatform} {p : Pending} {o : List Pending} {path : IdmefPath}
  {op : Operator} {pending : PendingValues} {outer : List PendingValues} {st : ParserState}
  {tok : Token} {toks rest : List Token} {r t : ParsedCriteria} {f : α → Token}

theorem parse_cons_ok : st.parse pl (tok :: toks) = .ok r ↔
    Fits (st.shiftHeight tok) ∧ ∃ st', st.step pl tok = .ok st' ∧ st'.parse pl toks = .ok r := by
  rw [ParserState.parse, Fits]
  split_ifs with h
  · exact iff_of_false (by rintro ⟨⟩) fun h' => absurd h'.1 (Nat.not_lt.mpr h)
  · rcases hstep : st.step pl tok with e | st'
    · simp
    · simp [Nat.lt_of_not_le h]

/-- The number of grammar symbols before the values of the innermost parenthesis. -/
def listBase (p : Pending) (o : List Pending) (outer : List PendingValues) : ℕ :=
  ParserState.below ⟨p, o, .criteriaNot⟩ + p.height + listHeight outer

theorem listBase_cons :
    listBase p o (pending :: outer) = listBase p o outer + 2 * pending.length + 1 := by
  simp only [listBase, listHeight, List.map_cons, List.sum_cons]
  omega

theorem parse_listValue (htok : tok.isValue) :
    ParserState.parse pl ⟨p, o, .multipleValue path op pending outer⟩ (tok :: toks) = .ok r ↔
    Fits (listBase p o outer + 2 * pending.length + 1) ∧ ∃ c,
      valueCriteria pl path op tok = .ok c ∧ ParserState.parse pl
        ⟨p, o, .operator path op pending outer (.atom c)⟩ toks = .ok r := by
  have hstep : ParserState.step pl ⟨p, o, .multipleValue path op pending outer⟩ tok =
      (valueCriteria pl path op tok).map fun c =>
        ⟨p, o, .operator path op pending outer (.atom c)⟩ := by
    cases tok with
    | rawValue s => rfl
    | value s => rfl
    | _ => cases htok
  rw [parse_cons_ok, hstep]
  cases valueCriteria pl path op tok with
  | error e => simp [Except.map]
  | ok c => exact and_congr .rfl (by simp [Except.map])

theorem parse_listOpen : ParserState.parse pl ⟨p, o, .multipleValue path op pending outer⟩
      (.lparen :: toks) = .ok r ↔
    Fits (listBase p o outer + 2 * pending.length + 1) ∧ ParserState.parse pl
      ⟨p, o, .multipleValue path op [] (pending :: outer)⟩ toks = .ok r := by
  rw [parse_cons_ok]
  refine and_congr .rfl ⟨?_, fun h => ⟨_, rfl, h⟩⟩
  rintro ⟨st', hstep, h⟩
  cases hstep
  exact h

theorem parse_listOperator (c : Op) : ParserState.parse pl
      ⟨p, o, .operator path op pending outer t⟩ (opToken c :: toks) = .ok r ↔
    Fits (listBase p o outer + 2 * pending.length + 2) ∧ ParserState.parse pl
      ⟨p, o, .multipleValue path op ((t, c) :: pending) outer⟩ toks = .ok r := by
  rw [parse_cons_ok]
  cases c
  all_goals
    refine and_congr .rfl ⟨?_, fun h => ⟨_, rfl, h⟩⟩
    rintro ⟨st', hstep, h⟩
    cases hstep
    exact h

theorem parse_listClose : ParserState.parse pl ⟨p, o, .operator path op pending outer t⟩
      (.rparen :: toks) = .ok r ↔
    Fits (listBase p o outer + 2) ∧ ParserState.parse pl
      ⟨p, o, closeList path op (pending.reduce t) outer⟩ toks = .ok r := by
  rw [parse_cons_ok]
  cases outer
  all_goals
    refine and_congr .rfl ⟨?_, fun h => ⟨_, rfl, h⟩⟩
    rintro ⟨st', hstep, h⟩
    cases hstep
    exact h

/-- A list of values up to the parenthesis that closes it is read as its rightward grouping when it
fits the stack and its values can be read. -/
theorem parse_list (hf : ∀ a, (f a).isValue) (v : Infix α) : ParserState.parse pl
      ⟨p, o, .multipleValue path op pending outer⟩
      (infixTokens (fun a => [f a]) v ++ .rparen :: rest) = .ok r ↔
    Fits (listPeak (listBase p o outer + 2 * pending.length) v) ∧ Fits (listBase p o outer + 2) ∧
    ∃ w, v.traverse (fun a => valueCriteria pl path op (f a)) = .ok w ∧ ParserState.parse pl
      ⟨p, o, closeList path op (pending.reduce w.rightward) outer⟩ rest = .ok r := by
  induction v generalizing pending outer rest with
  | operand a =>
    simp only [infixTokens, List.cons_append, List.nil_append, parse_listValue (hf a),
      parse_listClose, Infix.traverse_operand_ok, listPeak]
    constructor
    · rintro ⟨h₁, c, hc, h₂, h⟩
      exact ⟨h₁, h₂, _, ⟨c, hc, rfl⟩, h⟩
    · rintro ⟨h₁, h₂, _, ⟨c, hc, rfl⟩, h⟩
      exact ⟨h₁, c, hc, h₂, h⟩
  | paren e ih =>
    simp only [infixTokens, List.cons_append, List.append_assoc, List.nil_append, parse_listOpen,
      ih, closeList, parse_listClose, Infix.traverse_paren_ok, listPeak, fits_max, listBase_cons,
      List.length_nil]
    constructor
    · rintro ⟨h₁, h₂, h₃, e', he, h₄, h⟩
      exact ⟨⟨h₁, h₂, h₃⟩, h₄, _, ⟨e', he, rfl⟩, h⟩
    · rintro ⟨⟨h₁, h₂, h₃⟩, h₄, _, ⟨e', he, rfl⟩, h⟩
      exact ⟨h₁, h₂, h₃, e', he, h₄, h⟩
  | operandThen a c v ih =>
    simp only [infixTokens, List.cons_append, List.nil_append, parse_listValue (hf a),
      parse_listOperator, ih, Infix.traverse_operandThen_ok, listPeak, fits_max,
      List.length_cons, Nat.mul_add]
    constructor
    · rintro ⟨h₁, b, hb, h₂, h₃, h₄, w, hw, h⟩
      exact ⟨⟨h₁, h₂, h₃⟩, h₄, _, ⟨b, w, hb, hw, rfl⟩, h⟩
    · rintro ⟨⟨h₁, h₂, h₃⟩, h₄, _, ⟨b, w, hb, hw, rfl⟩, h⟩
      exact ⟨h₁, b, hb, h₂, h₃, h₄, w, hw, h⟩
  | parenThen e c v ihe ih =>
    simp only [infixTokens, List.cons_append, List.append_assoc, parse_listOpen, ihe, closeList,
      parse_listOperator, ih, Infix.traverse_parenThen_ok, listPeak, fits_max, listBase_cons,
      List.length_nil, List.length_cons, Nat.mul_add]
    constructor
    · rintro ⟨h₁, h₂, h₃, e', he, h₄, h₅, h₆, w, hw, h⟩
      exact ⟨⟨h₁, h₂, h₃, h₄, h₅⟩, h₆, _, ⟨e', w, he, hw, rfl⟩, h⟩
    · rintro ⟨⟨h₁, h₂, h₃, h₄, h₅⟩, h₆, _, ⟨e', w, he, hw, rfl⟩, h⟩
      exact ⟨h₁, h₂, h₃, e', he, h₄, h₅, h₆, w, hw, h⟩

def Closes (rest : List Token) : Prop := rest = [] ∨ ∃ toks, rest = .rparen :: toks

theorem parse_closes (hrest : Closes rest) :
    ParserState.parse pl ⟨p, o, .criteriaOperator t⟩ rest =
      ParserState.parse pl ⟨.new, o, .criteriaOperator (p.reduce t)⟩ rest := by
  rcases hrest with rfl | ⟨toks, rfl⟩
  · cases o <;> rfl
  · cases o <;> rfl

theorem parse_value {path : IdmefPath} {str : List UInt8} {rel : TokRelation}
    (hpath : idmefPathNewFast str = .ok path) (htok : tok.isValue) :
    ParserState.parse pl ⟨p, o, .criteriaNot⟩ (.path str :: .relation rel :: tok :: toks) = .ok r ↔
    Fits (ParserState.below ⟨p, o, .criteriaNot⟩ + p.height + 3) ∧ ∃ c,
      valueCriteria pl path rel.operator tok = .ok c ∧
        ParserState.parse pl ⟨p, o, .criteriaOperator (.atom c)⟩ toks = .ok r := by
  have hpathStep : ParserState.step pl ⟨p, o, .criteriaNot⟩ (.path str) =
      .ok ⟨p, o, .relation path⟩ := by
    simp only [ParserState.step, hpath]
    rfl
  have hstep : ParserState.step pl ⟨p, o, .value path rel.operator⟩ tok =
      (valueCriteria pl path rel.operator tok).map fun c =>
        ⟨p, o, .criteriaOperator (.atom c)⟩ := by
    cases tok with
    | rawValue s => rfl
    | value s => rfl
    | _ => cases htok
  rw [parse_cons_ok, hpathStep]
  simp only [Except.ok.injEq, exists_eq_left']
  rw [parse_cons_ok]
  simp only [ParserState.step, Except.ok.injEq, exists_eq_left']
  rw [parse_cons_ok, hstep]
  have hheight : Fits (ParserState.shiftHeight ⟨p, o, .criteriaNot⟩ (.path str)) ∧
      Fits (ParserState.shiftHeight ⟨p, o, .relation path⟩ (.relation rel)) ∧
      Fits (ParserState.shiftHeight ⟨p, o, .value path rel.operator⟩ tok) ↔
        Fits (ParserState.below ⟨p, o, .criteriaNot⟩ + p.height + 3) := by
    simp only [ParserState.shiftHeight, ParserState.below, Fits]
    omega
  rw [← hheight]
  cases valueCriteria pl path rel.operator tok with
  | error e => simp [Except.map]
  | ok c => simp [Except.map, and_assoc]

theorem parse_open : ParserState.parse pl ⟨p, o, .criteriaNot⟩ (.lparen :: toks) = .ok r ↔
    Fits (ParserState.below ⟨p, o, .criteriaNot⟩ + p.height + 1) ∧
      ParserState.parse pl ⟨.new, p :: o, .criteriaNot⟩ toks = .ok r := by
  rw [parse_cons_ok]
  simp only [ParserState.step, Except.ok.injEq, exists_eq_left']
  rfl

theorem parse_close {q : Pending} : ParserState.parse pl ⟨p, q :: o, .criteriaOperator t⟩
      (.rparen :: toks) = .ok r ↔
    Fits (ParserState.below ⟨q, o, .criteriaNot⟩ + q.height + 3) ∧
      ParserState.parse pl ⟨q, o, .criteriaOperator (p.reduce t)⟩ toks = .ok r := by
  rw [parse_cons_ok]
  simp only [ParserState.step, ParserState.stepOperator, Except.ok.injEq, exists_eq_left']
  refine and_congr ?_ .rfl
  simp only [ParserState.shiftHeight, ParserState.below, List.map_cons, List.sum_cons, Fits]
  omega

theorem parse_and {c a : Option ParsedCriteria} : ParserState.parse pl
      ⟨⟨c, a, 0⟩, o, .criteriaOperator t⟩ (.and :: toks) = .ok r ↔
    Fits (ParserState.below ⟨.new, o, .criteriaNot⟩ + 2 * c.isSome.toNat + 2) ∧ ParserState.parse pl
      ⟨⟨c, some (Op.and.joinLeft a t), 0⟩, o, .criteriaNot⟩ toks = .ok r := by
  rw [parse_cons_ok]
  simp only [ParserState.step, ParserState.stepOperator, Except.ok.injEq, exists_eq_left']
  refine and_congr ?_ .rfl
  cases c <;> rfl

theorem parse_or {c a : Option ParsedCriteria} : ParserState.parse pl
      ⟨⟨c, a, 0⟩, o, .criteriaOperator t⟩ (.or :: toks) = .ok r ↔
    Fits (ParserState.below ⟨.new, o, .criteriaNot⟩ + 2) ∧ ParserState.parse pl
      ⟨⟨some (Op.or.joinLeft c (Op.and.joinLeft a t)), none, 0⟩, o, .criteriaNot⟩ toks = .ok r := by
  rw [parse_cons_ok]
  simp only [ParserState.step, ParserState.stepOperator, Except.ok.injEq, exists_eq_left']
  rfl

theorem height_noNots (c a : Option ParsedCriteria) :
    Pending.height ⟨c, a, 0⟩ = 2 * c.isSome.toNat + 2 * a.isSome.toNat := by
  cases c <;> cases a <;> rfl

theorem parse_paren {body : List Token} {n : ℕ} {read : ParsedCriteria → Prop}
    (hbody : ∀ rest, Closes rest →
      (ParserState.parse pl ⟨.new, p :: o, .criteriaNot⟩ (body ++ rest) = .ok r ↔
        Fits n ∧ ∃ t, read t ∧
          ParserState.parse pl ⟨.new, p :: o, .criteriaOperator t⟩ rest = .ok r)) :
    ParserState.parse pl ⟨p, o, .criteriaNot⟩ (.lparen :: (body ++ .rparen :: rest)) = .ok r ↔
      Fits (max (ParserState.below ⟨p, o, .criteriaNot⟩ + p.height + 3) n) ∧ ∃ t, read t ∧
        ParserState.parse pl ⟨p, o, .criteriaOperator t⟩ rest = .ok r := by
  rw [parse_open, hbody _ (.inr ⟨rest, rfl⟩), fits_max]
  constructor
  · rintro ⟨-, h₂, t, ht, h⟩
    obtain ⟨h₃, h⟩ := parse_close.mp h
    exact ⟨⟨h₃, h₂⟩, t, ht, h⟩
  · rintro ⟨⟨h₃, h₂⟩, t, ht, h⟩
    exact ⟨h₃.mono (by omega), h₂, t, ht, parse_close.mpr ⟨h₃, h⟩⟩

/-- Criteria in which every value has the path and the relation to itself are read as their grouping
by precedence when they fit the stack and the values can be read. -/
theorem parse_criteria {path : IdmefPath} {str : List UInt8} {rel : TokRelation}
    (hpath : idmefPathNewFast str = .ok path) (hf : ∀ a, (f a).isValue) (v : Infix α)
    {c a : Option ParsedCriteria} (hrest : Closes rest) : ParserState.parse pl
      ⟨⟨c, a, 0⟩, o, .criteriaNot⟩
      (infixTokens (fun x => [.path str, .relation rel, f x]) v ++ rest) = .ok r ↔
    Fits (criteriaPeak (ParserState.below ⟨.new, o, .criteriaNot⟩) c.isSome a.isSome v) ∧
    ∃ t, (∃ w, v.traverse (fun x => valueCriteria pl path rel.operator (f x)) = .ok w ∧
        t = Infix.climb c a w) ∧
      ParserState.parse pl ⟨.new, o, .criteriaOperator t⟩ rest = .ok r := by
  have hbelow (p : Pending) (o : List Pending) (e : Expects) :
      ParserState.below ⟨p, o, e⟩ = ParserState.below ⟨.new, o, .criteriaNot⟩ := rfl
  have hcons (p : Pending) (o : List Pending) : ParserState.below ⟨.new, p :: o, .criteriaNot⟩ =
      ParserState.below ⟨.new, o, .criteriaNot⟩ + p.height + 1 := by
    simp only [ParserState.below, List.map_cons, List.sum_cons]
    omega
  induction v generalizing c a o rest with
  | operand x =>
    simp only [infixTokens, List.cons_append, List.nil_append, parse_value hpath (hf x),
      height_noNots, Infix.traverse_operand_ok, criteriaPeak, hbelow ⟨c, a, 0⟩, ← Nat.add_assoc]
    refine and_congr .rfl ?_
    constructor
    · rintro ⟨b, hb, h⟩
      exact ⟨_, ⟨_, ⟨b, hb, rfl⟩, rfl⟩, (parse_closes hrest).symm.trans h⟩
    · rintro ⟨_, ⟨_, ⟨b, hb, rfl⟩, rfl⟩, h⟩
      exact ⟨b, hb, (parse_closes hrest).trans h⟩
  | paren e ih =>
    have hparen := fun rest => @parse_paren pl ⟨c, a, 0⟩ o rest r _ _ _
      fun rest hrest => @ih (⟨c, a, 0⟩ :: o) rest none none hrest
    simp only [infixTokens, List.cons_append, List.append_assoc, List.nil_append, hparen,
      Infix.traverse_paren_ok, criteriaPeak, hcons, hbelow ⟨c, a, 0⟩, height_noNots,
      ← Nat.add_assoc, Option.isSome_none]
    refine and_congr .rfl ?_
    constructor
    · rintro ⟨_, ⟨w, hw, rfl⟩, h⟩
      exact ⟨_, ⟨_, ⟨w, hw, rfl⟩, rfl⟩, (parse_closes hrest).symm.trans h⟩
    · rintro ⟨_, ⟨_, ⟨w, hw, rfl⟩, rfl⟩, h⟩
      exact ⟨_, ⟨w, hw, rfl⟩, (parse_closes hrest).trans h⟩
  | operandThen x op v ih =>
    cases op
    all_goals
      simp only [infixTokens, opToken, List.cons_append, List.nil_append,
        parse_value hpath (hf x), parse_and, parse_or, ih hrest, height_noNots,
        Infix.traverse_operandThen_ok, criteriaPeak, hbelow ⟨c, a, 0⟩, ← Nat.add_assoc, fits_max,
        Option.isSome_some, Option.isSome_none]
      constructor
      · rintro ⟨h₁, b, hb, -, h₂, _, ⟨w, hw, rfl⟩, h⟩
        exact ⟨⟨h₁, h₂⟩, _, ⟨_, ⟨b, w, hb, hw, rfl⟩, rfl⟩, h⟩
      · rintro ⟨⟨h₁, h₂⟩, _, ⟨_, ⟨b, w, hb, hw, rfl⟩, rfl⟩, h⟩
        exact ⟨h₁, b, hb, h₁.mono (by omega), h₂, _, ⟨w, hw, rfl⟩, h⟩
  | parenThen e op v ihe ih =>
    have hparen := fun rest => @parse_paren pl ⟨c, a, 0⟩ o rest r _ _ _
      fun rest hrest => @ihe (⟨c, a, 0⟩ :: o) rest none none hrest
    cases op
    all_goals
      simp only [infixTokens, opToken, List.cons_append, List.append_assoc, hparen, parse_and,
        parse_or, ih hrest, height_noNots, Infix.traverse_parenThen_ok, criteriaPeak, hcons,
        hbelow ⟨c, a, 0⟩, ← Nat.add_assoc, fits_max, Option.isSome_some, Option.isSome_none]
      constructor
      · rintro ⟨⟨h₁, h₂⟩, _, ⟨w, hw, rfl⟩, -, h₃, _, ⟨w', hw', rfl⟩, h⟩
        exact ⟨⟨h₁, h₂, h₃⟩, _, ⟨_, ⟨w, w', hw, hw', rfl⟩, rfl⟩, h⟩
      · rintro ⟨⟨h₁, h₂, h₃⟩, _, ⟨_, ⟨w, w', hw, hw', rfl⟩, rfl⟩, h⟩
        exact ⟨⟨h₁, h₂⟩, _, ⟨w, hw, rfl⟩, h₁.mono (by omega), h₃, _, ⟨w', hw', rfl⟩, h⟩

theorem parse_listTokens {str : List UInt8} {rel : TokRelation} (hf : ∀ a, (f a).isValue)
    (v : Infix α) : ParserState.initial.parse pl (.path str :: .relation rel :: .lparen ::
      (infixTokens (fun a => [f a]) v ++ [.rparen])) = .ok r ↔
    ∃ path, idmefPathNewFast str = .ok path ∧ Fits (listPeak 3 v) ∧
      ∃ w, v.traverse (fun a => valueCriteria pl path rel.operator (f a)) = .ok w ∧
        r = w.rightward := by
  have hpath : ParserState.initial.step pl (.path str) =
      (idmefPathNewFast str).map fun path => ⟨.new, [], .relation path⟩ := rfl
  rw [parse_cons_ok, hpath]
  rcases idmefPathNewFast str with e | path
  · simp [Except.map]
  · simp only [Except.map, Except.ok.injEq, exists_eq_left']
    rw [parse_cons_ok]
    simp only [ParserState.step, Except.ok.injEq, exists_eq_left']
    rw [parse_cons_ok]
    simp only [ParserState.step, Except.ok.injEq, exists_eq_left']
    rw [parse_list hf]
    simp only [listBase, listHeight, ParserState.below, List.map_nil, List.sum_nil]
    constructor
    · rintro ⟨-, -, -, h₁, -, w, hw, h⟩
      exact ⟨h₁, w, hw, (Except.ok.inj h).symm⟩
    · rintro ⟨h₁, w, hw, rfl⟩
      exact ⟨(by decide : Fits 1), (by decide : Fits 2), (by decide : Fits 3), h₁, by decide, w, hw,
        rfl⟩

theorem parse_path_error {str : List UInt8} {rel : TokRelation} {e : ErrorCode}
    (hpath : idmefPathNewFast str = .error e) (v : Infix α) : ParserState.parse pl
      ⟨p, o, .criteriaNot⟩ (infixTokens (fun x => [.path str, .relation rel, f x]) v ++ rest) ≠
        .ok r := by
  have hfail (toks : List Token) (p : Pending) (o : List Pending) :
      ParserState.parse pl ⟨p, o, .criteriaNot⟩ (.path str :: toks) ≠ .ok r := by
    intro h
    obtain ⟨-, st', hstep, -⟩ := parse_cons_ok.mp h
    simp only [ParserState.step, hpath] at hstep
    cases hstep
  induction v generalizing p o rest with
  | operand a => exact hfail _ p o
  | paren v ih | parenThen v op rest ih =>
    intro h
    rw [infixTokens, List.cons_append, List.append_assoc] at h
    exact ih (parse_open.mp h).2
  | operandThen a op rest ih => exact hfail _ p o

theorem parse_criteriaTokens {str : List UInt8} {rel : TokRelation} (hf : ∀ a, (f a).isValue)
    (v : Infix α) : ParserState.initial.parse pl
      (infixTokens (fun x => [.path str, .relation rel, f x]) v) = .ok r ↔
    ∃ path, idmefPathNewFast str = .ok path ∧ Fits (criteriaPeak 0 false false v) ∧
      ∃ w, v.traverse (fun a => valueCriteria pl path rel.operator (f a)) = .ok w ∧
        r = w.byPrecedence := by
  rcases hpath : idmefPathNewFast str with e | path
  · constructor
    · intro h
      have hne := @parse_path_error α pl .new [] [] r f str rel e hpath v
      rw [List.append_nil] at hne
      exact absurd h hne
    · rintro ⟨path, hok, -⟩
      cases hok
  · have hparse := @parse_criteria _ pl [] [] r f path str rel hpath hf v none none (.inl rfl)
    rw [List.append_nil] at hparse
    simp only [Except.ok.injEq, exists_eq_left']
    refine hparse.trans (and_congr .rfl ?_)
    constructor
    · rintro ⟨t, ⟨w, hw, rfl⟩, h⟩
      exact ⟨w, hw, (Except.ok.inj h).symm⟩
    · rintro ⟨w, hw, rfl⟩
      exact ⟨_, ⟨w, hw, rfl⟩, rfl⟩

theorem listPeak_map {β : Type} (g : α → β) (h : ℕ) (v : Infix α) :
    listPeak h (v.map g) = listPeak h v := by
  induction v generalizing h with
  | operand a => rfl
  | paren e ih => simp only [Infix.map, listPeak, ih]
  | operandThen a op rest ih => simp only [Infix.map, listPeak, ih]
  | parenThen e op rest ihe ih => simp only [Infix.map, listPeak, ihe, ih]

theorem criteriaPeak_map {β : Type} (g : α → β) (h : ℕ) (o a : Bool) (v : Infix α) :
    criteriaPeak h o a (v.map g) = criteriaPeak h o a v := by
  induction v generalizing h o a with
  | operand x => rfl
  | paren e ih => simp only [Infix.map, criteriaPeak, ih]
  | operandThen x op rest ih => cases op <;> simp only [Infix.map, criteriaPeak, ih]
  | parenThen e op rest ihe ih => cases op <;> simp only [Infix.map, criteriaPeak, ihe, ih]

end

end LibPrelude
