import LibPrelude.Criteria.Parser

/-! # Parsing one text after another

The lexer keeps its start condition and the depth of parentheses between two calls, the
parser the path and the operator that it read last and how many criteria were made for
that path. The parser asks for one token after the other and stops at the first one
that it does not accept; the lexer is reset then.
-/

namespace LibPrelude

structure CriteriaGlobals where
  lexer : LexState
  pathCount : ℕ
  curPath : Option IdmefPath
  curOperator : Operator

/-- `BEGIN INITIAL` does not empty the stack of start conditions. -/
def LexState.reset (st : LexState) : LexState := { st with start := .initial, inp := 0 }

namespace Expects

/-- A criterion has been made on the way from what was expected to what is. -/
def creates : Expects → Expects → Bool
  | .relation _, .value _ _ => false
  | .relation _, _ => true
  | .value _ _, .criteriaOperator _ => true
  | .multipleValue _ _ _ _, .operator _ _ _ _ _ => true
  | _, _ => false

end Expects

namespace CriteriaGlobals

def start : CriteriaGlobals := ⟨initLexer, 0, none, {}⟩

/-- A value is compared with what the path in memory designates, by the operator in memory. -/
def load (g : CriteriaGlobals) : Expects → Option Expects
  | .value _ _ => g.curPath.map fun path => .value path g.curOperator
  | .multipleValue _ _ pending outer =>
    g.curPath.map fun path => .multipleValue path g.curOperator pending outer
  | e => some e

/-- What the actions of the grammar store on the way from what was expected to what is. -/
def store (g : CriteriaGlobals) : Expects → Expects → CriteriaGlobals
  | .criteriaNot, .relation path => { g with pathCount := 0, curPath := some path }
  | .relation _, .value _ op => { g with curOperator := op }
  | e, e' => if e.creates e' then { g with pathCount := g.pathCount + 1 } else g

end CriteriaGlobals

/-- The parser, and for each criterion made whether a reference to its path was taken. -/
structure YyState where
  parser : ParserState
  taken : List Bool

namespace YyState

def initial : YyState := ⟨.initial, []⟩

/-- The first criterion made for a path keeps the reference that the parser holds. -/
def take (g : CriteriaGlobals) (st : YyState) : List Bool := st.taken ++ [decide (0 < g.pathCount)]

def step (pl : CriteriaPlatform) (g : CriteriaGlobals) (st : YyState) (tok : Token) :
    Except ErrorCode (CriteriaGlobals × YyState) :=
  match g.load st.parser.expects with
  | none => .error .assertion
  | some e =>
    (ParserState.step pl { st.parser with expects := e } tok).map fun parser =>
      (g.store e parser.expects,
        ⟨parser, if e.creates parser.expects then st.take g else st.taken⟩)

def finish (g : CriteriaGlobals) (st : YyState) :
    Except ErrorCode (ParsedCriteria × List Bool) × CriteriaGlobals :=
  match st.parser.finish, st.parser.expects with
  | .error e, _ => (.error e, g)
  | .ok t, .relation _ => (.ok (t, st.take g), { g with pathCount := g.pathCount + 1 })
  | .ok t, _ => (.ok (t, st.taken), g)

end YyState

def yyparse (pl : CriteriaPlatform) : ℕ → CriteriaGlobals → YyState → List UInt8 →
    Except ErrorCode (ParsedCriteria × List Bool) × CriteriaGlobals
  | 0, g, _, _ => (ParserState.syntaxError, g)
  | fuel + 1, g, st, str =>
    match criteriaScanner.next str.length g.lexer str with
    | (none, lexer) => st.finish { g with lexer := lexer }
    | (some (tok, rest), lexer) =>
      let g := { g with lexer := lexer }
      if yyMaxDepth ≤ st.parser.shiftHeight tok + 1 then (ParserState.memoryExhausted, g)
      else
        match st.step pl g tok with
        | .error e => (.error e, g)
        | .ok (g, st) => yyparse pl fuel g st rest

/-- One call: the criteria with the references taken, and what is left in memory. -/
def parseCriteria (pl : CriteriaPlatform) (g : CriteriaGlobals) (str : List UInt8) :
    Except ErrorCode (ParsedCriteria × List Bool) × CriteriaGlobals :=
  match yyparse pl (str.length + 1) g YyState.initial str with
  | (.ok r, g) => (.ok r, g)
  | (.error e, g) => (.error e, { g with lexer := g.lexer.reset })

/-- What is left in memory after a sequence of calls. -/
def afterCalls (pl : CriteriaPlatform) (texts : List (List UInt8)) : CriteriaGlobals :=
  texts.foldl (fun g str => (parseCriteria pl g str).2) .start

def LexState.after (st : LexState) (tok : Token) : LexState :=
  match st.start, tok with
  | .initial, .relation _ => st.push
  | .idmefValue, .rawValue _ => st.popAfterValue
  | .idmefValue, .value _ => st.popAfterValue
  | .idmefValue, .lparen => { st with inp := st.inp + 1 }
  | .idmefValue, .rparen => st.doPop
  | _, _ => st

section

variable {st st' : LexState} {str : List UInt8} {fuel : ℕ}

/-- An action without a token leaves the state as it is, and its token does not depend on it. -/
def Plain (start : StartCondition) (act : LexAction) : Prop :=
  ∀ st st' : LexState, ∀ w, st.start = start → (act st w).2 = (act st' w).2 ∧
    match (act st w).2 with
    | none => (act st w).1 = st
    | some t => (act st w).1 = st.after t

theorem plain_token {start : StartCondition} {t : Token}
    (h : ∀ st : LexState, st.start = start → st.after t = st) : Plain start (.token t) :=
  fun st _ _ hst => ⟨rfl, (h st hst).symm⟩

theorem plain_relation (r : TokRelation) : Plain .initial (.relation r) := by
  intro st _ w hst
  refine ⟨rfl, ?_⟩
  change st.push = st.after (.relation r)
  simp only [LexState.after, hst]

theorem plain_skip {start : StartCondition} : Plain start .skip := fun _ _ _ _ => ⟨rfl, rfl⟩

theorem plain_operatorRules {start : StartCondition} :
    ∀ rule ∈ operatorRules, Plain start rule.2 := by
  have hand : ∀ st : LexState, st.start = start → st.after .and = st := by
    intro st _
    unfold LexState.after
    split <;> simp_all
  have hor : ∀ st : LexState, st.start = start → st.after .or = st := by
    intro st _
    unfold LexState.after
    split <;> simp_all
  intro rule hmem
  simp only [operatorRules, List.mem_cons, List.not_mem_nil, or_false] at hmem
  rcases hmem with rfl | rfl | rfl | rfl
  · exact plain_token hand
  · exact plain_token hand
  · exact plain_token hor
  · exact plain_token hor

theorem plain_initialRules : ∀ rule ∈ initialRules, Plain .initial rule.2 := by
  have hsame {t : Token} (ht : ∀ r, t ≠ .relation r) (st : LexState) (hst : st.start = .initial) :
      st.after t = st := by
    unfold LexState.after
    rw [hst]
    split <;> simp_all
  intro rule hmem
  rw [initialRules, List.mem_append, List.mem_append] at hmem
  rcases hmem with (hmem | hmem) | hmem
  · simp only [List.mem_cons, List.not_mem_nil, or_false] at hmem
    rcases hmem with rfl | rfl | rfl | rfl | rfl | rfl | rfl | rfl | rfl | rfl | rfl | rfl | rfl |
      rfl | rfl | rfl | rfl | rfl | rfl | rfl | rfl | rfl | rfl
    case inr.inr.inr.inr.inl =>
      exact fun st _ w hst => ⟨rfl, (hsame (by simp) st hst).symm⟩
    case inr.inr.inr.inr.inr.inr.inr.inr.inr.inr.inr.inr.inr.inr.inr.inr.inr.inr.inr.inr.inr.inr =>
      exact plain_token (hsame (by simp))
    all_goals exact plain_relation _
  · exact plain_operatorRules rule hmem
  · simp only [List.mem_cons, List.not_mem_nil, or_false] at hmem
    rcases hmem with rfl | rfl | rfl | rfl
    · exact plain_token (hsame (by simp))
    · exact plain_token (hsame (by simp))
    · exact plain_skip
    · exact plain_token (hsame (by simp))

theorem plain_valueRules : ∀ rule ∈ valueRules, Plain .idmefValue rule.2 := by
  intro rule hmem
  rw [valueRules, List.mem_append, List.mem_append] at hmem
  rcases hmem with (hmem | hmem) | hmem
  · simp only [List.mem_cons, List.not_mem_nil, or_false] at hmem
    rcases hmem with rfl | rfl | rfl | rfl | rfl | rfl | rfl | rfl
    case inr.inr.inr.inr.inr.inl => exact plain_skip
    all_goals
      intro st _ w hst
      refine ⟨rfl, ?_⟩
      simp only [LexState.after, hst, LexAction.raw, LexAction.string, LexAction.bare]
  · exact plain_operatorRules rule hmem
  · rw [List.mem_singleton.mp hmem]
    refine plain_token fun st hst => ?_
    simp only [LexState.after, hst]

theorem plain_rules : ∀ rule ∈ criteriaScanner.rules st, Plain st.start rule.2 := by
  intro rule hmem
  simp only [criteriaScanner] at hmem
  split at hmem
  · next hst =>
    rw [hst]
    exact plain_initialRules rule hmem
  · next hst =>
    rw [hst]
    exact plain_valueRules rule hmem

theorem lex_next : (criteriaScanner.next fuel st str = (none, st)) ∨
    ∃ tok rest, criteriaScanner.next fuel st str = (some (tok, rest), st.after tok) := by
  have hskip : ∀ rule ∈ criteriaScanner.rules st, ∀ w,
      (rule.2 st w).2 = none → (rule.2 st w).1 = st := by
    intro rule hmem w hnone
    have h := (plain_rules rule hmem st st w rfl).2
    rw [hnone] at h
    exact h
  rcases Scanner.next_cases hskip with h | ⟨rule, hmem, w, t, rest, htok, hnext⟩
  · exact .inl h
  · refine .inr ⟨t, rest, ?_⟩
    have h := (plain_rules rule hmem st st w rfl).2
    rw [htok] at h
    rw [hnext, h]

theorem next_lexer (h : st.start = st'.start) :
    (criteriaScanner.next fuel st str).1 = (criteriaScanner.next fuel st' str).1 := by
  have hrules : criteriaScanner.rules st = criteriaScanner.rules st' := by
    simp only [criteriaScanner, h]
  refine Scanner.next_congr hrules (fun rule hmem w => (plain_rules rule hmem st st' w rfl).1) ?_
  intro rule hmem w hnone
  obtain ⟨htok, hst⟩ := plain_rules rule hmem st st' w rfl
  obtain ⟨-, hst'⟩ := plain_rules rule hmem st' st' w h.symm
  rw [hnone] at htok hst
  rw [← htok] at hst'
  exact ⟨hst, hst'⟩

end

def Token.IsValue (tok : Token) : Prop :=
  (∃ str, tok = .rawValue str) ∨ ∃ str, tok = .value str

theorem isValue_of_valueCriteria {pl : CriteriaPlatform} {path : IdmefPath} {op : Operator}
    {tok : Token}
    {t : ParsedCriterion} (h : valueCriteria pl path op tok = .ok t) : tok.IsValue := by
  unfold valueCriteria valueText at h
  cases tok with
  | rawValue str => exact .inl ⟨str, rfl⟩
  | value str => exact .inr ⟨str, rfl⟩
  | _ => cases h

namespace Expects

def IsOperand : Expects → Prop
  | .relation _ | .criteriaOperator _ => True
  | _ => False

/-- What the parser expects before and after a token. -/
inductive Moves : Expects → Token → Expects → Prop
  | opens {tok : Token} : tok = .not ∨ tok = .lparen → Moves .criteriaNot tok .criteriaNot
  | path {str : List UInt8} {path : IdmefPath} : Moves .criteriaNot (.path str) (.relation path)
  | relation {path : IdmefPath} {r : TokRelation} :
      Moves (.relation path) (.relation r) (.value path r.operator)
  | value {path : IdmefPath} {op : Operator} {tok : Token} {t : ParsedCriteria} :
      tok.IsValue → Moves (.value path op) tok (.criteriaOperator t)
  | list {path : IdmefPath} {op : Operator} :
      Moves (.value path op) .lparen (.multipleValue path op [] [])
  | nested {path : IdmefPath} {op : Operator} {pending : PendingValues}
      {outer : List PendingValues} : Moves (.multipleValue path op pending outer) .lparen
        (.multipleValue path op [] (pending :: outer))
  | element {path : IdmefPath} {op : Operator} {pending : PendingValues}
      {outer : List PendingValues} {tok : Token} {t : ParsedCriteria} : tok.IsValue →
      Moves (.multipleValue path op pending outer) tok (.operator path op pending outer t)
  | join {path : IdmefPath} {op : Operator} {pending pending' : PendingValues}
      {outer : List PendingValues} {tok : Token} {t : ParsedCriteria} : tok = .and ∨ tok = .or →
      Moves (.operator path op pending outer t) tok (.multipleValue path op pending' outer)
  | closeList {path : IdmefPath} {op : Operator} {pending : PendingValues}
      {t t' : ParsedCriteria} :
      Moves (.operator path op pending [] t) .rparen (.criteriaOperator t')
  | closeNested {path : IdmefPath} {op : Operator} {pending p : PendingValues}
      {outer : List PendingValues} {t t' : ParsedCriteria} :
      Moves (.operator path op pending (p :: outer) t) .rparen (.operator path op p outer t')
  | operand {e : Expects} {tok : Token} :
      e.IsOperand → tok = .or ∨ tok = .and → Moves e tok .criteriaNot
  | closes {e : Expects} {t : ParsedCriteria} :
      e.IsOperand → Moves e .rparen (.criteriaOperator t)

end Expects

namespace ParserState

variable {pl : CriteriaPlatform} {st st' : ParserState} {tok : Token}

theorem stepOperator_moves {e : Expects} {t : ParsedCriteria} (he : e.IsOperand)
    (h : st.stepOperator t tok = .ok st') : e.Moves tok st'.expects := by
  unfold stepOperator at h
  split at h
  · obtain rfl := Except.ok.inj h
    exact .operand he (.inl rfl)
  · obtain rfl := Except.ok.inj h
    exact .operand he (.inr rfl)
  · split at h
    · cases h
    · obtain rfl := Except.ok.inj h
      exact .closes he
  · cases h

theorem step_moves (h : st.step pl tok = .ok st') : st.expects.Moves tok st'.expects := by
  unfold step at h
  cases hexpects : st.expects with
  | criteriaNot =>
    simp only [hexpects] at h
    cases tok with
    | not => exact Except.ok.inj h ▸ .opens (.inl rfl)
    | lparen => exact Except.ok.inj h ▸ .opens (.inr rfl)
    | path str =>
      obtain ⟨path, -, rfl⟩ := map_ok h
      exact .path
    | _ => cases h
  | relation path =>
    simp only [hexpects] at h
    cases tok with
    | relation r => exact Except.ok.inj h ▸ .relation
    | error => cases h
    | _ => exact stepOperator_moves trivial h
  | value path op =>
    simp only [hexpects] at h
    cases tok with
    | lparen => exact Except.ok.inj h ▸ .list
    | _ =>
      obtain ⟨t, ht, rfl⟩ := map_ok h
      exact .value (isValue_of_valueCriteria ht)
  | multipleValue path op pending outer =>
    simp only [hexpects] at h
    cases tok with
    | lparen => exact Except.ok.inj h ▸ .nested
    | _ =>
      obtain ⟨t, ht, rfl⟩ := map_ok h
      exact .element (isValue_of_valueCriteria ht)
  | operator path op pending outer t =>
    simp only [hexpects] at h
    cases tok with
    | and => exact Except.ok.inj h ▸ .join (.inl rfl)
    | or => exact Except.ok.inj h ▸ .join (.inr rfl)
    | rparen =>
      cases outer with
      | nil => exact Except.ok.inj h ▸ .closeList
      | cons p outer => exact Except.ok.inj h ▸ .closeNested
    | _ => cases h
  | criteriaOperator t =>
    simp only [hexpects] at h
    exact stepOperator_moves trivial h

theorem finish_operand {t : ParsedCriteria} (h : st.finish = .ok t) : st.expects.IsOperand := by
  unfold finish at h
  split at h
  · next hexpects => exact hexpects ▸ trivial
  · next hexpects => exact hexpects ▸ trivial
  · cases h

end ParserState

namespace Expects

variable {e e' : Expects} {g g' : CriteriaGlobals} {lexer lexer' : LexState} {tok : Token}

/-- The state of the lexer is the one that the parser's stack calls for. -/
def Lexes (e : Expects) (lexer : LexState) : Prop :=
  match e with
  | .criteriaNot | .relation _ | .criteriaOperator _ => lexer.start = .initial ∧ lexer.inp = 0
  | .value _ _ => lexer.start = .idmefValue ∧ lexer.inp = 0 ∧ lexer.stack.head? = some .initial
  | .multipleValue _ _ _ outer | .operator _ _ _ outer _ =>
    lexer.start = .idmefValue ∧ lexer.inp = outer.length + 1 ∧ lexer.stack.head? = some .initial

/-- The path and the operator read last are those in memory, where they are used. -/
def Reads (e : Expects) (g : CriteriaGlobals) : Prop :=
  match e with
  | .criteriaNot | .criteriaOperator _ => True
  | .relation path => g.curPath = some path
  | .value path op | .multipleValue path op _ _ | .operator path op _ _ _ =>
    g.curPath = some path ∧ g.curOperator = op

/-- Two calls have made as many criteria for a path, where there may be more of them. -/
def Agree (e : Expects) (g g' : CriteriaGlobals) : Prop :=
  match e with
  | .criteriaNot | .criteriaOperator _ => True
  | _ => g.pathCount = g'.pathCount

theorem IsOperand.lexes (h : e.IsOperand) (hlex : e.Lexes lexer) :
    lexer.start = .initial ∧ lexer.inp = 0 := by
  cases e with
  | relation path => exact hlex
  | criteriaOperator t => exact hlex
  | _ => exact h.elim

theorem Moves.lexes (h : e.Moves tok e') (hlex : e.Lexes lexer) :
    e'.Lexes (lexer.after tok) := by
  cases h with
  | opens htok => rcases htok with rfl | rfl <;> simpa [Lexes, LexState.after, hlex.1] using hlex.2
  | path => simpa [Lexes, LexState.after, hlex.1] using hlex.2
  | relation => simp [Lexes, LexState.after, LexState.push, hlex.1, hlex.2]
  | value htok =>
    obtain ⟨stack, hstack⟩ := List.head?_eq_some_iff.mp hlex.2.2
    rcases htok with ⟨str, rfl⟩ | ⟨str, rfl⟩ <;>
      simp [Lexes, LexState.after, LexState.popAfterValue, LexState.pop, hlex.1, hlex.2.1, hstack]
  | list => simp [Lexes, LexState.after, hlex.1, hlex.2.1, hlex.2.2]
  | nested => simp [Lexes, LexState.after, hlex.1, hlex.2.1, hlex.2.2]
  | element htok =>
    have hinp : lexer.inp ≠ 0 := by
      rw [hlex.2.1]
      omega
    have hafter : lexer.after tok = lexer := by
      rcases htok with ⟨str, rfl⟩ | ⟨str, rfl⟩ <;> simp only [LexState.after, hlex.1] <;>
        exact if_neg hinp
    rw [hafter]
    exact hlex
  | join htok =>
    rcases htok with rfl | rfl <;> simpa [Lexes, LexState.after, hlex.1] using hlex.2
  | closeList =>
    obtain ⟨stack, hstack⟩ := List.head?_eq_some_iff.mp hlex.2.2
    simp [Lexes, LexState.after, LexState.doPop, LexState.pop, hlex.1, hlex.2.1, hstack]
  | @closeNested path op pending p outer t t' =>
    have hinp : lexer.inp = (p :: outer).length + 1 := hlex.2.1
    rw [List.length_cons] at hinp
    have hafter : lexer.after .rparen = lexer.doPop := by simp only [LexState.after, hlex.1]
    have hne : lexer.inp - 1 ≠ 0 := by omega
    rw [hafter, LexState.doPop, if_neg hne]
    refine ⟨hlex.1, ?_, hlex.2.2⟩
    change lexer.inp - 1 = _
    omega
  | operand he htok =>
    have hstart := he.lexes hlex
    rcases htok with rfl | rfl <;> simpa [Lexes, LexState.after, hstart.1] using hstart.2
  | closes he =>
    have hstart := he.lexes hlex
    simpa [Lexes, LexState.after, hstart.1] using hstart.2

theorem Lexes.start_eq (h : e.Lexes lexer) (h' : e.Lexes lexer') : lexer.start = lexer'.start := by
  unfold Lexes at h h'
  split at h <;> simp_all

theorem Reads.load (h : e.Reads g) : g.load e = some e := by
  cases e with
  | value path op => rw [CriteriaGlobals.load, h.1, h.2, Option.map_some]
  | multipleValue path op pending outer => rw [CriteriaGlobals.load, h.1, h.2, Option.map_some]
  | _ => rfl

theorem Moves.reads (h : e.Moves tok e') (hr : e.Reads g) : e'.Reads (g.store e e') := by
  cases h with
  | path => rfl
  | relation => exact ⟨hr, rfl⟩
  | list => exact hr
  | nested => exact hr
  | element => exact hr
  | join => exact hr
  | closeNested => exact hr
  | _ => trivial

theorem Moves.agree (h : e.Moves tok e') (ha : e.Agree g g') :
    e'.Agree (g.store e e') (g'.store e e') ∧
      (e.creates e' → g.pathCount = g'.pathCount) := by
  cases h with
  | opens => exact ⟨trivial, fun h => by cases h⟩
  | path => exact ⟨rfl, fun h => by cases h⟩
  | element => exact ⟨congrArg (· + 1) ha, fun _ => ha⟩
  | value => exact ⟨trivial, fun _ => ha⟩
  | closeList => exact ⟨trivial, fun h => by cases h⟩
  | operand he =>
    cases e with
    | relation path => exact ⟨trivial, fun _ => ha⟩
    | criteriaOperator t => exact ⟨trivial, fun h => by cases h⟩
    | _ => exact he.elim
  | closes he =>
    cases e with
    | relation path => exact ⟨trivial, fun _ => ha⟩
    | criteriaOperator t => exact ⟨trivial, fun h => by cases h⟩
    | _ => exact he.elim
  | _ => exact ⟨ha, fun h => by cases h⟩

theorem store_lexer : (g.store e e').lexer = g.lexer := by
  unfold CriteriaGlobals.store
  split
  · rfl
  · rfl
  · split_ifs <;> rfl

end Expects

namespace YyState

variable {pl : CriteriaPlatform} {g g' : CriteriaGlobals} {st st' : YyState} {tok : Token}
  {lexer : LexState}

/-- Where the parser has in its stack what is in memory, it steps as that parser does. -/
theorem step_machine (hr : st.parser.expects.Reads g) : st.step pl g tok =
    (st.parser.step pl tok).map fun parser => (g.store st.parser.expects parser.expects,
      ⟨parser, if st.parser.expects.creates parser.expects then st.take g else st.taken⟩) := by
  rw [step, hr.load]

theorem step_follows (hr : st.parser.expects.Reads g) :
    (∃ e, st.step pl g tok = .error e ∧ st.parser.step pl tok = .error e) ∨
      ∃ g₁ st₁, st.step pl g tok = .ok (g₁, st₁) ∧ st.parser.step pl tok = .ok st₁.parser := by
  rw [step_machine hr]
  cases st.parser.step pl tok with
  | error e => exact .inl ⟨e, rfl, rfl⟩
  | ok parser => exact .inr ⟨_, _, rfl, rfl⟩

theorem step_ok (h : st.step pl g tok = .ok (g', st')) (hr : st.parser.expects.Reads g) :
    st.parser.expects.Moves tok st'.parser.expects ∧
      g' = g.store st.parser.expects st'.parser.expects := by
  rw [step_machine hr] at h
  obtain ⟨parser, hstep, heq⟩ := map_ok h
  obtain ⟨rfl, rfl⟩ := Prod.mk.inj heq
  exact ⟨ParserState.step_moves hstep, rfl⟩

theorem step_keeps (h : st.step pl g tok = .ok (g', st')) (hr : st.parser.expects.Reads g)
    (hlex : st.parser.expects.Lexes lexer) : g'.lexer = g.lexer ∧
      st'.parser.expects.Reads g' ∧ st'.parser.expects.Lexes (lexer.after tok) := by
  obtain ⟨hmoves, rfl⟩ := step_ok h hr
  exact ⟨Expects.store_lexer, hmoves.reads hr, hmoves.lexes hlex⟩

theorem step_agree (hr : st.parser.expects.Reads g) (hr' : st.parser.expects.Reads g')
    (ha : st.parser.expects.Agree g g') :
    (∃ e, st.step pl g tok = .error e ∧ st.step pl g' tok = .error e) ∨
      ∃ g₁ g₁' st₁, st.step pl g tok = .ok (g₁, st₁) ∧ st.step pl g' tok = .ok (g₁', st₁) ∧
        st₁.parser.expects.Agree g₁ g₁' := by
  rw [step_machine hr, step_machine hr']
  cases hstep : st.parser.step pl tok with
  | error e => exact .inl ⟨e, rfl, rfl⟩
  | ok parser =>
    obtain ⟨hagree, hcount⟩ := (ParserState.step_moves hstep).agree ha
    refine .inr ⟨_, _, _, rfl, ?_, hagree⟩
    have htaken : (if st.parser.expects.creates parser.expects then st.take g' else st.taken) =
        if st.parser.expects.creates parser.expects then st.take g else st.taken := by
      split_ifs with hcreates
      · rw [take, take, hcount hcreates]
      · rfl
    rw [Except.map, htaken]

theorem finish_machine : (st.finish g).1.map Prod.fst = st.parser.finish := by
  unfold finish
  split <;> simp_all [Except.map]

theorem finish_agree (ha : st.parser.expects.Agree g g') : (st.finish g).1 = (st.finish g').1 := by
  unfold finish
  split
  · rfl
  · next hexpects =>
    rw [hexpects] at ha
    have hcount : g.pathCount = g'.pathCount := ha
    simp only [take, hcount]
  · rfl

theorem finish_ok {r : ParsedCriteria × List Bool} (h : st.finish g = (.ok r, g'))
    (hlex : st.parser.expects.Lexes g.lexer) : g'.lexer.start = .initial ∧ g'.lexer.inp = 0 := by
  unfold finish at h
  split at h
  · cases (Prod.mk.inj h).1
  · next hfinish hexpects =>
    obtain ⟨-, rfl⟩ := Prod.mk.inj h
    exact (ParserState.finish_operand hfinish).lexes hlex
  · next hfinish _ =>
    obtain ⟨-, rfl⟩ := Prod.mk.inj h
    exact (ParserState.finish_operand hfinish).lexes hlex

end YyState

variable {pl : CriteriaPlatform} {g g' : CriteriaGlobals} {st : YyState} {str : List UInt8}
  {fuel : ℕ}

/-- A text that is accepted leaves the lexer as it was at the start. -/
theorem yyparse_ok {r : ParsedCriteria × List Bool} (h : yyparse pl fuel g st str = (.ok r, g'))
    (hr : st.parser.expects.Reads g) (hlex : st.parser.expects.Lexes g.lexer) :
    g'.lexer.start = .initial ∧ g'.lexer.inp = 0 := by
  induction fuel generalizing g st str with
  | zero => cases (Prod.mk.inj h).1
  | succ fuel ih =>
    rw [yyparse] at h
    rcases @lex_next g.lexer str str.length with hnext | ⟨tok, rest, hnext⟩
    · rw [hnext] at h
      exact YyState.finish_ok h hlex
    · rw [hnext] at h
      dsimp only at h
      split_ifs at h with hdepth
      · cases (Prod.mk.inj h).1
      · split at h
        · cases (Prod.mk.inj h).1
        · next g₁ st₁ hstep =>
          obtain ⟨hg, hr, hlex⟩ := YyState.step_keeps hstep hr hlex
          refine ih h hr ?_
          rw [hg]
          exact hlex

theorem yyparse_agree (hr : st.parser.expects.Reads g) (hr' : st.parser.expects.Reads g')
    (ha : st.parser.expects.Agree g g') (hlex : st.parser.expects.Lexes g.lexer)
    (hlex' : st.parser.expects.Lexes g'.lexer) :
    (yyparse pl fuel g st str).1 = (yyparse pl fuel g' st str).1 := by
  induction fuel generalizing g g' st str with
  | zero => rfl
  | succ fuel ih =>
    have hsame := @next_lexer g.lexer g'.lexer str str.length (hlex.start_eq hlex')
    rw [yyparse, yyparse]
    rcases @lex_next g.lexer str str.length with hnext | ⟨tok, rest, hnext⟩ <;>
      rcases @lex_next g'.lexer str str.length with hnext' | ⟨tok', rest', hnext'⟩ <;>
      rw [hnext, hnext'] at hsame <;> rw [hnext, hnext']
    · exact YyState.finish_agree ha
    · cases hsame
    · cases hsame
    · obtain ⟨rfl, rfl⟩ := Prod.mk.inj (Option.some.inj hsame)
      dsimp only
      split_ifs with hdepth
      · rfl
      · rcases @YyState.step_agree pl { g with lexer := g.lexer.after tok }
          { g' with lexer := g'.lexer.after tok } st tok hr hr' ha with
          ⟨e, herr, herr'⟩ | ⟨g₁, g₁', st₁, hstep, hstep', ha⟩
        · rw [herr, herr']
        · rw [hstep, hstep']
          obtain ⟨hg, hr, hlex⟩ := YyState.step_keeps hstep hr hlex
          obtain ⟨hg', hr', hlex'⟩ := YyState.step_keeps hstep' hr' hlex'
          refine ih hr hr' ha ?_ ?_
          · rw [hg]
            exact hlex
          · rw [hg']
            exact hlex'

/-- The parser that asks for its tokens one by one reads the tokens of the text. -/
theorem yyparse_machine (hr : st.parser.expects.Reads g)
    (hlex : st.parser.expects.Lexes g.lexer) (hfuel : str.length < fuel) :
    (yyparse pl fuel g st str).1.map Prod.fst =
      st.parser.parse pl (criteriaScanner.scan g.lexer str).1 := by
  induction fuel generalizing g st str with
  | zero => omega
  | succ fuel ih =>
    rw [yyparse, Scanner.scan_next le_rfl]
    rcases @lex_next g.lexer str str.length with hnext | ⟨tok, rest, hnext⟩
    · rw [hnext]
      exact YyState.finish_machine
    · have hlength := Scanner.next_length hnext
      rw [hnext]
      dsimp only
      rw [ParserState.parse]
      split_ifs with hdepth
      · rfl
      · have hread : st.parser.expects.Reads { g with lexer := g.lexer.after tok } := hr
        rcases YyState.step_follows hread with ⟨e, herr, herr'⟩ | ⟨g₁, st₁, hstep, hstep'⟩
        · rw [herr, herr']
          rfl
        · rw [hstep, hstep']
          obtain ⟨hg, hread, hlex⟩ := YyState.step_keeps hstep hread hlex
          change g₁.lexer = g.lexer.after tok at hg
          rw [← hg] at hlex
          refine (ih hread hlex (by omega)).trans ?_
          rw [hg]

/-- The first text is parsed like its tokens. -/
theorem parseCriteria_start (pl : CriteriaPlatform) (str : List UInt8) :
    idmefCriteriaNewFromString pl str = match (parseCriteria pl .start str).1 with
      | .error e => .error e
      | .ok r => createNodes r.1 [] := by
  have h := @yyparse_machine pl .start .initial str (str.length + 1) trivial ⟨rfl, rfl⟩
    (Nat.lt_succ_self _)
  have hparser : ParserState.initial.parse pl (criteriaTokens str) =
      (yyparse pl (str.length + 1) .start .initial str).1.map Prod.fst := h.symm
  rw [idmefCriteriaNewFromString, hparser, parseCriteria]
  rcases yyparse pl (str.length + 1) .start .initial str with ⟨_ | r, g⟩ <;> rfl

theorem parseCriteria_reset {g' : CriteriaGlobals}
    {r : Except ErrorCode (ParsedCriteria × List Bool)}
    (h : parseCriteria pl g str = (r, g')) (hlex : g.lexer.start = .initial ∧ g.lexer.inp = 0) :
    g'.lexer.start = .initial ∧ g'.lexer.inp = 0 := by
  unfold parseCriteria at h
  split at h
  · next hparse =>
    obtain ⟨-, rfl⟩ := Prod.mk.inj h
    exact yyparse_ok hparse trivial hlex
  · obtain ⟨-, rfl⟩ := Prod.mk.inj h
    exact ⟨rfl, rfl⟩

theorem afterCalls_lexer (pl : CriteriaPlatform) (texts : List (List UInt8)) :
    (afterCalls pl texts).lexer.start = .initial ∧ (afterCalls pl texts).lexer.inp = 0 := by
  have hstep : ∀ (texts : List (List UInt8)) (g : CriteriaGlobals),
      g.lexer.start = .initial ∧ g.lexer.inp = 0 →
      (texts.foldl (fun g str => (parseCriteria pl g str).2) g).lexer.start = .initial ∧
        (texts.foldl (fun g str => (parseCriteria pl g str).2) g).lexer.inp = 0 := by
    intro texts
    induction texts with
    | nil => exact fun _ h => h
    | cons str texts ih => exact fun g h => ih _ (parseCriteria_reset rfl h)
  exact hstep texts .start ⟨rfl, rfl⟩

/-- After any calls the lexer is at its start, and a text is parsed as if it were the first. -/
theorem criteria_parse_stateless (pl : CriteriaPlatform) (texts : List (List UInt8))
    (str : List UInt8) :
    ((afterCalls pl texts).lexer.start = .initial ∧ (afterCalls pl texts).lexer.inp = 0) ∧
      (parseCriteria pl (afterCalls pl texts) str).1 = (parseCriteria pl .start str).1 := by
  refine ⟨afterCalls_lexer pl texts, ?_⟩
  have hagree := @yyparse_agree pl (afterCalls pl texts) .start .initial str (str.length + 1)
    trivial trivial trivial (afterCalls_lexer pl texts) ⟨rfl, rfl⟩
  unfold parseCriteria
  rcases hleft : yyparse pl (str.length + 1) (afterCalls pl texts) .initial str with ⟨_ | r, g₁⟩ <;>
    rcases hright : yyparse pl (str.length + 1) .start .initial str with ⟨_ | r', g₂⟩ <;>
    rw [hleft, hright] at hagree <;> exact hagree

end LibPrelude
