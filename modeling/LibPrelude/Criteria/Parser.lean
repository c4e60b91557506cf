import LibPrelude.General.Grouping
import LibPrelude.Idmef.PathParse
import LibPrelude.Criteria.Forest
import LibPrelude.Criteria.Lexer
import LibPrelude.Criteria.Value

/-! # The parser of criteria

The parser shifts one token after the other and keeps, for every parenthesis that is
open, what stands before the operand that it expects. Outside lists of values the
operator `&&` binds tighter than `||` and both group to the left. In a list of values
the grammar gives neither a precedence, and a shift is preferred to a reduction.
-/

namespace LibPrelude

/-- The functions that the escapes of a string rest on: the text and the length of an escape for a
code point, and the byte of one with two hexadecimal digits. -/
structure CriteriaPlatform extends Platform where
  unicodeToString : List UInt8 → Except ErrorCode (List UInt8 × ℕ)
  sscanfHex : List UInt8 → Option UInt8

abbrev ParsedCriterion := Criterion IdmefPath CriterionValue
abbrev ParsedCriteria := Formula ParsedCriterion

def existsCriteria (path : IdmefPath) : ParsedCriteria := .atom ⟨path, none, criterionNotNull⟩

def TokRelation.operator : TokRelation → Operator
  | substring => criterionSubstr
  | substringNocase => criterionSubstrNocase
  | notSubstring => criterionSubstr.negated
  | notSubstringNocase => criterionSubstrNocase.negated
  | regexp => criterionRegex
  | regexpNocase => criterionRegexNocase
  | notRegexp => criterionRegex.negated
  | notRegexpNocase => criterionRegexNocase.negated
  | greater => criterionGreater
  | greaterOrEqual => criterionGreaterOrEqual
  | less => criterionLesser
  | lessOrEqual => criterionLesserOrEqual
  | equal => criterionEqual
  | equalNocase => criterionEqualNocase
  | notEqual => criterionNotEqual
  | notEqualNocase => criterionNotEqualNocase

/-- The byte that an escape of one letter stands for; a backslash is one in plain strings only. -/
def simpleEscape (op : Operator) (c : UInt8) : Option UInt8 :=
  match c.toNat with
  | 48 => some 0
  | 97 => some 7
  | 98 => some 8
  | 102 => some 12
  | 110 => some 10
  | 114 => some 13
  | 116 => some 9
  | 118 => some 11
  | 92 => if op.substr || op.regex then none else some 92
  | _ => none

def escapeFrom (pl : CriteriaPlatform) (op : Operator) :
    ℕ → List UInt8 → Except ErrorCode (List UInt8)
  | 0, _ => .ok []
  | _ + 1, [] => .ok []
  | _ + 1, [c] => .ok [c]
  | fuel + 1, b :: c :: str =>
    if b ≠ 92 then (escapeFrom pl op fuel (c :: str)).map (b :: ·)
    else
      match simpleEscape op c with
      | some b => (escapeFrom pl op fuel str).map (b :: ·)
      | none =>
        if c = 117 ∨ c = 85 then
          match pl.unicodeToString (92 :: c :: str) with
          | .error e => .error e
          | .ok (text, n) => (escapeFrom pl op fuel (str.drop (n - 2))).map (text ++ ·)
        else if c = 120 then
          if str.length < 2 then .error .generic
          else (escapeFrom pl op fuel (str.drop 2)).map ((pl.sscanfHex str).getD c :: ·)
        else (escapeFrom pl op fuel str).map ([92, c] ++ ·)

def escapeStr (pl : CriteriaPlatform) (op : Operator) (str : List UInt8) :
    Except ErrorCode (List UInt8) :=
  escapeFrom pl op str.length str

section

variable (pl : CriteriaPlatform)

/-- The text of a value token; a string without content has no text. -/
def valueText (op : Operator) : Token → Except ErrorCode (List UInt8)
  | .rawValue str => .ok str
  | .value str =>
    match escapeStr pl op str with
    | .error e => .error e
    | .ok [] => .error .assertion
    | .ok out => .ok (PreludeString.cString out)
  | _ => .error .idmefCriteriaParse

def valueCriteria (path : IdmefPath) (op : Operator) (tok : Token) :
    Except ErrorCode ParsedCriterion :=
  match valueText pl op tok with
  | .error e => .error e
  | .ok str =>
    match idmefCriterionValueNewFromString pl.toPlatform path str op with
    | .error e => .error e
    | .ok value => .ok ⟨path, some value, op⟩

end

theorem map_ok {α β : Type} {f : α → β} {x : Except ErrorCode α} {b : β}
    (h : x.map f = .ok b) : ∃ a, x = .ok a ∧ b = f a := by
  rcases x with e | a <;> cases h
  exact ⟨a, rfl, rfl⟩

/-- What stands before the operand in one parenthesis: the criteria before the last `||`, those
between it and the last `&&`, and the number of `!`. -/
structure Pending where
  criteria : Option ParsedCriteria
  criteriaAnd : Option ParsedCriteria
  nots : ℕ

namespace Pending

def new : Pending := ⟨none, none, 0⟩

def criteriaNot (p : Pending) (t : ParsedCriteria) : ParsedCriteria := Formula.not^[p.nots] t

def reduceAnd (p : Pending) (t : ParsedCriteria) : ParsedCriteria :=
  Formula.Op.and.joinLeft p.criteriaAnd (p.criteriaNot t)

def reduce (p : Pending) (t : ParsedCriteria) : ParsedCriteria :=
  Formula.Op.or.joinLeft p.criteria (p.reduceAnd t)

def height (p : Pending) : ℕ :=
  (if p.criteria.isSome then 2 else 0) + (if p.criteriaAnd.isSome then 2 else 0) + p.nots

end Pending

/-- The operands of one parenthesis of a list of values that wait for what follows their operator,
the last one first. -/
abbrev PendingValues := List (ParsedCriteria × Formula.Op)

def PendingValues.reduce (pending : PendingValues) (t : ParsedCriteria) : ParsedCriteria :=
  pending.foldl (fun t u => u.2.join u.1 t) t

/-- What the parser expects. -/
inductive Expects where
  | criteriaNot
  | relation (path : IdmefPath)
  | value (path : IdmefPath) (op : Operator)
  | multipleValue (path : IdmefPath) (op : Operator) (pending : PendingValues)
      (outer : List PendingValues)
  | operator (path : IdmefPath) (op : Operator) (pending : PendingValues)
      (outer : List PendingValues) (t : ParsedCriteria)
  | criteriaOperator (t : ParsedCriteria)

/-- The number of grammar symbols of a list of values before its innermost parenthesis. -/
def listHeight (outer : List PendingValues) : ℕ := 3 + (outer.map fun p => 2 * p.length + 1).sum

def yyMaxDepth : ℕ := 10000

structure ParserState where
  pending : Pending
  outer : List Pending
  expects : Expects

namespace ParserState

def initial : ParserState := ⟨.new, [], .criteriaNot⟩

def syntaxError {α : Type} : Except ErrorCode α := .error .idmefCriteriaParse
def memoryExhausted {α : Type} : Except ErrorCode α := .error .idmefCriteriaParse

/-- After an operand outside lists of values. -/
def stepOperator (st : ParserState) (t : ParsedCriteria) : Token → Except ErrorCode ParserState
  | .or => .ok { st with
      pending := ⟨some (st.pending.reduce t), none, 0⟩, expects := .criteriaNot }
  | .and => .ok { st with
      pending := ⟨st.pending.criteria, some (st.pending.reduceAnd t), 0⟩, expects := .criteriaNot }
  | .rparen =>
    match st.outer with
    | [] => syntaxError
    | p :: outer => .ok ⟨p, outer, .criteriaOperator (st.pending.reduce t)⟩
  | _ => syntaxError

def step (pl : CriteriaPlatform) (st : ParserState) (tok : Token) : Except ErrorCode ParserState :=
  match st.expects with
  | .criteriaNot =>
    match tok with
    | .not => .ok { st with pending := { st.pending with nots := st.pending.nots + 1 } }
    | .lparen => .ok ⟨.new, st.pending :: st.outer, .criteriaNot⟩
    | .path str => (idmefPathNewFast str).map fun path => { st with expects := .relation path }
    | _ => syntaxError
  | .relation path =>
    match tok with
    | .relation r => .ok { st with expects := .value path r.operator }
    | .error => syntaxError
    | tok => st.stepOperator (existsCriteria path) tok
  | .value path op =>
    match tok with
    | .lparen => .ok { st with expects := .multipleValue path op [] [] }
    | tok => (valueCriteria pl path op tok).map
      fun t => { st with expects := .criteriaOperator (.atom t) }
  | .multipleValue path op pending outer =>
    match tok with
    | .lparen => .ok { st with expects := .multipleValue path op [] (pending :: outer) }
    | tok =>
      (valueCriteria pl path op tok).map fun t =>
        { st with expects := .operator path op pending outer (.atom t) }
  | .operator path op pending outer t =>
    match tok with
    | .and => .ok { st with expects := .multipleValue path op ((t, .and) :: pending) outer }
    | .or => .ok { st with expects := .multipleValue path op ((t, .or) :: pending) outer }
    | .rparen =>
      match outer with
      | [] => .ok { st with expects := .criteriaOperator (pending.reduce t) }
      | p :: outer => .ok { st with expects := .operator path op p outer (pending.reduce t) }
    | _ => syntaxError
  | .criteriaOperator t => st.stepOperator t tok

def finish (st : ParserState) : Except ErrorCode ParsedCriteria :=
  match st.outer, st.expects with
  | [], .relation path => .ok (st.pending.reduce (existsCriteria path))
  | [], .criteriaOperator t => .ok (st.pending.reduce t)
  | _, _ => syntaxError

/-- The number of grammar symbols below those in the innermost parenthesis. -/
def below (st : ParserState) : ℕ := (st.outer.map fun p => p.height + 1).sum

/-- The number of grammar symbols that a token is on top of, itself included. -/
def shiftHeight (st : ParserState) (tok : Token) : ℕ :=
  match st.expects, tok with
  | .criteriaNot, _ => st.below + st.pending.height + 1
  | .relation _, .relation _ => st.below + st.pending.height + 2
  | .value _ _, _ => st.below + st.pending.height + 3
  | .multipleValue _ _ pending outer, _ =>
    st.below + st.pending.height + listHeight outer + 2 * pending.length + 1
  | .operator _ _ _ outer _, .rparen => st.below + st.pending.height + listHeight outer + 2
  | .operator _ _ pending outer _, _ =>
    st.below + st.pending.height + listHeight outer + 2 * pending.length + 2
  | _, .and => st.below + (if st.pending.criteria.isSome then 2 else 0) + 2
  | _, _ => st.below + 2

/-- The criteria that tokens read from a state on complete. -/
def parse (pl : CriteriaPlatform) (st : ParserState) : List Token → Except ErrorCode ParsedCriteria
  | [] => st.finish
  | tok :: toks =>
    if yyMaxDepth ≤ st.shiftHeight tok + 1 then memoryExhausted
    else
      match st.step pl tok with
      | .error e => .error e
      | .ok st => parse pl st toks

end ParserState

/-- The nodes of criteria, allocated in the order in which their parts are reduced. -/
def createNodes {P V : Type} : Formula (Criterion P V) → CriteriaStore P V →
    Except ErrorCode (ℕ × CriteriaStore P V)
  | .atom c, store => idmefCriterionNew store c.path c.value c.operator
  | .not t, store =>
    match createNodes t store with
    | .error e => .error e
    | .ok (r, store) => idmefCriteriaJoin store none criteriaNot (some r)
  | .and t u, store =>
    match createNodes t store with
    | .error e => .error e
    | .ok (p, store) =>
      match createNodes u store with
      | .error e => .error e
      | .ok (q, store) => (idmefCriteriaAndCriteria store p q).map fun store => (p, store)
  | .or t u, store =>
    match createNodes t store with
    | .error e => .error e
    | .ok (p, store) =>
      match createNodes u store with
      | .error e => .error e
      | .ok (q, store) => (idmefCriteriaOrCriteria store p q).map fun store => (p, store)

/-- The root of the criteria that a text stands for and the nodes. -/
def idmefCriteriaNewFromString (pl : CriteriaPlatform) (str : List UInt8) :
    Except ErrorCode (ℕ × CriteriaStore IdmefPath CriterionValue) :=
  match ParserState.initial.parse pl (criteriaTokens str) with
  | .error e => .error e
  | .ok t => createNodes t []

end LibPrelude
