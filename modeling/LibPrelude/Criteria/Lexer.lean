import LibPrelude.General.Lexer
import LibPrelude.Idmef.ValueType

/-! # The lexer of criteria

Outside values, paths, relations, operators and parentheses are recognised. A relation
opens the values: quoted or raw strings and words up to a blank, a parenthesis or an
operator. They end after one value, or where the parenthesis that opened a list of
values is closed.
-/

namespace LibPrelude

/-- The bytes in one of the ranges, or those in none of them. -/
structure ByteSet where
  ranges : List (UInt8 × UInt8)
  negated : Bool
  deriving DecidableEq

def ByteSet.mem (s : ByteSet) (b : UInt8) : Bool :=
  (s.ranges.any fun r => r.1 ≤ b && b ≤ r.2) != s.negated

abbrev Pattern := Rx ByteSet

namespace Pattern

def oneOf (cs : String) : Pattern := .set ⟨(ascii cs).map fun b => (b, b), false⟩

def noneOf (cs : String) : Pattern := .set ⟨(ascii cs).map fun b => (b, b), true⟩

def dot : Pattern := noneOf "\n"

def seqs : List Pattern → Pattern
  | [] => .empty
  | [r] => r
  | r :: rs => .seq r (seqs rs)

def lit (cs : String) : Pattern := seqs ((ascii cs).map fun b => .set ⟨[(b, b)], false⟩)

def word : Pattern :=
  .set ⟨[(97, 122), (65, 90), (48, 57), (95, 95), (45, 45)], false⟩

/-- What may stand between the parentheses of an index. -/
def indexText : Pattern :=
  .alt (.seq (.opt (oneOf "-")) (.plus (.set ⟨[(48, 57), (42, 42)], false⟩)))
    (.alt (seqs [oneOf "\"", .plus (noneOf "\""), oneOf "\""])
      (seqs [oneOf "'", .plus (noneOf "'"), oneOf "'"]))

def idmefPath : Pattern :=
  .plus (seqs [.plus word, .opt (seqs [oneOf "(", indexText, oneOf ")"]), .opt (oneOf ".")])

/-- A string between quotes; a backslash takes the next character along. -/
def quoted (quote except : String) : Pattern :=
  seqs [oneOf quote, .star (.alt (noneOf except) (.seq (oneOf "\\") dot)), oneOf quote]

def sqstring : Pattern := quoted "'" "\\'"
def dqstring : Pattern := quoted "\"" "\\\""
def rsqstring : Pattern := .seq (oneOf "r") sqstring
def rdqstring : Pattern := .seq (oneOf "r") dqstring
def blank : Pattern := .plus (oneOf " \t\n")
def bareValue : Pattern := .plus (noneOf " \t()&|")

end Pattern

inductive TokRelation where
  | substring
  | substringNocase
  | notSubstring
  | notSubstringNocase
  | regexp
  | regexpNocase
  | notRegexp
  | notRegexpNocase
  | greater
  | greaterOrEqual
  | less
  | lessOrEqual
  | equal
  | equalNocase
  | notEqual
  | notEqualNocase
  deriving DecidableEq, Repr

inductive Token where
  | rawValue (str : List UInt8)
  | value (str : List UInt8)
  | path (str : List UInt8)
  | relation (r : TokRelation)
  | not
  | and
  | or
  | lparen
  | rparen
  | error
  deriving DecidableEq, Repr

inductive StartCondition where
  | initial
  | idmefValue
  deriving DecidableEq, Repr

/-- The start condition, those below it on the stack, and the depth of parentheses in a list of
values; no text that the parser accepts makes the depth wrap. -/
structure LexState where
  start : StartCondition
  stack : List StartCondition
  inp : ℤ
  deriving DecidableEq, Repr

def initLexer : LexState := ⟨.initial, [], 0⟩

namespace LexState

def push (st : LexState) : LexState :=
  { st with start := .idmefValue, stack := st.start :: st.stack }

def pop (st : LexState) : LexState :=
  match st.stack with
  | [] => st
  | start :: stack => { st with start := start, stack := stack }

def popAfterValue (st : LexState) : LexState := if st.inp = 0 then st.pop else st

/-- A closing parenthesis in a list of values. -/
def doPop (st : LexState) : LexState :=
  let st := { st with inp := st.inp - 1 }
  if st.inp = 0 then st.pop else st

end LexState

abbrev LexAction := LexState → List UInt8 → LexState × Option Token

namespace LexAction

def token (t : Token) : LexAction := fun st _ => (st, some t)
def relation (r : TokRelation) : LexAction := fun st _ => (st.push, some (.relation r))
def skip : LexAction := fun st _ => (st, none)

def raw : LexAction := fun st s => (st.popAfterValue, some (.rawValue ((s.drop 2).dropLast)))
def string : LexAction := fun st s => (st.popAfterValue, some (.value ((s.drop 1).dropLast)))
def bare : LexAction := fun st s => (st.popAfterValue, some (.value s))

end LexAction

open Pattern LexAction

def operatorRules : List (Pattern × LexAction) :=
  [(lit "&&", token .and), (lit "&", token .and), (lit "||", token .or), (lit "|", token .or)]

def initialRules : List (Pattern × LexAction) :=
  [(lit "substr", relation .substring),
    (lit "!substr", relation .notSubstring),
    (lit "substr*", relation .substringNocase),
    (lit "!substr*", relation .notSubstringNocase),
    (idmefPath, fun st s => (st, some (.path s))),
    (lit "<>", relation .substring),
    (lit "<>*", relation .substringNocase),
    (lit "!<>", relation .notSubstring),
    (lit "!<>*", relation .notSubstringNocase),
    (lit ">", relation .greater),
    (lit ">=", relation .greaterOrEqual),
    (lit "<", relation .less),
    (lit "<=", relation .lessOrEqual),
    (lit "~", relation .regexp),
    (lit "~*", relation .regexpNocase),
    (lit "!~", relation .notRegexp),
    (lit "!~*", relation .notRegexpNocase),
    (lit "==", relation .equal),
    (lit "=", relation .equal),
    (lit "=*", relation .equalNocase),
    (lit "!=", relation .notEqual),
    (lit "!=*", relation .notEqualNocase),
    (lit "!", token .not)] ++ operatorRules ++
  [(lit "(", token .lparen),
    (lit ")", token .rparen),
    (blank, skip),
    (dot, token .error)]

def valueRules : List (Pattern × LexAction) :=
  [(rsqstring, raw),
    (rdqstring, raw),
    (sqstring, string),
    (dqstring, string),
    (bareValue, bare),
    (blank, skip),
    (lit "(", fun st _ => ({ st with inp := st.inp + 1 }, some .lparen)),
    (lit ")", fun st _ => (st.doPop, some .rparen))] ++ operatorRules ++
  [(dot, token .error)]

def criteriaScanner : Scanner ByteSet UInt8 LexState Token where
  mem := ByteSet.mem
  rules := fun st =>
    match st.start with
    | .initial => initialRules
    | .idmefValue => valueRules

def criteriaTokens (text : List UInt8) : List Token := (criteriaScanner.scan initLexer text).1

end LibPrelude
