import LibPrelude.Criteria.Store
import LibPrelude.Idmef.ValueRead

/-! # Matching a criterion

The value of a criterion is a value of the type of its path, a regular expression or
a broken-down time. Each kind matches one value or its absence; over a list the
matches are counted at any depth, and a negated operator matches when no element
does. The three kinds negate on their own, so that they disagree about absent values.
-/

namespace LibPrelude

inductive CriterionValue where
  | value (v : ValueType)
  | regex (pattern : List UInt8) (nocase : Bool)
  | btime (tm : Tm)

def idmefCriterionValueNewRegex (pl : Platform) (regex : List UInt8) (op : Operator) :
    Except ErrorCode CriterionValue :=
  if pl.regcomp op.nocase regex then .ok (.regex regex op.nocase)
  else .error .idmefCriterionInvalidRegex

def idmefCriterionValueNewValue (v : ValueType) (op : Operator) :
    Except ErrorCode CriterionValue :=
  match idmefValueTypeCheckOperator v.id op with
  | .error e => .error e
  | .ok () => .ok (.value v)

/-- The end of the function, for a value that is no broken-down time or regular expression. -/
def criterionPlainValue (pl : Platform) (path : IdmefPath) (str : List UInt8) (op : Operator) :
    Except ErrorCode CriterionValue :=
  let tid := idmefPathGetValueType path
  match idmefValueTypeCheckOperator tid op with
  | .error e => .error e
  | .ok () =>
    let val :=
      if tid = .enum ∧ op.substr then idmefValueTypeRead pl .string str
      else idmefValueNewFromPath pl path str
    match val with
    | .error e => .error e
    | .ok v => idmefCriterionValueNewValue v op

def idmefCriterionValueNewFromString (pl : Platform) (path : IdmefPath) (str : List UInt8)
    (op : Operator) : Except ErrorCode CriterionValue :=
  let tid := idmefPathGetValueType path
  if tid = .time then
    match btimeParse pl.order pl.gmtOffset str with
    | some tm => .ok (.btime tm)
    | none => criterionPlainValue pl path str op
  else if op.regex ∧ (tid = .string ∨ tid = .enum ∨ tid = .data) then
    idmefCriterionValueNewRegex pl str op
  else criterionPlainValue pl path str op

/-- The text that a regular expression is matched with. -/
def regexText : Option ValueType → Option (List UInt8)
  | some (.string s) => s.buf
  | some (.enum value cls) => idmefClassEnumToString cls value
  | some (.data (.charString bytes)) => some bytes
  | _ => none

def regexMatch (pl : Platform) (pattern : List UInt8) (nocase : Bool) (op : Operator)
    (value : Option ValueType) : ℤ :=
  match regexText value with
  | none => 0
  | some str =>
    let ret : ℤ := if pl.regexec nocase pattern (PreludeString.cString str) then 1 else 0
    if op.not then if ret = 0 then 1 else 0 else ret

/-- The number of matches of a value that is no list. -/
def valueMatch (pl : Platform) (v : ValueType) (op : Operator) (value : Option ValueType) :
    Except ErrorCode ℤ :=
  match idmefValueTypeCompare pl.toMachine value (some v) op with
  | .error e => .error e
  | .ok ret => .ok (if ret = 0 then 1 else 0)

def CriterionValue.match (pl : Platform) (cv : CriterionValue) (op : Operator)
    (value : Option ValueType) : Except ErrorCode ℤ :=
  match cv with
  | .value v => valueMatch pl v op value
  | .regex pattern nocase => .ok (regexMatch pl pattern nocase op value)
  | .btime tm => btimeMatch tm op value

/-- The counters of matches and of the elements that did not match. -/
structure MatchCb where
  matched : ℕ
  nmatch : ℕ

def MatchCb.count (mcb : MatchCb) (ret : ℤ) : MatchCb :=
  if 0 < ret then { mcb with matched := mcb.matched + 1 }
  else { mcb with nmatch := mcb.nmatch + 1 }

/-- A criterion without a value asks whether there is one. -/
def nullMatch (op : Operator) (value : Option IdmefValue) : ℤ :=
  if op = criterionNotNull then if value.isSome then 1 else 0
  else if value.isSome then 0 else 1

mutual

def doMatchCb (pl : Platform) (cv : CriterionValue) (op : Operator) :
    Option IdmefValue → MatchCb → Except ErrorCode MatchCb
  | none, mcb => (cv.match pl op none).map mcb.count
  | some value, mcb => doMatchValue pl cv op value mcb

def doMatchValue (pl : Platform) (cv : CriterionValue) (op : Operator) :
    IdmefValue → MatchCb → Except ErrorCode MatchCb
  | .scalar v, mcb => (cv.match pl op (some v)).map mcb.count
  | .list l, mcb => doMatchList pl cv op l mcb

/-- The callback on each element of a list; an error ends the iteration. -/
def doMatchList (pl : Platform) (cv : CriterionValue) (op : Operator) :
    List (Option IdmefValue) → MatchCb → Except ErrorCode MatchCb
  | [], mcb => .ok mcb
  | v :: vs, mcb =>
    match doMatchCb pl cv op v mcb with
    | .error e => .error e
    | .ok mcb => doMatchList pl cv op vs mcb

end

/-- Count over what a path designates. -/
def myValueMatch (pl : Platform) (cv : Option CriterionValue) (op : Operator)
    (value : Option IdmefValue) : Except ErrorCode MatchCb :=
  match cv, value with
  | some cv, value => doMatchCb pl cv op value ⟨0, 0⟩
  | none, some (.list l) => .ok (l.foldl (fun mcb v => mcb.count (nullMatch op v)) ⟨0, 0⟩)
  | none, value => .ok (MatchCb.count ⟨0, 0⟩ (nullMatch op value))

def isList : Option IdmefValue → Bool
  | some (.list _) => true
  | _ => false

def idmefCriterionValueMatch (pl : Platform) (cv : Option CriterionValue)
    (value : Option IdmefValue) (op : Operator) : Except ErrorCode ℕ :=
  match myValueMatch pl cv op value with
  | .error e => .error e
  | .ok mcb =>
    if isList value ∧ op ≠ criterionNotNull then
      if op = criterionNull then .ok (if mcb.nmatch = 0 then 1 else 0)
      else if op.not ∧ 0 < mcb.nmatch then .ok 0
      else .ok mcb.matched
    else .ok mcb.matched

def criterionMatch (pl : Platform) (object : Obj)
    (criterion : Criterion IdmefPath CriterionValue) : Except ErrorCode Bool :=
  if ¬ criterion.operator.isCriterion then .error .assertion
  else
    match idmefPathGet criterion.path object with
    | .error e => .error e
    | .ok value =>
      match idmefCriterionValueMatch pl criterion.value value criterion.operator with
      | .error e => .error e
      | .ok ret => .ok (0 < ret)

end LibPrelude
