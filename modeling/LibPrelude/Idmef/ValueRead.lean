import LibPrelude.Idmef.Path
import LibPrelude.Criteria.BrokenDownTime

/-! # Reading values from text

A value is read from a text as its type demands: integers in one of three bases and
within the range of the type, enumeration values by number or name, strings and data
as they are. Floats and times are read by functions that are parameters, as the
regular expressions are.
-/

namespace LibPrelude

/-- The functions of the C library and the environment that criteria rest on. -/
structure Platform extends Machine where
  gmtOffset : ℤ
  strtof : List UInt8 → Option UInt32
  strtod : List UInt8 → Option UInt64
  readTime : List UInt8 → Option IdmefTime
  regcomp : Bool → List UInt8 → Bool
  regexec : Bool → List UInt8 → List UInt8 → Bool

/-- A platform with no offset from Greenwich whose regular expressions are plain texts. -/
def plainPlatform : Platform where
  order := .little
  fnmatch := fun _ s2 s1 => s2 = s1
  timeByte := fun _ => 0
  overlay := plainOverlay
  gmtOffset := 0
  strtof := fun _ => none
  strtod := fun _ => none
  readTime := fun _ => none
  regcomp := fun _ _ => true
  regexec := fun _ pattern str => memmem str pattern

def digitOf (b : UInt8) : ℕ :=
  if isDigit b then b.toNat - 48
  else if 97 ≤ b ∧ b ≤ 122 then b.toNat - 87
  else if 65 ≤ b ∧ b ≤ 90 then b.toNat - 55
  else 36

def numberIn (base : ℕ) (bs : List UInt8) : ℕ := bs.foldl (fun n b => base * n + digitOf b) 0

/-- The base that the prefix of a number tells and the digits. -/
def numberBase (bs : List UInt8) : ℕ × List UInt8 :=
  match bs with
  | 48 :: x :: b :: rest =>
    if (x = 120 ∨ x = 88) ∧ digitOf b < 16 then (16, b :: rest) else (8, 48 :: x :: b :: rest)
  | 48 :: rest => (8, 48 :: rest)
  | _ => (10, bs)

/-- The sign and the size of a text that is one number to its end. -/
def wholeNumber (str : List UInt8) : Option (Bool × ℕ) :=
  let (neg, bs) :=
    match str.dropWhile isSpace with
    | 45 :: bs => (true, bs)
    | 43 :: bs => (false, bs)
    | bs => (false, bs)
  let (base, digits) := numberBase bs
  if digits = [] ∨ ¬ digits.all (digitOf · < base) then none else some (neg, numberIn base digits)

/-- The number that a text is, unless it does not fit into a signed 64-bit integer. -/
def strtoll (str : List UInt8) : Option ℤ :=
  match wholeNumber str with
  | none => none
  | some (neg, n) =>
    let v : ℤ := if neg then -n else n
    if -2 ^ 63 ≤ v ∧ v < 2 ^ 63 then some v else none

/-- The number that a text is, unless it does not fit into an unsigned 64-bit integer; a negative
number wraps. -/
def strtoull (str : List UInt8) : Option ℤ :=
  match wholeNumber str with
  | none => none
  | some (neg, n) => if n < 2 ^ 64 then some ((if neg then -(n : ℤ) else n) % 2 ^ 64) else none

def IntegerType.min (t : IntegerType) : ℤ := if t.signed then -(256 ^ t.size / 2) else 0

def IntegerType.max (t : IntegerType) : ℤ :=
  if t.signed then 256 ^ t.size / 2 - 1 else 256 ^ t.size - 1

/-- The number as the variable that it is checked in holds it. -/
def IntegerType.strto (t : IntegerType) (str : List UInt8) : Option ℤ :=
  match t with
  | int8 | int16 => (strtoll str).map fun v => Int.bmod v (2 ^ 32)
  | uint8 => (strtoll str).map fun v => v % 2 ^ 32
  | uint16 => (strtoull str).map fun v => v % 2 ^ 32
  | int32 | int64 => strtoll str
  | uint32 | uint64 => strtoull str

def IntegerType.read (t : IntegerType) (str : List UInt8) : Except ErrorCode ValueType :=
  match t.strto str with
  | none => .error .idmefValueTypeParse
  | some v => if v < t.min ∨ t.max < v then .error .idmefValueTypeParse else .ok (.integer t v)

/-- The value that a text stands for, its bytes up to the first null byte. -/
def idmefValueTypeRead (pl : Platform) (type : IdmefValueTypeId) (str : List UInt8) :
    Except ErrorCode ValueType :=
  match type with
  | .int8 => IntegerType.read .int8 str
  | .uint8 => IntegerType.read .uint8 str
  | .int16 => IntegerType.read .int16 str
  | .uint16 => IntegerType.read .uint16 str
  | .int32 => IntegerType.read .int32 str
  | .uint32 => IntegerType.read .uint32 str
  | .int64 => IntegerType.read .int64 str
  | .uint64 => IntegerType.read .uint64 str
  | .float => (pl.strtof str).elim (.error .idmefValueTypeParse) fun v => .ok (.float v)
  | .double => (pl.strtod str).elim (.error .idmefValueTypeParse) fun v => .ok (.double v)
  | .string => .ok (.string ⟨some str⟩)
  | .time => (pl.readTime str).elim (.error .idmefValueTypeParse) fun t => .ok (.time t)
  | .data => .ok (.data (.charString (str ++ [0])))
  | .unknown | .enum | .list | .class => .error .idmefValueTypeReadUnavailable

def idmefClassEnumToNumeric (cls : IdmefEnumId) (str : List UInt8) : Except ErrorCode ℤ :=
  match cls.names.findIdx? fun name => strcasecmp str (ascii name) with
  | none => .error .idmefUnknownEnumString
  | some i => .ok (i + cls.first)

def idmefValueNewEnum (cls : IdmefEnumId) (str : List UInt8) : Except ErrorCode ValueType :=
  if str.all isDigit then .ok (.enum (atoi str) cls)
  else (idmefClassEnumToNumeric cls str).map fun v => .enum v cls

/-- The enumeration that the last step of a path leads to. -/
def IdmefPath.enumId (path : IdmefPath) : Option IdmefEnumId :=
  (lastChild path.topClass path.elements).bind Child.enumId

def idmefValueNewFromPath (pl : Platform) (path : IdmefPath) (str : List UInt8) :
    Except ErrorCode ValueType :=
  if idmefPathGetValueType path ≠ .enum then
    idmefValueTypeRead pl (idmefPathGetValueType path) str
  else
    match path.enumId with
    | none => .error .idmefValueTypeUnknown
    | some cls => idmefValueNewEnum cls str

theorem integerRead_id {t : IntegerType} {str : List UInt8} {v : ValueType}
    (h : t.read str = .ok v) : v.id = t.id := by
  unfold IntegerType.read at h
  split at h
  · cases h
  · split_ifs at h
    cases h
    rfl

theorem idmefValueTypeRead_id {pl : Platform} {type : IdmefValueTypeId} {str : List UInt8}
    {v : ValueType} (h : idmefValueTypeRead pl type str = .ok v) : v.id = type := by
  cases type
  case unknown | enum | list | «class» => cases h
  case string | data =>
    cases h
    rfl
  case float =>
    simp only [idmefValueTypeRead] at h
    rcases hv : pl.strtof str with _ | x <;> rw [hv] at h <;> cases h
    rfl
  case double =>
    simp only [idmefValueTypeRead] at h
    rcases hv : pl.strtod str with _ | x <;> rw [hv] at h <;> cases h
    rfl
  case time =>
    simp only [idmefValueTypeRead] at h
    rcases hv : pl.readTime str with _ | x <;> rw [hv] at h <;> cases h
    rfl
  all_goals exact integerRead_id h

theorem idmefValueNewFromPath_id {pl : Platform} {path : IdmefPath} {str : List UInt8}
    {v : ValueType} (h : idmefValueNewFromPath pl path str = .ok v) :
    v.id = idmefPathGetValueType path := by
  unfold idmefValueNewFromPath at h
  split_ifs at h with henum
  · exact idmefValueTypeRead_id h
  · rw [not_not] at henum
    rw [henum]
    split at h
    · cases h
    · unfold idmefValueNewEnum at h
      split_ifs at h
      · cases h
        rfl
      · rcases hn : idmefClassEnumToNumeric ‹_› str with e | x <;> rw [hn] at h <;> cases h
        rfl

end LibPrelude
