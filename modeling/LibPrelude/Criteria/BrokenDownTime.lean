import LibPrelude.Idmef.ValueType

/-! # Broken-down times

A criterion on a time names some fields of a broken-down time, the others being -1.
A time matches when the named fields are in the relation; the day of the week and
the day of the year are compared on their own, the rest as one time.
-/

namespace LibPrelude

structure Tm where
  sec : ℤ
  min : ℤ
  hour : ℤ
  mday : ℤ
  mon : ℤ
  year : ℤ
  wday : ℤ
  yday : ℤ
  deriving DecidableEq, Repr

namespace Calendar

def leap (year : ℤ) : Bool := year % 4 = 0 ∧ (year % 100 ≠ 0 ∨ year % 400 = 0)

/-- The days from the beginning of 1970 to the beginning of a year. -/
def daysBeforeYear (year : ℤ) : ℤ :=
  365 * (year - 1970) + (year - 1969) / 4 - (year - 1901) / 100 + (year - 1601) / 400

def monthDays (year : ℤ) : List ℤ :=
  [31, if leap year then 29 else 28, 31, 30, 31, 30, 31, 31, 30, 31, 30, 31]

/-- The last of the years counted from one on, at most so many, that has begun on a day. -/
def yearOf (day year : ℤ) : ℕ → ℤ
  | 0 => year
  | n + 1 => if daysBeforeYear (year + 1) ≤ day then yearOf day (year + 1) n else year

/-- The month and the day in it, counted from zero, of a day in a year. -/
def monthOf : ℤ → ℤ → List ℤ → ℤ × ℤ
  | day, month, [] => (month, day)
  | day, month, d :: ds => if day < d then (month, day) else monthOf (day - d) (month + 1) ds

end Calendar

open Calendar

/-- The broken-down time in Greenwich of a number of seconds. -/
def gmtime (sec : UInt32) : Tm :=
  let s : ℤ := sec.toNat
  let day := s / 86400
  let rem := s % 86400
  let year := yearOf day 1970 (sec.toNat / 31536000)
  let yday := day - daysBeforeYear year
  let (mon, mday) := monthOf yday 0 (monthDays year)
  { sec := rem % 60, min := rem / 60 % 60, hour := rem / 3600, mday := mday + 1, mon := mon,
    year := year - 1900, wday := (day + 4) % 7, yday := yday }

/-- The number of seconds; fields out of range count on into the others. -/
def timegm (tm : Tm) : ℤ :=
  let year := tm.year + 1900 + tm.mon / 12
  let days := daysBeforeYear year + ((monthDays year).take (tm.mon % 12).toNat).sum + (tm.mday - 1)
  ((days * 24 + tm.hour) * 60 + tm.min) * 60 + tm.sec

def integerCompare (matched wanted : ℤ) (op : Operator) : ℤ :=
  if op.equal ∧ matched = wanted then 1
  else if op.lesser ∧ matched < wanted then 1
  else if op.greater ∧ matched > wanted then 1
  else 0

/-- Whether a field that is part of a full comparison is named. -/
def needFullCompare (comp : Tm) : Bool :=
  0 ≤ comp.sec ∨ 0 ≤ comp.min ∨ 0 ≤ comp.mon ∨ 0 ≤ comp.hour ∨ 0 ≤ comp.mday ∨ 0 ≤ comp.year

/-- The time with the fields that are not named set to -1. -/
def applyMask (comp lt : Tm) : Tm where
  sec := if comp.sec < 0 then -1 else lt.sec
  min := if comp.min < 0 then -1 else lt.min
  hour := if comp.hour < 0 then -1 else lt.hour
  mday := if comp.mday < 0 then -1 else lt.mday
  mon := if comp.mon < 0 then -1 else lt.mon
  year := if comp.year < 0 then -1 else lt.year
  wday := if comp.wday < 0 then -1 else lt.wday
  yday := if comp.yday < 0 then -1 else lt.yday

def doBtimeMatch (comp : Tm) (op : Operator) : Option ValueType → ℤ
  | some (.time t) =>
    let lt := applyMask comp (gmtime t.sec)
    let full := needFullCompare comp
    let dayOp := if full then { op with equal := true } else op
    if 0 ≤ comp.wday ∧ integerCompare lt.wday comp.wday dayOp ≠ 1 then 0
    else if 0 ≤ comp.yday ∧ integerCompare lt.yday comp.yday dayOp ≠ 1 then 0
    else if ¬ full then 1
    else integerCompare (timegm lt) (timegm comp) op
  | _ => -1

def btimeMatch (comp : Tm) (op : Operator) (value : Option ValueType) : Except ErrorCode ℤ :=
  let ret := doBtimeMatch comp op value
  if ret < 0 then .error .generic
  else if op.not then .ok (if ret = 1 then 0 else 1)
  else .ok (if ret = 1 then 1 else 0)

def isDigit (b : UInt8) : Bool := 48 ≤ b ∧ b ≤ 57

def isSpace (b : UInt8) : Bool := b = 32 ∨ 9 ≤ b ∧ b ≤ 13

theorem isDigit_iff {b : UInt8} : isDigit b = true ↔ 48 ≤ b.toNat ∧ b.toNat ≤ 57 := by
  rw [isDigit, decide_eq_true_eq, UInt8.le_iff_toNat_le, UInt8.le_iff_toNat_le]
  rfl

theorem not_isSpace_of_isDigit {b : UInt8} (h : isDigit b = true) : isSpace b = false := by
  have hb := isDigit_iff.mp h
  have h32 : (32 : UInt8).toNat = 32 := rfl
  have h13 : (13 : UInt8).toNat = 13 := rfl
  rw [isSpace, decide_eq_false_iff_not, UInt8.le_iff_toNat_le, UInt8.le_iff_toNat_le,
    ← UInt8.toNat_inj]
  omega

theorem takeWhile_digits {ds rest : List UInt8} (hds : ∀ b ∈ ds, isDigit b = true)
    (hrest : ∀ b ∈ rest.head?, isDigit b = false) : (ds ++ rest).takeWhile isDigit = ds := by
  rw [List.takeWhile_append_of_pos hds]
  cases rest with
  | nil => exact List.append_nil _
  | cons b rest =>
    rw [List.takeWhile_cons_of_neg (by simp [hrest b rfl]), List.append_nil]

def digitsValue (bs : List UInt8) : ℕ := bs.foldl (fun n b => 10 * n + (b.toNat - 48)) 0

/-- The number that a string begins with, in 32 bits. -/
def atoi (str : List UInt8) : ℤ :=
  let number (sign : ℤ) (bs : List UInt8) : ℤ :=
    Int.bmod (sign * digitsValue (bs.takeWhile isDigit)) (2 ^ 32)
  match str.dropWhile isSpace with
  | 45 :: bs => number (-1) bs
  | 43 :: bs => number 1 bs
  | bs => number 1 bs

def months : List String :=
  ["january", "february", "march", "april", "may", "june", "july", "august", "september",
    "october", "november", "december"]

def days : List String :=
  ["sunday", "monday", "tuesday", "wednesday", "thursday", "friday", "saturday"]

/-- A number counted from one or a name. -/
def parseNamed (names : List String) (value : List UInt8) : Option ℤ :=
  if (value.head?.map isDigit).getD false then some (atoi value - 1)
  else (names.findIdx? fun name => strcasecmp value (ascii name)).map fun i => (i : ℤ)

inductive BtimeField where
  | month
  | wday
  | year
  | mday
  | yday
  | hour
  | min
  | sec
  | gmtoff
  deriving DecidableEq

namespace BtimeField

def name : BtimeField → String
  | month => "month"
  | wday => "wday"
  | year => "year"
  | mday => "mday"
  | yday => "yday"
  | hour => "hour"
  | min => "min"
  | sec => "sec"
  | gmtoff => "gmtoff"

def all : List BtimeField := [month, wday, year, mday, yday, hour, min, sec, gmtoff]

end BtimeField

/-- An integer of 32 bits written at the address of one of 64 bits. -/
def writeInt (order : ByteOrder) (old new : ℤ) : ℤ :=
  match order with
  | .little => Int.bmod (old - old % 2 ^ 32 + new % 2 ^ 32) (2 ^ 64)
  | .big => Int.bmod (new * 2 ^ 32 + old % 2 ^ 32) (2 ^ 64)

def BtimeField.parse (order : ByteOrder) (value : List UInt8) (lt : Tm) (gmtOffset : ℤ) :
    BtimeField → Option (Tm × ℤ)
  | month => (parseNamed months value).map fun v => ({ lt with mon := v }, gmtOffset)
  | wday => (parseNamed days value).map fun v => ({ lt with wday := v }, gmtOffset)
  | year => some ({ lt with year := atoi value - 1900 }, gmtOffset)
  | mday => some ({ lt with mday := atoi value }, gmtOffset)
  | yday => some ({ lt with yday := atoi value }, gmtOffset)
  | hour => some ({ lt with hour := atoi value }, gmtOffset)
  | min => some ({ lt with min := atoi value }, gmtOffset)
  | sec => some ({ lt with sec := atoi value }, gmtOffset)
  | gmtoff => some (lt, writeInt order gmtOffset (Int.bmod (atoi value * 60 * 60) (2 ^ 32)))

/-- The field that a text begins with and the text behind the colon. -/
def findBtimeField (time : List UInt8) : Option (BtimeField × List UInt8) :=
  BtimeField.all.findSome? fun f =>
    let start := ascii f.name ++ [58]
    if start.isPrefixOf time then some (f, time.drop start.length) else none

/-- Parse fields until the end of the text; the fuel is its length. -/
def btimeParseFields (order : ByteOrder) : ℕ → List UInt8 → Tm → ℤ → Option (Tm × ℤ)
  | 0, _, _, _ => none
  | fuel + 1, time, lt, gmtOffset =>
    match findBtimeField time with
    | none => none
    | some (f, time) =>
      match f.parse order (time.takeWhile (· ≠ 32)) lt gmtOffset with
      | none => none
      | some (lt, gmtOffset) =>
        match time.dropWhile (· ≠ 32) with
        | [] => some (lt, gmtOffset)
        | _ :: rest => btimeParseFields order fuel (rest.dropWhile (· = 32)) lt gmtOffset

/-- The fields named in a text; the offset from Greenwich, in seconds, counts for the hour. -/
def btimeParse (order : ByteOrder) (gmtOffset : ℤ) (time : List UInt8) : Option Tm :=
  match btimeParseFields order (time.length + 1) time
    ⟨-1, -1, -1, -1, -1, -1, -1, -1⟩ gmtOffset with
  | none => none
  | some (lt, gmtOffset) =>
    some (if lt.hour ≠ -1 then
      { lt with hour := Int.bmod (lt.hour - Int.tdiv gmtOffset (60 * 60)) (2 ^ 32) } else lt)

end LibPrelude
