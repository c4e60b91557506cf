import LibPrelude.General.Compare
import LibPrelude.Message.Basic
import Mathlib.Data.List.TakeWhile

/-! # Strings, times and data

The values that the leaves of an IDMEF message hold, with the functions that
compare and copy them. A comparison gives a negative number, zero or a positive
number.
-/

namespace LibPrelude

open Bytes

/-- A C comparison result with the given order. -/
def signOf : Ordering → ℤ
  | .lt => -1
  | .eq => 0
  | .gt => 1

theorem signOf_eq_zero {o : Ordering} : signOf o = 0 ↔ o = .eq := by cases o <;> decide

/-- A string object; the buffer of one that was never given a content is null. -/
structure PreludeString where
  buf : Option (List UInt8)
  deriving DecidableEq, Repr

namespace PreludeString

def index (s : PreludeString) : ℕ := (s.buf.getD []).length

/-- The bytes before the first null byte. -/
def cString (bs : List UInt8) : List UInt8 := bs.takeWhile (· ≠ 0)

theorem cString_of_not_mem {bs : List UInt8} (h : 0 ∉ bs) : cString bs = bs :=
  List.takeWhile_eq_self_iff.mpr fun b hb => by simpa using ne_of_mem_of_not_mem hb h

end PreludeString

def preludeStringNew : PreludeString := ⟨none⟩

def preludeStringIsEmpty (s : PreludeString) : Bool := s.index = 0

/-- Copying fails without source or destination. -/
def preludeStringCopyDup (src : PreludeString) : PreludeString := src

/-- The copy that the wrappers use leaves the destination as it is when the source is empty. -/
def preludeStringCopy (src dst : PreludeString) : PreludeString :=
  if ¬ preludeStringIsEmpty src then preludeStringCopyDup src else dst

def preludeStringCompare : Option PreludeString → Option PreludeString → ℤ
  | none, none => 0
  | some str1, some str2 =>
    if str1.index ≠ str2.index then -1
    else if str1.index = 0 then 0
    else if PreludeString.cString (str1.buf.getD []) = PreludeString.cString (str2.buf.getD [])
    then 0 else -1
  | _, _ => -1

structure IdmefTime where
  sec : UInt32
  usec : UInt32
  gmtOffset : Int32
  deriving DecidableEq, Repr

/-- The seconds that are compared; the sum wraps at 32 bits. -/
def IdmefTime.shifted (t : IdmefTime) : UInt32 := t.sec + t.gmtOffset.toUInt32

def idmefTimeNew : IdmefTime := ⟨0, 0, 0⟩

def idmefTimeCompare : Option IdmefTime → Option IdmefTime → ℤ
  | none, none => 0
  | some t1, some t2 =>
    if t1.shifted = t2.shifted then
      if t1.usec = t2.usec then 0 else if t1.usec < t2.usec then -1 else 1
    else if t1.shifted < t2.shifted then -1 else 1
  | _, _ => -1

/-- The types of data held in the object itself. -/
inductive ImmediateType where
  | char
  | byte
  | uint32
  | int
  | float
  deriving DecidableEq, Repr

/-- A data object: nothing, the bytes of a value held in the object itself, a block of bytes (a
character string with its null byte) or a time. -/
inductive IdmefData where
  | unknown
  | immediate (type : ImmediateType) (bytes : List UInt8)
  | charString (bytes : List UInt8)
  | byteString (bytes : List UInt8)
  | time (t : IdmefTime)
  deriving DecidableEq, Repr

namespace IdmefData

def len : IdmefData → ℕ
  | unknown => 0
  | immediate _ bytes => bytes.length
  | charString bytes => bytes.length
  | byteString bytes => bytes.length
  | time _ => 1

end IdmefData

def idmefDataNew : IdmefData := .unknown

/-- Data of different types are not equal, whatever their bytes. -/
def idmefDataCompare : Option IdmefData → Option IdmefData → ℤ
  | none, none => 0
  | some _, none => 1
  | none, some _ => -1
  | some d1, some d2 =>
    if d1.len ≠ d2.len then if d1.len > d2.len then 1 else -1
    else
      match d1, d2 with
      | .unknown, .unknown => 0
      | .time t1, .time t2 => idmefTimeCompare t1 t2
      | .charString b1, .charString b2 => signOf (memcmp b1 b2)
      | .byteString b1, .byteString b2 => signOf (memcmp b1 b2)
      | .immediate ty1 b1, .immediate ty2 b2 => if ty1 ≠ ty2 then -1 else signOf (memcmp b1 b2)
      | _, _ => -1

@[simp] theorem preludeStringCompare_self (s : Option PreludeString) :
    preludeStringCompare s s = 0 := by
  cases s <;> simp [preludeStringCompare]

@[simp] theorem idmefTimeCompare_self (t : Option IdmefTime) : idmefTimeCompare t t = 0 := by
  cases t <;> simp [idmefTimeCompare]

@[simp] theorem idmefDataCompare_self (d : Option IdmefData) : idmefDataCompare d d = 0 := by
  rcases d with _ | d
  · rfl
  · cases d <;> simp [idmefDataCompare, signOf]

/-- Copying an empty string onto one that is not leaves a difference. -/
theorem preludeStringCompare_copy (src dst : PreludeString) :
    preludeStringCompare (some src) (some (preludeStringCopy src dst)) = 0 ↔
      (preludeStringIsEmpty src → preludeStringIsEmpty dst) := by
  unfold preludeStringCopy
  by_cases h : preludeStringIsEmpty src
  · rw [if_neg (by simpa using h)]
    have hs : src.index = 0 := by simpa [preludeStringIsEmpty] using h
    by_cases hd : dst.index = 0
    · simp [preludeStringCompare, preludeStringIsEmpty, hs, hd]
    · simp [preludeStringCompare, preludeStringIsEmpty, hs, hd, Ne.symm hd]
  · rw [if_pos (by simpa using h)]
    simp [preludeStringCopyDup, h]

end LibPrelude
