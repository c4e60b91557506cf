import LibPrelude.Idmef.DataText
import LibPrelude.Idmef.PathStore

/-! # Values as text

A value is appended to a string as its type demands, and an object with all that it
holds. Only an enumeration value that has no name and a listed string without a content
cannot be written. What the machine does with floats is a parameter.
-/

namespace LibPrelude

open Bytes

/-- What the machine does with floats, which are given by their bits: the conversions, the integer
of a type that a number equals, whether two numbers are close, and what `%f` prints. -/
structure Floats where
  widen : UInt32 → UInt64
  narrow : UInt64 → UInt32
  floatOf : ℤ → UInt32
  doubleOf : ℤ → UInt64
  integer : IntegerType → UInt64 → Option ℤ
  tolerated : UInt64 → UInt64 → Bool
  print : UInt64 → List UInt8

def PreludeString.cat (out : PreludeString) (text : List UInt8) : PreludeString :=
  ⟨some (out.buf.getD [] ++ text)⟩

/-- The integer that the eight bytes of a data object are; behind a shorter value they are zeros. -/
def intData (order : ByteOrder) (bytes : List UInt8) : ℤ :=
  let bytes := (bytes ++ List.replicate 8 0).take 8
  match order with
  | .little => Int.bmod (ofLe bytes) (2 ^ 64)
  | .big => Int.bmod (ofBe bytes) (2 ^ 64)

def floatData (order : ByteOrder) (bytes : List UInt8) : UInt32 :=
  match order with
  | .little => .ofNat (ofLe bytes)
  | .big => .ofNat (ofBe bytes)

section

variable (order : ByteOrder) (fl : Floats)

def idmefDataToString : IdmefData → PreludeString → Except ErrorCode PreludeString
  | .unknown, out => .ok out
  | .immediate .char bytes, out => .ok (out.cat bytes)
  | .immediate .byte bytes, out => .ok (out.cat (printUnsigned 1 (ofBe bytes)))
  | .immediate .uint32 bytes, out => .ok (out.cat (printInt false 1 (intData order bytes)))
  | .immediate .int bytes, out => .ok (out.cat (printInt false 1 (intData order bytes)))
  | .immediate .float bytes, out =>
    .ok (out.cat (fl.print (fl.widen (floatData order bytes))))
  | .charString bytes, out => .ok (if bytes = [] then out else out.cat bytes.dropLast)
  | .byteString bytes, out =>
    match bytesToString plainNcat bytes bytes.length (out.buf.getD []) with
    | .ok text => .ok (if bytes = [] then out else ⟨some text⟩)
    | .error (.code e) => .error e
    | .error .outside => .error .generic
  | .time t, out => .ok (out.cat (idmefTimeToString t))

/-- The text of a value that is not an object of a class. -/
def leafWrite : ValueType → PreludeString → Except ErrorCode PreludeString
  | .integer _ v, out => .ok (out.cat (printInt false 1 v))
  | .float bits, out => .ok (out.cat (fl.print (fl.widen bits)))
  | .double bits, out => .ok (out.cat (fl.print bits))
  | .string s, out => .ok (out.cat ((s.buf.map PreludeString.cString).getD (ascii "<empty>")))
  | .time t, out => .ok (out.cat (idmefTimeToString t))
  | .data d, out => idmefDataToString order fl d out
  | .enum value cls, out =>
    match idmefClassEnumToString cls value with
    | none => .error .idmefValueTypeParse
    | some name => .ok (out.cat name)
  | .class _ _, _ => .error .idmefValueTypeWriteUnavailable

/-- The name of a class with a capital. -/
def capitalName (cls : IdmefClassId) : List UInt8 :=
  match ascii (idmefClassGetName (.inl cls)) with
  | [] => []
  | b :: bs => (if 97 ≤ b ∧ b ≤ 122 then b - 32 else b) :: bs

mutual

/-- The text of an object, or of a string in a list. -/
def classToString : Obj → PreludeString → Except ErrorCode PreludeString
  | .prim _ p, out =>
    match p with
    | .string ⟨some buf⟩ => .ok (out.cat (PreludeString.cString buf))
    | _ => .error .assertion
  | .struct cls _ fs, out =>
    (fieldsToString cls.fields fs (out.cat (ascii "<IDMEF" ++ capitalName cls))).map
      fun out => out.cat (ascii ">")

def fieldsToString : List FieldDesc → List Field → PreludeString → Except ErrorCode PreludeString
  | d :: ds, f :: fs, out =>
    match fieldToString d f out with
    | .ok out => fieldsToString ds fs out
    | .error e => .error e
  | _, _, out => .ok out

def fieldToString (d : FieldDesc) : Field → PreludeString → Except ErrorCode PreludeString
  | .scalar isSet val, out =>
    match getChildCase ⟨0, d.type, none⟩ (.scalar isSet val) with
    | .value v => leafWrite order fl v (out.cat (ascii (" " ++ d.name ++ ":")))
    | _ => .ok out
  | .ptr none, out => .ok out
  | .ptr (some o), out =>
    match o with
    | .prim _ p => leafWrite order fl p.value (out.cat (ascii (" " ++ d.name ++ ":")))
    | .struct cls rc fs => classToString (.struct cls rc fs) (out.cat (ascii " "))
  | .list l, out =>
    let head := match d.type with
      | .primList _ => " " ++ d.name ++ ":("
      | _ => " ("
    if l.isEmpty then .ok out
    else (listToString true l (out.cat (ascii head))).map fun out => out.cat (ascii ")")
  | .union _ none, out => .ok out
  | .union _ (some o), out => classToString o (out.cat (ascii " "))

def listToString (first : Bool) : List Obj → PreludeString → Except ErrorCode PreludeString
  | [], out => .ok out
  | o :: os, out =>
    match classToString o (if first then out else out.cat (ascii ", ")) with
    | .ok out => listToString false os out
    | .error e => .error e

end

def idmefValueTypeWrite : ValueType → PreludeString → Except ErrorCode PreludeString
  | .class _ o, out => classToString order fl o out
  | v, out => leafWrite order fl v out

end

variable {order : ByteOrder} {fl : Floats}

/-- A data object can always be written. -/
theorem idmefDataToString_ok (d : IdmefData) (out : PreludeString) :
    ∃ out', idmefDataToString order fl d out = .ok out' := by
  rcases d with _ | ⟨_ | _ | _ | _ | _, bytes⟩ | bytes | bytes | t
  case byteString =>
    have h : plainNcat.Appended (out.buf.getD []) (Base64.encode bytes)
        (bytesToString plainNcat bytes bytes.length (out.buf.getD [])) :=
      appended_bytesToStringFrom plainNcat bytes.length bytes _ le_rfl
    rw [idmefDataToString]
    rcases hr : bytesToString plainNcat bytes bytes.length (out.buf.getD []) with (_ | e) | text <;>
      rw [hr] at h
    · exact h.elim
    · obtain ⟨out₁, text, he⟩ := h
      cases he
    · exact ⟨_, rfl⟩
  all_goals exact ⟨_, rfl⟩

end LibPrelude
