import LibPrelude.Idmef.MessageWrite
import LibPrelude.Idmef.PathSet
import LibPrelude.Message.Get
import LibPrelude.Options.Wide

/-! # Reading an IDMEF message

The chunks of a message are read into an object until the one that ends it. A chunk with the
tag of a class starts an object within it, which is read in turn. The functions generated for
the classes are one function here; the fuel is what their nesting and their loops consume.
-/

namespace LibPrelude

open Bytes

namespace IdmefMessage

section Extract

def extractSafe (size : ℕ) (e : ErrorCode) (buf : List UInt8) : Except ErrorCode ℤ :=
  if buf.length ≠ size then .error e else .ok (ofBe buf)

def extractUint8Safe : List UInt8 → Except ErrorCode ℤ := extractSafe 1 .invalInt8
def extractUint16Safe : List UInt8 → Except ErrorCode ℤ := extractSafe 2 .invalInt16
def extractUint32Safe : List UInt8 → Except ErrorCode ℤ := extractSafe 4 .invalInt32
def extractUint64Safe : List UInt8 → Except ErrorCode ℤ := extractSafe 8 .invalInt64

def extractFloatSafe : List UInt8 → Except ErrorCode ℤ := extractSafe 4 .invalFloat

def extractInt32Safe (buf : List UInt8) : Except ErrorCode ℤ :=
  (extractSafe 4 .invalInt32 buf).map fun n => Int.bmod n (2 ^ 32)

/-- The string refers to the buffer, whose last byte ends it. -/
def extractStringSafe (buf : List UInt8) : Except ErrorCode PreludeString :=
  if buf.length = 0 then .error .invalLength
  else if buf.getLast? ≠ some 0 then .error .stringNotNulTerminated
  else .ok ⟨some buf.dropLast⟩

def extractTimeSafe (buf : List UInt8) : Except ErrorCode IdmefTime :=
  if buf.length ≠ 12 then .error .invalIdmefTime
  else .ok ⟨extractUint32 buf 0, extractUint32 buf 4, (extractUint32 buf 8).toInt32⟩

/-- The value of a data object, given its type; one of an unknown type is none at all. -/
def extractDataValue (order : ByteOrder) (type : ℤ) (buf : List UInt8) :
    Except ErrorCode (Option IdmefData) :=
  if type = DataType.char.number then
    (extractUint8Safe buf).map fun tmp => some (.immediate .char (represent order 1 tmp))
  else if type = DataType.byte.number then
    (extractUint8Safe buf).map fun tmp => some (.immediate .byte (represent order 1 tmp))
  else if type = DataType.uint32.number then
    (extractUint32Safe buf).map fun tmp => some (.immediate .int (represent order 8 tmp))
  else if type = DataType.int.number then
    (extractUint64Safe buf).map fun tmp => some (.immediate .int (represent order 8 tmp))
  else if type = DataType.float.number then
    (extractFloatSafe buf).map fun tmp => some (.immediate .float (represent order 4 tmp))
  else if type = DataType.byteString.number then .ok (some (.byteString buf))
  else if type = DataType.charString.number then
    (extractCharactersSafe buf).map fun _ => some (.charString buf)
  else if type = DataType.time.number then
    (extractTimeSafe buf).map fun tmp => some (.time tmp)
  else .ok none

/-- Data take two chunks, the first one with their type. -/
def extractDataSafe (order : ByteOrder) (m : Msg) (out : Chunk) (buf : List UInt8) :
    Option (Except ErrorCode (Option IdmefData) × Msg) :=
  match extractUint32Safe buf with
  | .error e => some (.error e, m)
  | .ok type => do
    match ← preludeMsgGet m out with
    | (.error e, m, _) => some (.error e, m)
    | (.ok (), m, out) => some (extractDataValue order type (← out.bytes m), m)

end Extract

section Read

variable (order : ByteOrder) (now : IdmefTime)

/-- The output parameters of a get before the first one. -/
def unsetChunk : Chunk := ⟨0, 0, none⟩

/-- Keep a field when its value cannot be extracted. -/
def assign (f : Field) {α : Type} (value : Except ErrorCode α) (set : α → Field) : Ret × Field :=
  match value with
  | .error e => (.error e, f)
  | .ok tmp => (.ok (), set tmp)

def extractIntegerSafe (type : IdmefValueTypeId) (buf : List UInt8) : Except ErrorCode ℤ :=
  match type with
  | .uint8 => extractUint8Safe buf
  | .uint16 => extractUint16Safe buf
  | .int32 => extractInt32Safe buf
  | .uint32 => extractUint32Safe buf
  | .uint64 => extractUint64Safe buf
  | _ => .error .assertion

/-- A field that takes the value of one chunk. -/
def readScalar (type : FieldType) (buf : List UInt8) (f : Field) : Ret × Field :=
  match type, f with
  | .optionalInt t, _ => assign f (extractIntegerSafe t buf) fun tmp => .scalar true tmp
  | .optionalEnum _, _ => assign f (extractInt32Safe buf) fun tmp => .scalar true tmp
  | .enum _, .scalar isSet _ => assign f (extractInt32Safe buf) fun tmp => .scalar isSet tmp
  | .float, .scalar isSet _ => assign f (extractFloatSafe buf) fun tmp => .scalar isSet tmp
  | _, f => (.error .assertion, f)

/-- A new primitive object from a chunk, or from two for data. -/
def extractPrim (type : PrimType) (m : Msg) (out : Chunk) (buf : List UInt8) :
    Option (Except ErrorCode (Option Obj) × Msg) :=
  match type with
  | .string => some ((extractStringSafe buf).map fun tmp => some (.prim 1 (.string tmp)), m)
  | .time => some ((extractTimeSafe buf).map fun tmp => some (.prim 1 (.time tmp)), m)
  | .data => (extractDataSafe order m out buf).map fun r =>
    (r.1.map fun tmp => tmp.map fun d => .prim 1 (.data d), r.2)

/-- The object that is read when the tag of its class was met, and where it is put. -/
def newStruct (tag : UInt8) (type : FieldType) (f : Field) : Option (Obj × (Obj → Field)) :=
  match type, f with
  | .struct cls _, .ptr o => some (o.getD (idmefNew now cls), fun o => .ptr (some o))
  | .structList cls _, .list l => some (idmefNew now cls, fun o => .list (l ++ [o]))
  | .union members, .union var o =>
    (members.find? fun m => m.cls.tag = some tag).map fun m =>
      (if m.value = var then o.getD (idmefNew now m.cls) else idmefNew now m.cls,
        fun o => .union m.value (some o))
  | _, _ => none

/-- What a class reads of a message. -/
abbrev Reader := IdmefClassId → Msg → Chunk → List Field → Option (Ret × Msg × List Field)

/-- Read the fields of an object. -/
def Reader.inObject (read : Reader) (m : Msg) : Obj → Option (Ret × Msg × Obj)
  | .struct cls rc fs =>
    (read cls m unsetChunk fs).map fun r => (r.1, r.2.1, .struct cls rc r.2.2)
  | .prim _ _ => none

/-- The case of one field. -/
def readField (read : Reader) (type : FieldType) (m : Msg) (out : Chunk) (f : Field) :
    Option (Ret × Msg × Field) :=
  match type with
  | .struct _ _ | .structList _ _ | .union _ => do
    let (o, put) ← newStruct now out.tag type f
    let (ret, m, o) ← read.inObject m o
    some (ret, m, put o)
  | .prim t _ => do
    let (tmp, m) ← extractPrim order t m out (← out.bytes m)
    let (ret, f) := assign f tmp .ptr
    some (ret, m, f)
  | .primList t => do
    let (tmp, m) ← extractPrim order t m out (← out.bytes m)
    let (ret, f) := assign f tmp fun o => match f with
      | .list l => .list (l ++ o.toList)
      | f => f
    some (ret, m, f)
  | type => do
    let (ret, f) := readScalar type (← out.bytes m) f
    some (ret, m, f)

/-- Read the fields of an object of a class up to the chunk that ends it. -/
def idmefRead : ℕ → Reader
  | 0, _, _, _, _ => none
  | fuel + 1, cls, m, out, fs => do
    match ← preludeMsgGet m out with
    | (.error e, m, _) => some (.error e, m, fs)
    | (.ok (), m, out) =>
      if out.tag = idmefMsgEndOfTag then some (.ok (), m, fs)
      else
        match cls.fieldOf out.tag with
        | none => some (.error .idmefUnknownTag, m, fs)
        | some i => do
          let d ← cls.fields[i]?
          let f ← fs[i]?
          let (ret, m, f) ← readField order now (idmefRead fuel) d.type m out f
          match ret with
          | .error e => some (.error e, m, fs.set i f)
          | .ok () => idmefRead fuel cls m out (fs.set i f)

def idmefMessageRead (fuel : ℕ) (message : Obj) (m : Msg) : Option (Ret × Msg × Obj) :=
  Reader.inObject (idmefRead order now fuel) m message

end Read

end IdmefMessage

end LibPrelude
