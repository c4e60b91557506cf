import LibPrelude.Idmef.AdditionalData
import LibPrelude.Idmef.MessageId
import LibPrelude.Idmef.ValueType
import LibPrelude.Message.Framing

/-! # Writing an IDMEF message

An object is written into a message buffer as chunks: one with the tag of its class, those
of its fields, and one that ends it. Integers are in network byte order and a string takes
its null byte with it. The functions generated for the classes are one function here, with
the fields of the class as a parameter.
-/

namespace LibPrelude

open Bytes

def preludeMsgPriorityLow : UInt8 := 1
def preludeMsgPriorityMid : UInt8 := 2
def preludeMsgPriorityHigh : UInt8 := 3

def idmefImpactSeverityToMsgPriority (severity : ℤ) : UInt8 :=
  let priority := [preludeMsgPriorityNone, preludeMsgPriorityLow, preludeMsgPriorityLow,
    preludeMsgPriorityMid, preludeMsgPriorityHigh]
  if severity < 0 ∨ severity.toNat ≥ priority.length then preludeMsgPriorityNone
  else priority.getD severity.toNat preludeMsgPriorityNone

def DataType.number : DataType → ℕ
  | unknown => 0
  | char => 1
  | byte => 2
  | uint32 => 3
  | int => 4
  | float => 5
  | charString => 6
  | byteString => 7
  | time => 8

def ImmediateType.dataType : ImmediateType → DataType
  | char => .char
  | byte => .byte
  | uint32 => .uint32
  | int => .int
  | float => .float

def IdmefData.type : IdmefData → DataType
  | unknown => .unknown
  | immediate type _ => type.dataType
  | charString _ => .charString
  | byteString _ => .byteString
  | time _ => .time

/-- The number that bytes are in memory. -/
def hostNumber (order : ByteOrder) (bytes : List UInt8) : ℕ :=
  match order with
  | .little => ofLe bytes
  | .big => ofBe bytes

namespace IdmefMessage

section Write

variable {σ : Type} (sendMsg : Msg → σ → Option (Ret × Msg × σ)) (async : Bool)
  (order : ByteOrder)

abbrev Writer (σ : Type) := Msg → σ → Option (Ret × Msg × σ)

/-- Two parts one after the other; an error of the first one is returned. -/
def Writer.next (w w' : Writer σ) : Writer σ := fun m s => do
  match ← w m s with
  | (.ok (), m, s) => w' m s
  | (.error e, m, s) => some (.error e, m, s)

/-- A part whose error is lost. -/
def Writer.unchecked (w : Writer σ) : Writer σ := fun m s =>
  (w m s).map fun r => (.ok (), r.2.1, r.2.2)

def nothing : Writer σ := fun m s => some (.ok (), m, s)

def setPriority (priority : UInt8) : Writer σ := fun m s =>
  some (.ok (), preludeMsgSetPriority m priority, s)

def msgbufSet (tag : UInt8) (data : List UInt8) : Writer σ := fun m s =>
  preludeMsgbufSet sendMsg async m tag data s

def preludeStringWrite (string : Option PreludeString) (tag : UInt8) : Writer σ :=
  match string with
  | none => nothing
  | some s =>
    if preludeStringIsEmpty s then nothing
    else msgbufSet sendMsg async tag (s.buf.getD [] ++ [0])

def integerWrite (size : ℕ) (data : ℤ) (tag : UInt8) : Writer σ :=
  msgbufSet sendMsg async tag (represent .big size data)

def uint64Write (data : ℤ) (tag : UInt8) : Writer σ := integerWrite sendMsg async 8 data tag
def uint32Write (data : ℤ) (tag : UInt8) : Writer σ := integerWrite sendMsg async 4 data tag
def int32Write (data : ℤ) (tag : UInt8) : Writer σ := uint32Write sendMsg async data tag
def uint8Write (data : ℤ) (tag : UInt8) : Writer σ := integerWrite sendMsg async 1 data tag
def uint16Write (data : ℤ) (tag : UInt8) : Writer σ := integerWrite sendMsg async 2 data tag

def floatWrite (data : ℤ) (tag : UInt8) : Writer σ := integerWrite sendMsg async 4 data tag

def timeBytes (t : IdmefTime) : List UInt8 :=
  beBytes 4 t.sec.toNat ++ beBytes 4 t.usec.toNat ++ beBytes 4 t.gmtOffset.toUInt32.toNat

def idmefTimeWrite (data : Option IdmefTime) (tag : UInt8) : Writer σ :=
  match data with
  | none => nothing
  | some t => msgbufSet sendMsg async tag (timeBytes t)

def idmefDataWrite (data : Option IdmefData) (tag : UInt8) : Writer σ :=
  match data with
  | none => nothing
  | some .unknown => nothing
  | some d =>
    (uint32Write sendMsg async d.type.number tag).next
      (match d with
        | .immediate .char bytes => uint8Write sendMsg async ((bytes.headD 0).toNat : ℤ) tag
        | .immediate .byte bytes => uint8Write sendMsg async ((bytes.headD 0).toNat : ℤ) tag
        | .immediate .uint32 bytes => uint32Write sendMsg async (hostNumber order bytes) tag
        | .immediate .int bytes => uint64Write sendMsg async (hostNumber order bytes) tag
        | .immediate .float bytes => floatWrite sendMsg async (hostNumber order bytes) tag
        | .charString bytes => msgbufSet sendMsg async tag bytes
        | .byteString bytes => msgbufSet sendMsg async tag bytes
        | .time t => idmefTimeWrite sendMsg async (some t) tag
        | .unknown => nothing)

def primWrite (p : Prim) (tag : UInt8) : Writer σ :=
  match p with
  | .string s => preludeStringWrite sendMsg async (some s) tag
  | .time t => idmefTimeWrite sendMsg async (some t) tag
  | .data d => idmefDataWrite sendMsg async order (some d) tag

/-- A number, a float or an enumeration value; an optional one is written when it is set. -/
def scalarWrite (type : FieldType) (isSet : Bool) (val : ℤ) (tag : UInt8) : Writer σ :=
  match type with
  | .optionalInt .uint8 => if isSet then uint8Write sendMsg async val tag else nothing
  | .optionalInt .uint16 => if isSet then uint16Write sendMsg async val tag else nothing
  | .optionalInt .int32 => if isSet then int32Write sendMsg async val tag else nothing
  | .optionalInt .uint32 => if isSet then uint32Write sendMsg async val tag else nothing
  | .optionalInt .uint64 => if isSet then uint64Write sendMsg async val tag else nothing
  | .optionalEnum .impactSeverity =>
    if isSet then
      (uint32Write sendMsg async val tag).next (setPriority (idmefImpactSeverityToMsgPriority val))
    else nothing
  | .optionalEnum _ => if isSet then uint32Write sendMsg async val tag else nothing
  | .enum _ => uint32Write sendMsg async val tag
  | .float => floatWrite sendMsg async val tag
  | _ => nothing

mutual

/-- Write an object: the fields of one of a class, and one that is no such object under a tag. -/
def idmefWrite (id : Option UInt8) : Obj → Writer σ
  | .prim _ p => id.elim nothing fun tag => primWrite sendMsg async order p tag
  | .struct cls _ fs =>
    (if cls = .heartbeat then setPriority preludeMsgPriorityHigh else nothing).next
      ((cls.tag.elim nothing fun tag => msgbufSet sendMsg async tag []).next
        ((writeFields cls.wireFields fs).next (msgbufSet sendMsg async idmefMsgEndOfTag [])))

def writeFields : List WireField → List Field → Writer σ
  | d :: ds, f :: fs => (writeField d f).next (writeFields ds fs)
  | _, _ => nothing

/-- The error of a member of a union is not looked at. -/
def writeField (d : WireField) : Field → Writer σ
  | .scalar isSet val =>
    d.2.elim nothing fun tag => scalarWrite sendMsg async d.1.type isSet val tag
  | .ptr none => nothing
  | .ptr (some o) => idmefWrite d.2 o
  | .list l => writeList d.2 l
  | .union _ none => nothing
  | .union var (some o) =>
    match d.1.type with
    | .union members =>
      if members.any fun m => m.value = var then (idmefWrite d.2 o).unchecked else nothing
    | _ => nothing

def writeList (id : Option UInt8) : List Obj → Writer σ
  | [] => nothing
  | o :: os => (idmefWrite id o).next (writeList id os)

end

/-- The function `idmef_message_write`. -/
def idmefMessageWrite (message : Obj) : Writer σ := idmefWrite sendMsg async order none message

end Write

/-- A message is written and its end is marked, as a client sends it. -/
def sendIdmef (async : Bool) (order : ByteOrder) (message : Obj) (m : Msg) (l : Link) :
    Option (Msg × Link) := do
  let (_, m, l) ← idmefMessageWrite Link.sendMsg async order message m l
  preludeMsgbufMarkEnd Link.sendMsg Link.gettimeofday async m l

end IdmefMessage

end LibPrelude
