import LibPrelude.Idmef.Object
import LibPrelude.Idmef.Operator

/-! # Typed values

A value of one of the types of IDMEF, and the comparison of two of them that
criteria rest on. Integers are compared by the bytes they occupy in memory, so the
byte order of the machine is a parameter; so are the functions of the C library
that match patterns.
-/

namespace LibPrelude

open Bytes

inductive ByteOrder where
  | little
  | big
  deriving DecidableEq

/-- The integer types. -/
inductive IntegerType where
  | int8
  | uint8
  | int16
  | uint16
  | int32
  | uint32
  | int64
  | uint64
  deriving DecidableEq

namespace IntegerType

def id : IntegerType → IdmefValueTypeId
  | int8 => .int8
  | uint8 => .uint8
  | int16 => .int16
  | uint16 => .uint16
  | int32 => .int32
  | uint32 => .uint32
  | int64 => .int64
  | uint64 => .uint64

def size : IntegerType → ℕ
  | int8 | uint8 => 1
  | int16 | uint16 => 2
  | int32 | uint32 => 4
  | int64 | uint64 => 8

def signed : IntegerType → Bool
  | int8 | int16 | int32 | int64 => true
  | _ => false

def InRange (t : IntegerType) (v : ℤ) : Prop :=
  if t.signed then -(256 ^ t.size / 2) ≤ v ∧ v < 256 ^ t.size / 2 else 0 ≤ v ∧ v < 256 ^ t.size

end IntegerType

/-- A typed value; its data, when it is an object, are never null. -/
inductive ValueType where
  | integer (type : IntegerType) (v : ℤ)
  | float (bits : UInt32)
  | double (bits : UInt64)
  | string (s : PreludeString)
  | time (t : IdmefTime)
  | data (d : IdmefData)
  | enum (value : ℤ) (cls : IdmefEnumId)
  | class (cls : IdmefClassId) (o : Obj)

def ValueType.id : ValueType → IdmefValueTypeId
  | integer t _ => t.id
  | float _ => .float
  | double _ => .double
  | string _ => .string
  | time _ => .time
  | data _ => .data
  | enum _ _ => .enum
  | «class» _ _ => .class

/-- What memory holds besides the values: the bytes of a union behind those of its value, or of the
address of its object, and what a string is read as in place of another object. -/
structure Overlay where
  rest : ValueType → ℕ → UInt8
  time : PreludeString → IdmefTime
  data : PreludeString → IdmefData
  object : PreludeString → Obj

/-- A memory of zeros. -/
def plainOverlay : Overlay where
  rest := fun _ _ => 0
  time := fun _ => idmefTimeNew
  data := fun _ => idmefDataNew
  object := fun _ => .prim 0 (.string preludeStringNew)

/-- The machine and its C library: the byte order, the matching of a shell pattern (with or without
regard to case), the first byte of a time object, and the memory around the values. -/
structure Machine where
  order : ByteOrder
  fnmatch : Bool → List UInt8 → List UInt8 → Bool
  timeByte : IdmefTime → UInt8
  overlay : Overlay

def IdmefEnumId.number : IdmefEnumId → ℕ
  | additionalDataType => 3
  | referenceOrigin => 5
  | userIdType => 7
  | userCategory => 9
  | addressCategory => 11
  | nodeCategory => 18
  | sourceSpoofed => 20
  | checksumAlgorithm => 53
  | fileCategory => 24
  | fileFstype => 25
  | linkageCategory => 27
  | targetDecoy => 29
  | impactSeverity => 33
  | impactCompletion => 34
  | impactType => 35
  | actionCategory => 37
  | confidenceRating => 39

/-- The names of the values of an enumeration; most enumerations without a default value start at
one. -/
def IdmefEnumId.names : IdmefEnumId → List String
  | additionalDataType =>
    ["string", "byte", "character", "date-time", "integer", "ntpstamp", "portlist", "real",
      "boolean", "byte-string", "xml"]
  | referenceOrigin => ["unknown", "vendor-specific", "user-specific", "bugtraqid", "cve", "osvdb"]
  | userIdType =>
    ["original-user", "current-user", "target-user", "user-privs", "current-group", "group-privs",
      "other-privs"]
  | userCategory => ["unknown", "application", "os-device"]
  | addressCategory =>
    ["unknown", "atm", "e-mail", "lotus-notes", "mac", "sna", "vm", "ipv4-addr", "ipv4-addr-hex",
      "ipv4-net", "ipv4-net-mask", "ipv6-addr", "ipv6-addr-hex", "ipv6-net", "ipv6-net-mask"]
  | nodeCategory =>
    ["unknown", "ads", "afs", "coda", "dfs", "dns", "hosts", "kerberos", "nds", "nis", "nisplus",
      "nt", "wfw"]
  | sourceSpoofed => ["unknown", "yes", "no"]
  | checksumAlgorithm =>
    ["MD4", "MD5", "SHA1", "SHA2-256", "SHA2-384", "SHA2-512", "CRC-32", "Haval", "Tiger", "Gost"]
  | fileCategory => ["current", "original"]
  | fileFstype =>
    ["ufs", "efs", "nfs", "afs", "ntfs", "fat16", "fat32", "pcfs", "joliet", "iso9660"]
  | linkageCategory =>
    ["hard-link", "mount-point", "reparse-point", "shortcut", "stream", "symbolic-link"]
  | targetDecoy => ["unknown", "yes", "no"]
  | impactSeverity => ["info", "low", "medium", "high"]
  | impactCompletion => ["failed", "succeeded"]
  | impactType => ["other", "admin", "dos", "file", "recon", "user"]
  | actionCategory => ["other", "block-installed", "notification-sent", "taken-offline"]
  | confidenceRating => ["numeric", "low", "medium", "high"]

def IdmefEnumId.first : IdmefEnumId → ℕ
  | checksumAlgorithm | fileCategory | fileFstype | linkageCategory
  | impactSeverity | impactCompletion => 1
  | _ => 0

def ascii (name : String) : List UInt8 := name.toList.map fun c => UInt8.ofNat c.toNat

def idmefClassEnumToString (cls : IdmefEnumId) (val : ℤ) : Option (List UInt8) :=
  if val < cls.first then none else (cls.names[(val - cls.first).toNat]?).map ascii

/-- The bytes of an integer in memory, in two's complement. -/
def represent (order : ByteOrder) (size : ℕ) (v : ℤ) : List UInt8 :=
  let n := (v % 256 ^ size).toNat
  match order with
  | .little => leBytes size n
  | .big => beBytes size n

theorem length_represent (order : ByteOrder) (n : ℕ) (v : ℤ) :
    (represent order n v).length = n := by
  cases order <;> simp [represent]

/-- The bytes in memory of a value that is not an object. -/
def ValueType.bytes (order : ByteOrder) : ValueType → List UInt8
  | integer t v => represent order t.size v
  | float bits => represent order 4 bits.toNat
  | double bits => represent order 8 bits.toNat
  | enum value cls => represent order 4 value ++ represent order 4 cls.number
  | _ => []

/-- The number of bytes that are compared of a value that is not an object. -/
def ValueType.len : ValueType → ℕ
  | integer t _ => t.size
  | float _ => 4
  | double _ | enum _ _ => 8
  | _ => 0

/-- The first bytes of the union that holds a value. -/
def ValueType.memory (m : Machine) (len : ℕ) (v : ValueType) : List UInt8 :=
  (v.bytes m.order ++ (List.range len).map (m.overlay.rest v)).take len

def classOperator : Operator := { null := true, not := true, equal := true }
def dataOperator : Operator :=
  { equal := true, not := true, lesser := true, greater := true, substr := true }
def timeOperator : Operator := { lesser := true, greater := true, equal := true, not := true }
def stringOperator : Operator := { substr := true, equal := true, not := true, nocase := true }
def integerOperator : Operator := { lesser := true, greater := true, equal := true, not := true }
def enumOperator : Operator := stringOperator.union integerOperator

/-- The operators that a type supports. -/
def IdmefValueTypeId.operator : IdmefValueTypeId → Operator
  | unknown | list => {}
  | int8 | uint8 | int16 | uint16 | int32 | uint32 | int64 | uint64 | float | double =>
    integerOperator
  | string => stringOperator
  | time => timeOperator
  | data => dataOperator
  | enum => enumOperator
  | «class» => classOperator

/-- A three-way comparison satisfies an operator. -/
def satisfies (ret : ℤ) (op : Operator) : ℤ :=
  if ret = 0 ∧ op.equal then 0
  else if ret < 0 ∧ op.lesser then 0
  else if ret > 0 ∧ op.greater then 0
  else -1

def toLower (b : UInt8) : UInt8 := if 65 ≤ b ∧ b ≤ 90 then b + 32 else b

def strcasecmp (s1 s2 : List UInt8) : Bool :=
  (PreludeString.cString s1).map toLower = (PreludeString.cString s2).map toLower

def strcmp (s1 s2 : List UInt8) : Bool := PreludeString.cString s1 = PreludeString.cString s2

/-- Strings are matched for one of four operators only. -/
def charstringCompare (m : Machine) : Option (List UInt8) → Option (List UInt8) → Operator → ℤ
  | some s1, some s2, op =>
    if op = criterionEqualNocase ∧ strcasecmp s1 s2 then 0
    else if op = criterionEqual ∧ strcmp s1 s2 then 0
    else if op = criterionSubstrNocase ∧ m.fnmatch true s2 s1 then 0
    else if op = criterionSubstr ∧ m.fnmatch false s2 s1 then 0
    else -1
  | _, _, _ => -1

def genericCompare (m : Machine) : Option ValueType → Option ValueType → Operator → ℤ
  | some t1, some t2, op =>
    satisfies (signOf (memcmp (t1.memory m t1.len) (t2.memory m t1.len))) op
  | _, _, _ => -1

def enumCompare (m : Machine) : Option ValueType → Option ValueType → Operator → ℤ
  | some (.enum value cls), some (.string s), op =>
    match idmefClassEnumToString cls value with
    | none => -1
    | some s1 => charstringCompare m (some s1) s.buf op
  | src, dst, op => genericCompare m src dst op

def timeCompare (m : Machine) : Option ValueType → Option ValueType → Operator → ℤ
  | some (.time t1), some (.time t2), op => satisfies (idmefTimeCompare (some t1) (some t2)) op
  | some (.time t1), some (.string s), op =>
    satisfies (idmefTimeCompare (some t1) (some (m.overlay.time s))) op
  | _, _, _ => -1

def stringCompare (m : Machine) (t1 t2 : Option ValueType) (op : Operator) : ℤ :=
  let buf : Option ValueType → Option (List UInt8)
    | some (.string s) => s.buf
    | _ => none
  charstringCompare m (buf t1) (buf t2) op

def idmefDataGetData (m : Machine) : IdmefData → Option (List UInt8)
  | .unknown => none
  | .immediate _ bytes => some bytes
  | .charString bytes => some bytes
  | .byteString bytes => some bytes
  | .time t => some [m.timeByte t]

def memmem (s1 s2 : List UInt8) : Bool := s1.tails.any s2.isPrefixOf

def dataObjectsCompare (m : Machine) (d1 d2 : IdmefData) (op : Operator) : ℤ :=
  match idmefDataGetData m d1, idmefDataGetData m d2 with
  | some _, none => -1
  | none, some _ => -1
  | s1, s2 =>
    if op.substr then if memmem (s1.getD []) (s2.getD []) then 0 else -1
    else satisfies (idmefDataCompare (some d1) (some d2)) op

def dataCompare (m : Machine) : Option ValueType → Option ValueType → Operator → ℤ
  | some (.data d1), some (.data d2), op => dataObjectsCompare m d1 d2 op
  | some (.data d1), some (.string s), op => dataObjectsCompare m d1 (m.overlay.data s) op
  | _, _, _ => -1

def classCompare (m : Machine) : Option ValueType → Option ValueType → Operator → ℤ
  | some (.class _ o1), some (.class _ o2), _ => idmefCompare o1 o2
  | some (.class _ o1), some (.string s), _ => idmefCompare o1 (m.overlay.object s)
  | _, _, _ => -1

def IdmefValueTypeId.compare (m : Machine) :
    IdmefValueTypeId → Option (Option ValueType → Option ValueType → Operator → ℤ)
  | unknown | list => none
  | int8 | uint8 | int16 | uint16 | int32 | uint32 | int64 | uint64 | float | double =>
    some (genericCompare m)
  | string => some (stringCompare m)
  | time => some (timeCompare m)
  | data => some (dataCompare m)
  | enum => some (enumCompare m)
  | «class» => some (classCompare m)

/-- Zero when the values match. A value that is absent matches nothing but a negated operator. -/
def idmefValueTypeCompare (m : Machine) (type1 type2 : Option ValueType) (op : Operator) :
    Except ErrorCode ℤ :=
  match type1.or type2 with
  | none => .error .assertion
  | some t =>
    let mismatch : Bool :=
      match type1, type2 with
      | some t1, some t2 => t1.id ≠ t2.id ∧ t1.id ≠ .enum ∧ t2.id ≠ .string
      | _, _ => false
    if mismatch then .error .idmefValueTypeCompareMismatch
    else if op.inter t.id.operator = {} then .error .idmefValueTypeCompareUnavailable
    else
      match t.id.compare m with
      | none => .error .idmefValueTypeCompareUnavailable
      | some compare =>
        let ret := compare type1 type2 op.positive
        let ret := if ret < 0 then 1 else ret
        if op.not then .ok (if ret = 0 then 1 else 0) else .ok ret

def idmefValueTypeCheckOperator (type : IdmefValueTypeId) (op : Operator) : Ret :=
  if op.inter type.operator = op then .ok () else .error .idmefCriterionUnsupportedOperator

end LibPrelude
