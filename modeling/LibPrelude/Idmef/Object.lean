import LibPrelude.Idmef.Primitive
import LibPrelude.Idmef.Schema

/-! # IDMEF objects

An object of an IDMEF class holds its fields in the order of the class, every
object with its reference count. The functions here follow the code generated for
each class, with the class as a parameter.
-/

namespace LibPrelude

/-- A string, a time or a data object. -/
inductive Prim where
  | string (s : PreludeString)
  | time (t : IdmefTime)
  | data (d : IdmefData)
  deriving DecidableEq, Repr

def Prim.type : Prim → PrimType
  | string _ => .string
  | time _ => .time
  | data _ => .data

mutual

/-- An object with the number of references to it. -/
inductive Obj where
  | prim (refcount : ℕ) (v : Prim)
  | struct (cls : IdmefClassId) (refcount : ℕ) (fields : List Field)

/-- The content of a field: an integer, the bits of a float or an enumeration value with the flag
that says whether it was set, a pointer, a list, or the discriminant and the member of a union. -/
inductive Field where
  | scalar (isSet : Bool) (val : ℤ)
  | ptr (o : Option Obj)
  | list (l : List Obj)
  | union (var : ℕ) (o : Option Obj)

end

def Obj.refcount : Obj → ℕ
  | prim rc _ => rc
  | struct _ rc _ => rc

def Obj.unref : Obj → Obj
  | prim rc v => prim (rc - 1) v
  | struct cls rc fields => struct cls (rc - 1) fields

/-- Destroy a listed object: it leaves its list unless it is referenced from elsewhere. -/
def destroyListed (o : Obj) : Option Obj := if o.refcount ≤ 1 then none else some o.unref

def PrimType.new : PrimType → Prim
  | string => .string preludeStringNew
  | time => .time idmefTimeNew
  | data => .data idmefDataNew

/-- The creation time of an alert or a heartbeat is the current time. -/
def newPrim (now : IdmefTime) (cls : IdmefClassId) (name : String) (type : PrimType) : Prim :=
  if type = .time ∧ name = "create_time" ∧ (cls = .alert ∨ cls = .heartbeat) then .time now
  else type.new

def newField (new : IdmefClassId → Obj) (now : IdmefTime) (cls : IdmefClassId) (d : FieldDesc) :
    Field :=
  match d.type with
  | .optionalInt _ | .optionalEnum _ | .enum _ | .float => .scalar false 0
  | .prim t required => .ptr (if required then some (.prim 1 (newPrim now cls d.name t)) else none)
  | .struct c required => .ptr (if required then some (new c) else none)
  | .primList _ | .structList _ _ => .list []
  | .union _ => .union 0 none

/-- A new object of a class whose required objects nest at most so deep. -/
def newNested (now : IdmefTime) : ℕ → IdmefClassId → Obj
  | 0, cls => .struct cls 1 []
  | n + 1, cls => .struct cls 1 (cls.fields.map (newField (newNested now n) now cls))

def newFields (now : IdmefTime) (cls : IdmefClassId) : List Field :=
  cls.fields.map (newField (newNested now 1) now cls)

def idmefNew (now : IdmefTime) (cls : IdmefClassId) : Obj := .struct cls 1 (newFields now cls)

/-- Whether the flag of a scalar belongs to the value. -/
def FieldType.optional : FieldType → Bool
  | .optionalInt _ | .optionalEnum _ => true
  | _ => false

def Prim.copy : Prim → Prim → Prim
  | .string src, .string dst => .string (preludeStringCopy src dst)
  | src, _ => src

mutual

/-- Copy an object onto another one; a failure leaves the rest of the destination as it was. -/
def idmefCopy (now : IdmefTime) : Obj → Obj → Ret × Obj
  | .prim _ src, .prim rc dst => (.ok (), .prim rc (src.copy dst))
  | .struct _ _ src, .struct cls rc dst =>
    let r := copyFields now cls.fields src dst
    (r.1, .struct cls rc r.2)
  | _, dst => (.error .assertion, dst)

def copyFields (now : IdmefTime) : List FieldDesc → List Field → List Field → Ret × List Field
  | d :: ds, src :: srcs, dst :: dsts =>
    match copyField now d.type src dst with
    | (.ok (), dst) =>
      let r := copyFields now ds srcs dsts
      (r.1, dst :: r.2)
    | (.error e, dst) => (.error e, dst :: dsts)
  | _, _, dsts => (.ok (), dsts)

def copyField (now : IdmefTime) (type : FieldType) : Field → Field → Ret × Field
  | .scalar isSet val, .scalar isSet' _ =>
    (.ok (), .scalar (if type.optional then isSet else isSet') val)
  | .ptr none, .ptr dst => (.ok (), .ptr (if type.required then dst else none))
  | .ptr (some src), .ptr dst =>
    if type.required then
      match dst with
      | none => (.error .assertion, .ptr none)
      | some dst =>
        let r := idmefCopy now src dst
        (r.1, .ptr (some r.2))
    else (.ok (), .ptr (some (idmefClone now src)))
  | .list src, .list dst => (.ok (), .list (dst.filterMap destroyListed ++ cloneList now src))
  | .union var none, .union _ _ => (.ok (), .union var none)
  | .union var (some src), .union _ _ => (.ok (), .union var (some (idmefClone now src)))
  | _, dst => (.ok (), dst)

def idmefClone (now : IdmefTime) : Obj → Obj
  | .prim _ src => .prim 1 src
  | .struct cls _ src => .struct cls 1 (copyFields now cls.fields src (newFields now cls)).2

def cloneList (now : IdmefTime) : List Obj → List Obj
  | [] => []
  | o :: os => idmefClone now o :: cloneList now os

end

/-- Floats are compared as integers after their sign bit was turned into a two's complement. -/
def floatCompare (a b : Int32) : ℤ :=
  let a := if a < 0 then (0x80000000 : UInt32).toInt32 - a else a
  let b := if b < 0 then (0x80000000 : UInt32).toInt32 - b else b
  let d := a - b
  if (if d < 0 then -d else d) ≤ 0 then 0 else -1

def Prim.compare : Prim → Prim → ℤ
  | .string a, .string b => preludeStringCompare (some a) (some b)
  | .time a, .time b => idmefTimeCompare (some a) (some b)
  | .data a, .data b => idmefDataCompare (some a) (some b)
  | _, _ => -1

/-- The comparison of two integers, floats or enumeration values; an error is returned at once,
any other result is kept until the next field. -/
def compareScalar (type : FieldType) (isSet isSet' : Bool) (val val' ret : ℤ) : Except ℤ ℤ :=
  match type with
  | .optionalInt _ | .optionalEnum _ =>
    if isSet ≠ isSet' then .error (-1)
    else if isSet ∧ val ≠ val' then .error (-1)
    else .ok ret
  | .float => .ok (floatCompare (Int32.ofInt val) (Int32.ofInt val'))
  | _ => if val ≠ val' then .error (-1) else .ok ret

mutual

/-- Zero when two objects have the same content. -/
def idmefCompare : Obj → Obj → ℤ
  | .prim _ a, .prim _ b => a.compare b
  | .struct cls _ fs, .struct _ _ gs => compareFields cls.fields fs gs 0
  | _, _ => -1

def compareFields : List FieldDesc → List Field → List Field → ℤ → ℤ
  | d :: ds, f :: fs, g :: gs, ret =>
    match compareField d.type f g ret with
    | .error ret => ret
    | .ok ret => compareFields ds fs gs ret
  | _, _, _, ret => ret

def compareField (type : FieldType) : Field → Field → ℤ → Except ℤ ℤ
  | .scalar isSet val, .scalar isSet' val', ret => compareScalar type isSet isSet' val val' ret
  | .ptr a, .ptr b, _ =>
    let ret := compareOpt a b
    if ret ≠ 0 then .error ret else .ok ret
  | .list as, .list bs, _ =>
    let ret := compareList as bs
    if ret ≠ 0 then .error ret else .ok ret
  | .union var a, .union var' b, ret =>
    if var ≠ var' then .error (-1) else if var = 0 then .ok ret else .ok (compareOpt a b)
  | _, _, _ => .error (-1)

/-- A null pointer differs from any object. -/
def compareOpt : Option Obj → Option Obj → ℤ
  | none, none => 0
  | some a, some b => idmefCompare a b
  | _, _ => -1

def compareList : List Obj → List Obj → ℤ
  | [], [] => 0
  | a :: as, b :: bs =>
    let ret := idmefCompare a b
    if ret ≠ 0 then ret else compareList as bs
  | _, _ => -1

end

inductive ObjType where
  | prim (t : PrimType)
  | struct (cls : IdmefClassId)
  deriving DecidableEq

mutual

/-- The fields of an object are those of its class. -/
def HasType : ObjType → Obj → Prop
  | .prim t, .prim rc v => 0 < rc ∧ v.type = t
  | .struct cls, .struct cls' rc fs => 0 < rc ∧ cls' = cls ∧ FieldsHaveType cls'.fields fs
  | _, _ => False

def FieldsHaveType : List FieldDesc → List Field → Prop
  | [], [] => True
  | d :: ds, f :: fs => FieldHasType d.type f ∧ FieldsHaveType ds fs
  | _, _ => False

def FieldHasType : FieldType → Field → Prop
  | .optionalInt _, .scalar _ _ => True
  | .optionalEnum _, .scalar _ _ => True
  | .enum _, .scalar _ _ => True
  | .float, .scalar _ _ => True
  | .prim t _, .ptr o => OptHasType (.prim t) o
  | .struct cls _, .ptr o => OptHasType (.struct cls) o
  | .primList t, .list l => ListHasType (.prim t) l
  | .structList cls _, .list l => ListHasType (.struct cls) l
  | .union _, .union var none => var = 0
  | .union members, .union var (some o) =>
    match members.find? fun m => m.value = var with
    | none => False
    | some m => var ≠ 0 ∧ HasType (.struct m.cls) o
  | _, _ => False

def OptHasType : ObjType → Option Obj → Prop
  | _, none => True
  | t, some o => HasType t o

def ListHasType : ObjType → List Obj → Prop
  | _, [] => True
  | t, o :: os => HasType t o ∧ ListHasType t os

end

end LibPrelude
