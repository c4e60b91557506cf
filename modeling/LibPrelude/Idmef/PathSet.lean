import LibPrelude.Idmef.DestroyChild
import LibPrelude.Idmef.ValueCopy

/-! # Setting what a path designates

The steps of a path are followed from an object down, and what is missing on the way is
made. A step for all elements of a list, or for those with a key, goes on in each of
them, and in new elements for the values that are left; as the last step it deletes the
elements first. Two places take the link of an element for the element itself.
-/

namespace LibPrelude

/-- What a set depends on besides its arguments: the time at which objects are made, what casts
depend on, and the outcome of comparing the key that a link has when it is taken for an element,
unless the comparison does not end. -/
structure SetContext extends CastContext where
  now : IdmefTime
  linkHasKey : List Obj → ℕ → List UInt8 → Option Bool

def zeroFloats : Floats where
  widen := fun _ => 0
  narrow := fun _ => 0
  floatOf := fun _ => 0
  doubleOf := fun _ => 0
  integer := fun _ bits => if bits = 0 then some 0 else none
  tolerated := fun a b => a = b
  print := fun _ => ascii "0.000000"

/-- A context with no offset from Greenwich, where no comparison with the key of a link ends. -/
def plainSetContext : SetContext where
  toPlatform := plainPlatform
  localTime := ⟨fun _ => 0, timegm⟩
  gmtOffsetFromTime := fun _ => 0
  floats := zeroFloats
  now := idmefTimeNew
  linkHasKey := fun _ _ _ => none

def IdmefValue.entries : Option IdmefValue → List (Option IdmefValue)
  | none => []
  | some (.list l) => l
  | some (.scalar v) => [some (.scalar v)]

def setIndexKey (key : Option (List UInt8)) : Obj → Obj
  | .struct cls rc (f :: fs) =>
    match key with
    | none => .struct cls rc (f :: fs)
    | some key => .struct cls rc (.ptr (some (.prim 1 (.string ⟨some key⟩))) :: fs)
  | o => o

/-- The child that a step leads to: a value in its field, or an object and the field that holds
it. -/
inductive Slot where
  | leaf (f : Field)
  | object (o : Obj) (put : Obj → Field)

/-- A new object for a child that is one, or whose elements are. -/
def newObject (now : IdmefTime) (c : Child) : Obj :=
  match c.cls, c.type with
  | some cls, _ => idmefNew now cls
  | none, .primList t => .prim 1 t.new
  | none, .prim t _ => .prim 1 t.new
  | none, _ => .prim 1 PrimType.string.new

def newListed (now : IdmefTime) (c : Child) (n : ℤ) (l : List Obj) : Except ErrorCode Slot :=
  if n = idmefListAppend then .ok (.object (newObject now c) fun o => .list (l ++ [o]))
  else if n = idmefListPrepend then .ok (.object (newObject now c) fun o => .list (o :: l))
  else
    match listPosition l.length n with
    | some i =>
      match l[i]? with
      | some o => .ok (.object o fun o => .list (l.set i o))
      | none => .error .idmefTreeIndexUndefined
    | none =>
      if n = l.length then .ok (.object (newObject now c) fun o => .list (l ++ [o]))
      else if n = -l.length - 1 then .ok (.object (newObject now c) fun o => .list (o :: l))
      else .error .idmefTreeIndexUndefined

/-- Whether making a child marks it set; the type of additional data is marked as optional values
are. -/
def FieldType.marked : FieldType → Bool
  | .enum .additionalDataType => true
  | type => type.optional

def newChildCase (now : IdmefTime) (c : Child) (n : ℤ) : Field → Except ErrorCode Slot
  | .scalar isSet val => .ok (.leaf (.scalar (isSet || c.type.marked) val))
  | .ptr o =>
    let o := o.getD (newObject now c)
    match c.cls with
    | none => .ok (.leaf (.ptr (some o)))
    | some _ => .ok (.object o fun o => .ptr (some o))
  | .list l => newListed now c n l
  | .union var o =>
    match c.member with
    | none => .error .idmefClassUnknownChild
    | some m =>
      let o := if m.value = var then o.getD (newObject now c) else newObject now c
      .ok (.object o fun o => .union m.value (some o))

def idmefClassNewChild (now : IdmefTime) (cls : IdmefClassId) (fs : List Field) (child : ℕ)
    (n : ℤ) : Except ErrorCode (Child × Slot) :=
  match cls.children[child]? with
  | none => .error .idmefClassUnknownChild
  | some c =>
    match fs[c.field]? with
    | none => .error .idmefClassUnknownChild
    | some f => (newChildCase now c n f).map fun slot => (c, slot)

/-- What is done with the rest of a path in an object of a class. -/
abbrev Setter := Option IdmefValue → IdmefClassId → List Field → SetRet × List Field

def Setter.inObject (next : Setter) (value : Option IdmefValue) : Obj → SetRet × Obj
  | .struct cls rc fs =>
    let r := next value cls fs
    (r.1, .struct cls rc r.2)
  | o => (.error .stray, o)

/-- The type of additional data that goes with the type of a value. -/
def additionalDataTypeOf : IdmefValueTypeId → Option ℤ
  | .int8 | .uint8 | .int16 | .uint16 | .int32 | .uint32 | .int64 | .uint64 => some 4
  | .float | .double => some 7
  | .string => some 0
  | .data => some 9
  | .time => some 3
  | _ => none

/-- The type of additional data is set with its data, unless it has been set. -/
def adMagicSetDatatype (vtype : IdmefValueTypeId) (fs : List Field) : List Field :=
  match (fs[1]? : Option Field), additionalDataTypeOf vtype with
  | some (.scalar false _), some type => fs.set 1 (.scalar true type)
  | _, _ => fs

/-- The fields before a leaf is stored, with the type that goes with data. -/
def withDatatype (v : IdmefValue) (cls : IdmefClassId) (c : Child) (fs : List Field) :
    List Field :=
  if cls = .additionalData ∧ c.valueType = .data then adMagicSetDatatype v.type fs else fs

def storeLeaf (m : SetContext) (v : IdmefValue) (cls : IdmefClassId) (c : Child)
    (fs : List Field) : SetRet × List Field :=
  let fs := withDatatype v cls c fs
  match fs[c.field]? with
  | none => (.error .stray, fs)
  | some f =>
    let r := idmefValueCopyInternal m.toCastContext (copyToLeaf m.now) v c.valueType c.enumId f
    (r.1, fs.set c.field r.2)

def storeObject (m : SetContext) (v : IdmefValue) (c : Child) (o : Obj) : SetRet × Obj :=
  idmefValueCopyInternal m.toCastContext (idmefValueTypeCopy m.now) v c.valueType c.enumId o

/-- A step with an index, and the steps after it unless it is the last one; a step behind a value
that is no object is an assertion that fails. -/
def setStep (m : SetContext) (e : IdmefPathElement) (index : ℤ) (next : Option Setter) : Setter :=
  fun value cls fs =>
    if value.isNone ∧ next.isNone then failing (idmefClassDestroyChild cls e.position e.index fs)
    else
      match idmefClassNewChild m.now cls fs e.position index with
      | .error err => (.error (.code err), fs)
      | .ok (c, .leaf f) =>
        match next, value with
        | none, some v => storeLeaf m v cls c (fs.set c.field f)
        | _, _ => (.error .stray, fs.set c.field f)
      | .ok (c, .object o put) =>
        let r := match next, value with
          | some next, value => next.inObject value o
          | none, some v => storeObject m v c o
          | none, none => (.ok (), o)
        (r.1, fs.set c.field (put r.2))

def listChild (cls : IdmefClassId) (fs : List Field) (position : ℕ) : List Obj :=
  match idmefClassGetChild cls fs position with
  | .ok (.list l) => l
  | _ => []

def setListChild (cls : IdmefClassId) (fs : List Field) (position : ℕ) (l : List Obj) :
    List Field :=
  match cls.children[position]? with
  | none => fs
  | some c =>
    match fs[c.field]? with
    | some (.list _) => fs.set c.field (.list l)
    | _ => fs

/-- The elements that are not deleted, given what the test of each says. -/
def deleteListedChild (test : ℕ → Option Bool) : ℕ → List Obj → Option (List Obj)
  | _, [] => some []
  | i, o :: os =>
    match test i with
    | none => none
    | some true => deleteListedChild test (i + 1) os
    | some false => (deleteListedChild test (i + 1) os).map (o :: ·)

def appendEach (append : Setter) (afterwards : IdmefClassId → List Field → SetRet × List Field)
    (cls : IdmefClassId) : List (Option IdmefValue) → List Field → SetRet × List Field
  | [], fs => (.ok (), fs)
  | v :: vs, fs =>
    match append v cls fs with
    | (.error e, fs) => (.error e, fs)
    | (.ok (), fs) =>
      match afterwards cls fs with
      | (.error e, fs) => (.error e, fs)
      | (.ok (), fs) => appendEach append afterwards cls vs fs

def setUndefinedLast (m : SetContext) (e : IdmefPathElement) : Setter := fun value cls fs =>
  let l := listChild cls fs e.position
  let test := fun i => match e.key with
    | none => some true
    | some key => m.linkHasKey l i key
  match deleteListedChild test 0 l with
  | none => (.error .stray, fs)
  | some l =>
    appendEach (setStep m e idmefListAppend none)
      (fun _ fs => if e.index = indexKey ∧ e.key.isSome then (.error .stray, fs) else (.ok (), fs))
      cls (IdmefValue.entries value) (setListChild cls fs e.position l)

/-- The value for an element when so many values are used; a value that is no list is for every
element. -/
def IdmefValue.nth (value : Option IdmefValue) (j : ℕ) : Option (Option IdmefValue) :=
  match value with
  | some (.list vs) => vs[j]?
  | v => some v

def IdmefValue.used (value : Option IdmefValue) (j : ℕ) : ℕ :=
  match value with
  | some (.list _) => j + 1
  | _ => 1

/-- Go on in each element of a list that the step stands for, until the values are used up or an
error occurs, given how many values are used. -/
def setMatching (next : Setter) (e : IdmefPathElement) (value : Option IdmefValue) :
    ℕ → List Obj → Except SetRet ℕ × List Obj
  | j, [] => (.ok j, [])
  | j, o :: os =>
    if e.key.any fun key => ¬ hasIndexKey key o then
      let r := setMatching next e value j os
      (r.1, o :: r.2)
    else
      match IdmefValue.nth value j with
      | none => (.error (.ok ()), o :: os)
      | some v =>
        let r := next.inObject v o
        match r.1 with
        | .error err => (.error (.error err), r.2 :: os)
        | .ok () =>
          let rest := setMatching next e value (IdmefValue.used value j) os
          (rest.1, r.2 :: rest.2)

/-- The key of the last element of a list is set. -/
def setLastKey (e : IdmefPathElement) (cls : IdmefClassId) (fs : List Field) :
    SetRet × List Field :=
  let l := listChild cls fs e.position
  (.ok (), setListChild cls fs e.position (l.dropLast ++ l.getLast?.toList.map (setIndexKey e.key)))

def setUndefinedNotLast (m : SetContext) (e : IdmefPathElement) (next : Setter) : Setter :=
  fun value cls fs =>
    let r := setMatching next e value 0 (listChild cls fs e.position)
    let fs := setListChild cls fs e.position r.2
    match r.1 with
    | .error ret => (ret, fs)
    | .ok j =>
      appendEach (setStep m e idmefListAppend (some next)) (setLastKey e) cls
        ((IdmefValue.entries value).drop j) fs

/-- Follow the steps of a path in an object of a class. -/
def pathSet (m : SetContext) : List IdmefPathElement → Setter
  | [] => fun _ _ fs => (.ok (), fs)
  | [e] =>
    if e.index = indexUndefined ∨ e.index = indexKey then setUndefinedLast m e
    else setStep m e e.index none
  | e :: e' :: es =>
    if e.index = indexUndefined ∨ e.index = indexKey then
      setUndefinedNotLast m e (pathSet m (e' :: es))
    else setStep m e e.index (some (pathSet m (e' :: es)))

def idmefPathSet (m : SetContext) (path : IdmefPath) (object : Obj) (value : Option IdmefValue) :
    SetRet × Obj :=
  match path.elements, object with
  | [], _ => (.error (.code .generic), object)
  | _, .prim _ _ => (.error (.code .generic), object)
  | es, .struct cls rc fs =>
    if cls ≠ path.topClass then (.error (.code .generic), object)
    else
      let r := pathSet m es value cls fs
      (r.1, .struct cls rc r.2)

end LibPrelude
