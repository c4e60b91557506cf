import LibPrelude.General.Memory
import LibPrelude.Idmef.PathParse
import LibPrelude.Idmef.TimeText

/-! # Paths in use

A path is an object with counted references. Paths that were parsed are kept in a cache and
shared by those who parse the same name, and a path is taken out of the cache before it is
modified. An element of a path for a keyed list may hold a key, which is a block of memory of
its own.
-/

namespace LibPrelude

/-- Why a path is not made or modified; `shared` is the plain -1. -/
inductive PathError where
  | code (e : ErrorCode)
  | classUnknown
  | integrity
  | indexReserved
  | parentRoot
  | shared
  deriving DecidableEq, Repr

/-- A class of objects or of enumeration values. -/
abbrev ClassId := IdmefClassId ⊕ IdmefEnumId

def Child.classId (c : Child) : Option ClassId :=
  match c.cls with
  | some cls => some (.inl cls)
  | none => c.enumId.map .inr

def idmefClassGetName : ClassId → String
  | .inl .additionalData => "additional_data"
  | .inl .reference => "reference"
  | .inl .classification => "classification"
  | .inl .userId => "user_id"
  | .inl .user => "user"
  | .inl .address => "address"
  | .inl .process => "process"
  | .inl .webService => "web_service"
  | .inl .snmpService => "snmp_service"
  | .inl .service => "service"
  | .inl .node => "node"
  | .inl .source => "source"
  | .inl .fileAccess => "file_access"
  | .inl .inode => "inode"
  | .inl .checksum => "checksum"
  | .inl .file => "file"
  | .inl .linkage => "linkage"
  | .inl .target => "target"
  | .inl .analyzer => "analyzer"
  | .inl .alertident => "alertident"
  | .inl .impact => "impact"
  | .inl .action => "action"
  | .inl .confidence => "confidence"
  | .inl .assessment => "assessment"
  | .inl .toolAlert => "tool_alert"
  | .inl .correlationAlert => "correlation_alert"
  | .inl .overflowAlert => "overflow_alert"
  | .inl .alert => "alert"
  | .inl .heartbeat => "heartbeat"
  | .inl .message => "message"
  | .inr .additionalDataType => "additional_data_type"
  | .inr .referenceOrigin => "reference_origin"
  | .inr .userIdType => "user_id_type"
  | .inr .userCategory => "user_category"
  | .inr .addressCategory => "address_category"
  | .inr .nodeCategory => "node_category"
  | .inr .sourceSpoofed => "source_spoofed"
  | .inr .checksumAlgorithm => "checksum_algorithm"
  | .inr .fileCategory => "file_category"
  | .inr .fileFstype => "file_fstype"
  | .inr .linkageCategory => "linkage_category"
  | .inr .targetDecoy => "target_decoy"
  | .inr .impactSeverity => "impact_severity"
  | .inr .impactCompletion => "impact_completion"
  | .inr .impactType => "impact_type"
  | .inr .actionCategory => "action_category"
  | .inr .confidenceRating => "confidence_rating"

def idmefClassGetChildClass : Option ClassId → ℕ → Option ClassId
  | some (.inl cls), child => (cls.children[child]?).bind Child.classId
  | _, _ => none

def idmefClassGetChildName : Option ClassId → ℕ → Option (List UInt8)
  | some (.inl cls), child => (cls.childNames[child]?).map ascii
  | _, _ => none

/-- An element of a path; its key is a block of memory. -/
structure PathSlot where
  index : ℤ
  indexKey : Option ℕ
  position : ℕ
  cls : Option ClassId
  valueType : IdmefValueTypeId

/-- A path with its array of elements, of which the first `depth` are in use. -/
structure PathObject where
  name : List UInt8
  refcount : ℕ
  depth : ℕ
  topClass : IdmefClassId
  elem : ℕ → PathSlot

/-- The memory of the keys, the paths, which may be freed, and those in the cache. -/
structure PathStore where
  keys : Memory UInt8
  paths : List (Option PathObject)
  cache : List ℕ

/-- What a call returns, unless it reads or releases what has been released. -/
abbrev PathRet := Option (Except PathError ℕ × PathStore)

def sizeofIdmefPath : ℕ := 696
def sizeofHashElem : ℕ := 32

def strdup (keys : Memory UInt8) (text : List UInt8) : Memory UInt8 × Option ℕ :=
  match keys.request (text.length + 1) with
  | (keys, true) => (keys.addBlock (text ++ [0]), some keys.blocks.length)
  | (keys, false) => (keys, none)

def keyText (keys : Memory UInt8) (key : ℕ) : Option (List UInt8) :=
  (keys.bytesAt key).map PreludeString.cString

/-- The appended text may be cut, but there is no result when its end is behind the buffer. -/
def strncatName (name text : List UInt8) : Option (List UInt8) :=
  let name := name ++ text.take (maxNameLen - name.length)
  if name.length < maxNameLen then some name else none

def snprintfName (name text : List UInt8) : List UInt8 :=
  name ++ text.take (maxNameLen - 1 - name.length)

namespace PathObject

def getClass (path : PathObject) : Option ClassId :=
  if path.depth = 0 then some (.inl path.topClass) else (path.elem (path.depth - 1)).cls

def getName (path : PathObject) (depth : ℕ) : Option (List UInt8) :=
  let elem := path.elem depth
  if 0 < depth ∧ (elem.cls.isNone ∨ elem.valueType = .enum) then
    idmefClassGetChildName (path.elem (depth - 1)).cls elem.position
  else elem.cls.map fun cls => ascii (idmefClassGetName cls)

def buildIndex (keys : Memory UInt8) (elem : PathSlot) (name : List UInt8) :
    Option (List UInt8) := do
  if elem.index = indexUndefined ∨ elem.index = indexForbidden then return name
  let name ← strncatName name [40]
  let name ←
    if elem.index ≠ indexKey then some (snprintfName name (printInt false 1 elem.index))
    else
      match elem.indexKey with
      | none => some name
      | some key => (keyText keys key).bind (strncatName name)
  strncatName name [41]

def buildNameFrom (keys : Memory UInt8) (path : PathObject) :
    ℕ → ℕ → Option ClassId → List UInt8 → Option (Except PathError ℕ × List UInt8)
  | 0, _, _, name => some (.ok 0, name)
  | n + 1, i, cls, name => do
    let name ← if 0 < i then strncatName name [46] else some name
    match path.getName i with
    | none => return (.error .integrity, name)
    | some text =>
      let name ← strncatName name text
      let name ← buildIndex keys (path.elem i) name
      let cls := idmefClassGetChildClass cls (path.elem i).position
      if cls.isNone ∧ i < path.depth - 1 then return (.error .integrity, name)
      buildNameFrom keys path n (i + 1) cls name

/-- The classes are followed from the message, whatever the path starts from. -/
def buildName (keys : Memory UInt8) (path : PathObject) :
    Option (Except PathError ℕ × PathObject) :=
  (buildNameFrom keys path path.depth 0 (some (.inl .message)) []).map fun (ret, name) =>
    (ret, { path with name })

end PathObject

namespace PathStore

def path (s : PathStore) (p : ℕ) : Option PathObject := (s.paths[p]?).join

def setPath (s : PathStore) (p : ℕ) (path : PathObject) : PathStore :=
  { s with paths := s.paths.set p (some path) }

/-- The cached path with a name and a class. -/
def cached (s : PathStore) (topClass : IdmefClassId) (name : List UInt8) : Option ℕ :=
  s.cache.find? fun p => (s.path p).any fun path => path.topClass = topClass ∧ path.name = name

def ref (s : PathStore) (p : ℕ) : PathRet :=
  (s.path p).map fun path => (.ok p, s.setPath p { path with refcount := path.refcount + 1 })

/-- Element after element of a name from a class on, given how many may follow the first one. -/
def parseElems :
    ℕ → IdmefClassId → List UInt8 → ℕ → (ℕ → PathSlot) → Memory UInt8 →
      Except PathError (ℕ × (ℕ → PathSlot)) × Memory UInt8
  | n, cls, text, depth, elem, keys =>
    match parsePart (splitAtByte 46 text).1 with
    | .error err => (.error (.code err), keys)
    | .ok (_, _, key) =>
      let (keys, indexKey) := match key with
        | none => (keys, none)
        | some key => strdup keys key
      match parseElement cls (splitAtByte 46 text).1 with
      | .error err => (.error (.code err), keys)
      | .ok (e, c) =>
        let elem := Function.update elem depth
          ⟨e.index, indexKey, e.position, c.classId, c.valueType⟩
        if c.valueType ≠ .class ∧ (splitAtByte 46 text).2.isSome then
          (.error (.code .generic), keys)
        else
          match n with
          | 0 => (.error (.code .idmefPathDepth), keys)
          | n + 1 =>
            match (splitAtByte 46 text).2, c.cls with
            | some rest, some cls' => parseElems n cls' rest (depth + 1) elem keys
            | some _, none => (.error (.code .generic), keys)
            | none, _ => (.ok (depth + 1, elem), keys)

def emptySlot : PathSlot := ⟨0, none, 0, none, .unknown⟩

/-- A new path with the elements of its name, which the caller and the cache will refer to. -/
def parseNew (keys : Memory UInt8) (rootclass : IdmefClassId) (buffer : List UInt8) :
    Except PathError PathObject × Memory UInt8 :=
  if buffer = [] then (.ok ⟨[], 2, 0, rootclass, fun _ => emptySlot⟩, keys)
  else
    let (r, keys) := parseElems (maxDepth - 1) rootclass buffer 0 (fun _ => emptySlot) keys
    (r.map fun r => ⟨buffer, 2, r.1, rootclass, r.2⟩, keys)

/-- When there is no memory for the entry in the cache the path is freed and yet returned. -/
def newFromRootFast (s : PathStore) (rootclass : IdmefClassId) (buffer : List UInt8) : PathRet :=
  if maxNameLen ≤ buffer.length + 1 then some (.error (.code .idmefPathLength), s)
  else
    match s.cached rootclass buffer with
    | some p => s.ref p
    | none =>
      match s.keys.request sizeofIdmefPath with
      | (keys, false) => some (.error (.code .enomem), { s with keys })
      | (keys, true) =>
        match parseNew keys rootclass buffer with
        | (.error err, keys) => some (.error err, { s with keys })
        | (.ok path, keys) =>
          match keys.request sizeofHashElem with
          | (keys, false) => some (.ok s.paths.length, { s with keys, paths := s.paths ++ [none] })
          | (keys, true) => some (.ok s.paths.length,
              ⟨keys, s.paths ++ [some path], s.paths.length :: s.cache⟩)

/-- A path that others than the caller and the cache refer to is not modified. -/
def invalidate (s : PathStore) (path : PathObject) : Option (PathStore × PathObject) :=
  if path.refcount = 1 then some (s, path)
  else if 2 < path.refcount then none
  else if path.refcount = 2 then
    (s.cached path.topClass path.name).map fun q =>
      ({ s with cache := s.cache.erase q }, { path with refcount := 1 })
  else some (s, path)

def freeKey (keys : Memory UInt8) (elem : PathSlot) : Option (Memory UInt8) :=
  if elem.index = indexKey then
    match elem.indexKey with
    | none => some keys
    | some key => keys.free key
  else some keys

open PathObject in
def setIndex (s : PathStore) (p depth : ℕ) (index : ℤ) : PathRet :=
  (s.path p).bind fun path =>
    if ¬ depth < path.depth then some (.error (.code .idmefPathDepth), s)
    else if index = indexForbidden ∨ index = indexKey then some (.error .indexReserved, s)
    else if (path.elem depth).index = indexForbidden then
      some (.error (.code .idmefPathIndexForbidden), s)
    else
      match s.invalidate path with
      | none => some (.error .shared, s)
      | some (s, path) =>
        (freeKey s.keys (path.elem depth)).bind fun keys =>
          let elem := Function.update path.elem depth { path.elem depth with index }
          (buildName keys { path with elem }).map fun (ret, path) =>
            (ret, { s with keys }.setPath p path)

def undefineIndex (s : PathStore) (p depth : ℕ) : PathRet := s.setIndex p depth indexUndefined

/-- The number and the kind of the child of a class with a name. -/
def findChild : Option ClassId → List UInt8 → Except PathError (ℕ × Child)
  | none, _ => .error .classUnknown
  | some (.inr _), _ => .error (.code .idmefClassUnknownChild)
  | some (.inl cls), name =>
    match idmefClassFindChild cls name with
    | .error err => .error (.code err)
    | .ok child =>
      match cls.children[child]? with
      | none => .error (.code .idmefClassUnknownChild)
      | some c => .ok (child, c)

def makeChild (s : PathStore) (p : ℕ) (childName : List UInt8) (index : ℤ) : PathRet :=
  (s.path p).bind fun path =>
    if maxDepth - 1 < path.depth then some (.error (.code .idmefPathDepth), s)
    else
      match findChild path.getClass childName with
      | .error err => some (.error err, s)
      | .ok (child, c) =>
        match s.invalidate path with
        | none => some (.error .shared, s)
        | some (s, path) =>
          let buf := if 0 ≤ index ∧ c.isList then 40 :: printInt false 1 index ++ [41] else []
          let dot := if 0 < path.depth then [46] else []
          let slot := { path.elem path.depth with
            position := child
            index := if c.isList then if index < 0 then indexUndefined else index
              else indexForbidden
            cls := c.classId
            valueType := c.valueType }
          some (.ok 0, s.setPath p { path with
            name := snprintfName path.name (dot ++ childName ++ buf)
            depth := path.depth + 1
            elem := Function.update path.elem path.depth slot })

def parentName (name : List UInt8) : List UInt8 :=
  (name.reverse.dropWhile (· ≠ 46)).tail.reverse

/-- The last element stays in the array. -/
def makeParent (s : PathStore) (p : ℕ) : PathRet :=
  (s.path p).bind fun path =>
    if path.depth = 0 then some (.error .parentRoot, s)
    else
      match s.invalidate path with
      | none => some (.error .shared, s)
      | some (s, path) =>
        some (.ok 0, s.setPath p { path with
          depth := path.depth - 1
          name := parentName path.name })

/-- The copies made before the `i`-th one are released, the first one excepted. There is no result
when the count passes below zero. -/
def unwind (elem : ℕ → PathSlot) : ℕ → Memory UInt8 → Option (Memory UInt8)
  | 0, _ => none
  | 1, keys => some keys
  | i + 2, keys =>
    match (elem (i + 1)).indexKey with
    | none => unwind elem (i + 1) keys
    | some key => (keys.free key).bind (unwind elem (i + 1))

/-- The keys of the elements from the `i`-th one on are copied, for a number of elements. -/
def cloneKeys (src : ℕ → PathSlot) :
    ℕ → ℕ → (ℕ → PathSlot) → Memory UInt8 →
      Option (Except PathError (ℕ → PathSlot) × Memory UInt8)
  | 0, _, elem, keys => some (.ok elem, keys)
  | n + 1, i, elem, keys =>
    match (src i).indexKey with
    | none => cloneKeys src n (i + 1) elem keys
    | some key =>
      (keyText keys key).bind fun text =>
        match strdup keys text with
        | (keys, some copy) =>
          cloneKeys src n (i + 1)
            (Function.update elem i { src i with indexKey := some copy }) keys
        | (keys, none) => (unwind elem i keys).map fun keys => (.error (.code .enomem), keys)

def clone (s : PathStore) (p : ℕ) : PathRet :=
  (s.path p).bind fun src =>
    match s.keys.request sizeofIdmefPath with
    | (keys, false) => some (.error (.code .enomem), { s with keys })
    | (keys, true) =>
      (cloneKeys src.elem src.depth 0 src.elem keys).map fun
        | (.error err, keys) => (.error err, { s with keys })
        | (.ok elem, keys) => (.ok s.paths.length,
            { s with keys, paths := s.paths ++ [some { src with refcount := 1, elem }] })

end PathStore

end LibPrelude
