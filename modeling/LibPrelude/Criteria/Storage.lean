import LibPrelude.General.Blocks
import LibPrelude.Criteria.Value
import LibPrelude.Idmef.Clone

/-! # The storage of criteria

Criteria are nodes, paths and values, each in blocks of its own. A clone has new nodes,
paths and values, but the regular expression or the broken-down time of a value is
shared with the original, which alone releases it. A function has no result when it uses
a block that is not there.
-/

namespace LibPrelude

/-- A path; the cache has a reference to every path but the clones. -/
structure StoredPath where
  block : ℕ
  keys : List ℕ
  path : IdmefPath
  cached : Bool

inductive CriterionContent where
  | value (v : StoredValue)
  | regex (pattern : List UInt8) (nocase : Bool)
  | btime (tm : Tm)

/-- The value of a criterion, and the blocks that its pointer leads to. -/
structure StoredCriterionValue where
  block : ℕ
  content : CriterionContent
  storage : List ℕ
  valueNeedFree : Bool

inductive StoredCriteria where
  | criterion (block : ℕ) (path : StoredPath) (value : Option StoredCriterionValue)
      (operator : Operator)
  | not (block : ℕ) (right : StoredCriteria)
  | binary (block : ℕ) (c : Connective) (left right : StoredCriteria)

/-- The keys of a path are texts of their own. -/
def keyCount (path : IdmefPath) : ℕ := (path.elements.filter fun e => e.key.isSome).length

mutual

/-- A value and its data, or a list with its slots and elements. -/
def StoredValue.blockCount : StoredValue → ℕ
  | .scalar _ => 1
  | .list elems _ _ => 2 + elementBlocks elems

def elementBlocks : List (Option StoredValue) → ℕ
  | [] => 0
  | none :: vs => elementBlocks vs
  | some v :: vs => v.blockCount + elementBlocks vs

end

/-- A regular expression is its structure, its text and what it was compiled to. -/
def CriterionContent.blockCount : CriterionContent → ℕ
  | .value v => v.blockCount
  | .regex _ _ => 3
  | .btime _ => 1

section

variable (now : IdmefTime)

mutual

def storedValueClone : StoredValue → Blocks →
    Option (Except ErrorCode (StoredValue × List ℕ) × Blocks)
  | .scalar v, h => some (.ok (.scalar (idmefValueTypeClone now v), [h.alloc.1]), h.alloc.2)
  | .list elems listMax _, h =>
    match storedListClone elems h.alloc.2.alloc.2 with
    | none => none
    | some (.ok elems', h') =>
      some (.ok (.list elems' listMax (elems.length + 1), [h.alloc.1, h.alloc.2.alloc.1]), h')
    | some (.error err, h') =>
      (h'.frees [h.alloc.2.alloc.1, h.alloc.1]).map fun h' => (.error err, h')

/-- The loop over the elements of a list, which it leaves at the first that is there; what was
cloned of it stays behind. -/
def storedListClone : List (Option StoredValue) → Blocks →
    Option (Except ErrorCode (List (Option StoredValue)) × Blocks)
  | [], h => some (.ok [], h)
  | none :: vs, h => (storedListClone vs h).map fun r => (r.1.map (none :: ·), r.2)
  | some v :: _, h => (storedValueClone v h).map fun r => (.error .generic, r.2)

end

def storedPathClone (src : StoredPath) (h : Blocks) : Option (StoredPath × Blocks) :=
  if h.has (src.block :: src.keys) then
    let keys := h.alloc.2.allocs src.keys.length
    some (⟨h.alloc.1, keys.1, src.path, false⟩, keys.2)
  else none

/-- The keys of a path are not released. -/
def storedPathDestroy (path : StoredPath) (h : Blocks) : Option Blocks := h.free path.block

def criterionValueClone (src : StoredCriterionValue) (h : Blocks) :
    Option (Except ErrorCode StoredCriterionValue × Blocks) :=
  if ¬ h.has [src.block] then none
  else
    match src.content with
    | .value v =>
      if ¬ h.has src.storage then none
      else
        match storedValueClone now v h.alloc.2 with
        | none => none
        | some (.ok (v', blocks), h') => some (.ok ⟨h.alloc.1, .value v', blocks, true⟩, h')
        | some (.error err, h') => (h'.free h.alloc.1).map fun h' => (.error err, h')
    | content => some (.ok ⟨h.alloc.1, content, src.storage, false⟩, h.alloc.2)

/-- Whether the value releases what its pointer leads to. -/
def StoredCriterionValue.owns (value : StoredCriterionValue) : Bool :=
  match value.content with
  | .value _ => true
  | _ => value.valueNeedFree

def criterionValueDestroy (value : StoredCriterionValue) (h : Blocks) : Option Blocks :=
  (if value.owns then h.frees value.storage else some h).bind (·.free value.block)

namespace StoredCriteria

def isCriterion : StoredCriteria → Bool
  | criterion _ _ _ _ => true
  | _ => false

def destroy : StoredCriteria → Blocks → Option Blocks
  | criterion block path value _, h =>
    ((storedPathDestroy path h).bind fun h =>
      match value with
      | none => some h
      | some value => criterionValueDestroy value h).bind (·.free block)
  | not block right, h => (right.destroy h).bind (·.free block)
  | binary block _ left right, h =>
    ((left.destroy h).bind right.destroy).bind (·.free block)

/-- A criterion without a value is made for the operators that need none; the error of the others
destroys the absent value. -/
def newClone (path : StoredPath) (value : Option StoredCriterionValue) (op : Operator)
    (h : Blocks) : Option (Except ErrorCode StoredCriteria × Blocks) :=
  if value.isNone ∧ ¬ op.null then none
  else some (.ok (criterion h.alloc.1 path value op), h.alloc.2)

/-- What a failed clone of a part releases: the new node, whose pointer to the part is null when the
part is a criterion and else leads to a node that was released before. -/
def cloneFailed (part : StoredCriteria) (block : ℕ) (err : ErrorCode) (h : Blocks) :
    Option (Except ErrorCode StoredCriteria × Blocks) :=
  if part.isCriterion then (h.free block).map fun h => (.error err, h) else none

def clone : StoredCriteria → Blocks → Option (Except ErrorCode StoredCriteria × Blocks)
  | criterion block path value op, h =>
    if ¬ h.has [block] then none
    else
      (storedPathClone path h).bind fun p =>
        match value with
        | none => newClone p.1 none op p.2
        | some value =>
          (criterionValueClone now value p.2).bind fun
            | (.ok v, h) => newClone p.1 (some v) op h
            | (.error err, h) => (storedPathDestroy p.1 h).map fun h => (.error err, h)
  | not block right, h =>
    if ¬ h.has [block] then none
    else
      (right.clone h.alloc.2).bind fun
        | (.ok right', h') => some (.ok (not h.alloc.1 right'), h')
        | (.error err, h') => right.cloneFailed h.alloc.1 err h'
  | binary block c left right, h =>
    if ¬ h.has [block] then none
    else
      (left.clone h.alloc.2).bind fun
        | (.error err, h') => left.cloneFailed h.alloc.1 err h'
        | (.ok left', h') =>
          (right.clone h').bind fun
            | (.ok right', h') => some (.ok (binary h.alloc.1 c left' right'), h')
            | (.error err, h') => (left'.destroy h').bind (right.cloneFailed h.alloc.1 err)

/-- The blocks that are read when a message is matched with a criterion. -/
def criterionReads (block : ℕ) (path : StoredPath) (value : Option StoredCriterionValue) : List ℕ :=
  block :: path.block :: (path.keys ++ value.elim [] fun v => v.block :: v.storage)

/-- Match a message, given the results of criteria. -/
def «match» (results : Criterion IdmefPath CriterionContent → Except ErrorCode Bool) (h : Blocks) :
    StoredCriteria → Option (Except ErrorCode Bool)
  | criterion block path value op =>
    if h.has (criterionReads block path value) then
      some (results ⟨path.path, value.map StoredCriterionValue.content, op⟩)
    else none
  | not block right =>
    if h.has [block] then (right.match results h).map Formula.lenient else none
  | binary block .and left right =>
    if h.has [block] then
      match left.match results h with
      | some (.ok true) => right.match results h
      | r => r
    else none
  | binary block .or left right =>
    if h.has [block] then
      match left.match results h with
      | some (.ok false) => right.match results h
      | r => r
    else none

def formula : StoredCriteria → Formula (Criterion IdmefPath CriterionContent)
  | criterion _ path value op =>
    .atom ⟨path.path, value.map StoredCriterionValue.content, op⟩
  | not _ right => .not right.formula
  | binary _ c left right => c.join left.formula right.formula

/-- The criteria with the root in another block. -/
def moveTo (block : ℕ) : StoredCriteria → StoredCriteria
  | criterion _ path value op => criterion block path value op
  | not _ right => not block right
  | binary _ c left right => binary block c left right

def root : StoredCriteria → ℕ
  | criterion block _ _ _ | not block _ | binary block _ _ _ => block

end StoredCriteria

end

end LibPrelude
