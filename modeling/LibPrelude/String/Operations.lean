import LibPrelude.String.State

/-! # Calls on strings

The string objects of a program share one memory. Some of its blocks are the
caller's: the buffers that strings are made of, and the texts handed back.
-/

namespace LibPrelude

/-- The size of the structure behind a string. -/
def stringStructureSize : ℕ := 64

/-- A string is named by its position; there is no object after the structure has been freed. -/
structure StringWorld where
  memory : ByteMemory
  strings : List (Option StringObject)
  caller : List ℕ
  deriving DecidableEq, Repr

abbrev StringCallRet := Option (StringWorld × Except ErrorCode ℕ)

/-- The recursions of `ncat` and `vprintf` grow the buffer each time. -/
def callDepth : ℕ := addressSpace

namespace StringWorld

open Bytes (load)

variable (w : StringWorld)

def object (i : ℕ) : Option StringObject := (w.strings[i]?).join

def setObject (i : ℕ) (s : Option StringObject) : StringWorld :=
  { w with strings := w.strings.set i s }

/-- Call a function on one string. -/
def on (i : ℕ) (f : ByteMemory → StringObject → Option StringCallResult) : StringCallRet := do
  let r ← f w.memory (← w.object i)
  return ({ w with memory := r.memory }.setObject i (some r.object), r.ret)

def buffer (bytes : List UInt8) : StringWorld :=
  { w with
    memory := w.memory.addBlock bytes
    caller := w.caller ++ [w.memory.blocks.length] }

def freshString : StringObject := ⟨true, false, 1, none, 0, 0⟩

def preludeStringNew : StringWorld × Option ℕ :=
  match w.memory.request stringStructureSize with
  | (m, true) =>
    ({ w with memory := m, strings := w.strings ++ [some freshString] }, some w.strings.length)
  | (m, false) => ({ w with memory := m }, none)

def creating (f : StringWorld → ℕ → StringCallRet) : StringCallRet :=
  match w.preludeStringNew with
  | (w, none) => some (w, .error .enomem)
  | (w, some i) => f w i

def newDupFast (str : List UInt8) (len : ℕ) : StringCallRet := do
  match ← stringReturnIfInvalid (load str len 1) len with
  | .error e => return (w, .error e)
  | .ok _ => w.creating fun w i => w.on i fun m s => s.dupText m str len

def newNodupFast (b len : ℕ) : StringCallRet := do
  match ← stringReturnIfInvalid (w.memory.load ⟨b, len⟩ 1) len with
  | .error e => return (w, .error e)
  | .ok _ => w.creating fun w i =>
    { w with caller := w.caller.erase b }.on i fun m s => some ⟨m, s.nodupText b len, .ok 0⟩

def newRefFast (p : Ptr) (len : ℕ) : StringCallRet := do
  match ← stringReturnIfInvalid (w.memory.load ⟨p.block, p.offset + len⟩ 1) len with
  | .error e => return (w, .error e)
  | .ok _ => w.creating fun w i => w.on i fun m s => some ⟨m, s.refText p len, .ok 0⟩

def preludeStringRef (i : ℕ) : StringCallRet :=
  w.on i fun m s => some ⟨m, { s with refcount := s.refcount + 1 }, .ok 0⟩

def preludeStringDestroy (i : ℕ) : StringCallRet := do
  let s ← w.object i
  let s : StringObject := { s with refcount := s.refcount - 1 }
  if s.refcount ≠ 0 then
    return (w.setObject i (some s), .ok 0)
  else
    let (m, s) ← s.destroyInternal w.memory
    return ({ w with memory := m }.setObject i (if s.ownStructure then none else some s), .ok 0)

def preludeStringClone (src : ℕ) : StringCallRet := do
  let s ← w.object src
  w.creating fun w i => do
    let (w, ret) ← w.on i fun m d => d.duplicate m s
    match ret with
    | .error e => return ((← w.preludeStringDestroy i).1, .error e)
    | .ok n => return (w, .ok n)

/-- Destroy what a string holds; `prelude_string_destroy_internal`. -/
def emptied (i : ℕ) : Option StringWorld := do
  let (m, s) ← (← w.object i).destroyInternal w.memory
  return { w with memory := m }.setObject i (some s)

def copyRef (src dst : ℕ) : StringCallRet := do
  let w ← w.emptied dst
  let s ← w.object src
  w.on dst fun m d =>
    some ⟨m, { d with size := s.size, index := s.index, data := s.data, ownData := false }, .ok 0⟩

def copyDup (src dst : ℕ) : StringCallRet := do
  let w ← w.emptied dst
  let s ← w.object src
  w.on dst fun m d => d.duplicate m s

/-- The block is handed over, unless the setter refuses it. -/
def setNodupFast (i b len : ℕ) : StringCallRet := do
  let (w, ret) ← w.on i fun m s => s.setNodupFast m b len
  match ret with
  | .error e => return (w, .error e)
  | .ok n => return ({ w with caller := w.caller.erase b }, .ok n)

def getStringReleased (i : ℕ) : StringCallRet := do
  let (r, out) ← (← w.object i).getStringReleased w.memory
  return (
    { w with memory := r.memory, caller := w.caller ++ out.toList }.setObject i (some r.object),
    r.ret)

end StringWorld

/-- The calls of the library. The functions without a length pass `strlen` of their text, and
`prelude_string_cat` is `prelude_string_ncat` in the same way. -/
inductive StringCall where
  | buffer (bytes : List UInt8)
  | new
  | newDupFast (str : List UInt8) (len : ℕ)
  | newNodupFast (b len : ℕ)
  | newRefFast (p : Ptr) (len : ℕ)
  | ref (i : ℕ)
  | clone (src : ℕ)
  | setDupFast (i : ℕ) (str : List UInt8) (len : ℕ)
  | setNodupFast (i b len : ℕ)
  | setRefFast (i : ℕ) (p : Ptr) (len : ℕ)
  | copyRef (src dst : ℕ)
  | copyDup (src dst : ℕ)
  | ncat (i : ℕ) (str : List UInt8) (len : ℕ)
  | vprintf (i : ℕ) (text : List UInt8)
  | truncate (i len : ℕ)
  | clear (i : ℕ)
  | getStringReleased (i : ℕ)
  | destroy (i : ℕ)
  deriving DecidableEq, Repr

namespace StringWorld

variable (w : StringWorld)

/-- One call; there is no result when it meets undefined behaviour. -/
def call : StringCall → StringCallRet
  | .buffer bytes => some (w.buffer bytes, .ok 0)
  | .new => w.creating fun w _ => some (w, .ok 0)
  | .newDupFast str len => w.newDupFast str len
  | .newNodupFast b len => w.newNodupFast b len
  | .newRefFast p len => w.newRefFast p len
  | .ref i => w.preludeStringRef i
  | .clone src => w.preludeStringClone src
  | .setDupFast i str len => w.on i fun m s => s.setDupFast m str len
  | .setNodupFast i b len => w.setNodupFast i b len
  | .setRefFast i p len => w.on i fun m s => s.setRefFast m p len
  | .copyRef src dst => w.copyRef src dst
  | .copyDup src dst => w.copyDup src dst
  | .ncat i str len => w.on i fun m s => s.ncat callDepth m str len
  | .vprintf i text => w.on i fun m s => s.vprintf callDepth m text
  | .truncate i len => w.on i fun m s => s.truncate m len
  | .clear i => w.on i fun m s => s.truncate m 0
  | .getStringReleased i => w.getStringReleased i
  | .destroy i => w.preludeStringDestroy i

end StringWorld

end LibPrelude
