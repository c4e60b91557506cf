import LibPrelude.General.Memory
import LibPrelude.Message.Basic

/-! # String objects

A string object refers to a buffer that it owns or borrows. The functions here
work on one object and the memory around it; they have no result where the
source leaves the memory it may touch, or meets undefined behaviour.
-/

namespace LibPrelude

def bufferChunkSize : ℕ := 16

/-- No block is larger than the address space of the processors the library runs on. -/
def addressSpace : ℕ := 2 ^ 48

def intMax : ℕ := 2 ^ 31 - 1

def sizeRange : ℕ := 2 ^ 64

def sizeMinus (a b : ℕ) : ℕ := (a + sizeRange - b) % sizeRange

/-- The double closest to a whole number; a tie goes to the even one. -/
def nearestDouble (n : ℕ) : ℕ :=
  if n < 2 ^ 53 then n
  else
    let unit := 2 ^ (n.log2 - 52)
    let q := n / unit
    if unit < 2 * (n % unit) ∨ unit = 2 * (n % unit) ∧ q % 2 = 1 then (q + 1) * unit
    else q * unit

abbrev ByteMemory := Memory UInt8

structure StringObject where
  ownStructure : Bool
  ownData : Bool
  refcount : ℕ
  data : Option Ptr
  size : ℕ
  index : ℕ
  deriving DecidableEq, Repr

/-- What an operation on one string leaves, and the value it returns. -/
structure StringCallResult where
  memory : ByteMemory
  object : StringObject
  ret : Except ErrorCode ℕ
  deriving DecidableEq, Repr

open Bytes (load store)

def strlen (str : List UInt8) : Option ℕ :=
  if 0 ∈ str then some (str.takeWhile (· ≠ 0)).length else none

/-- The byte at `len` must be readable; the error is the one of the check that fails. -/
def stringReturnIfInvalid (last : Option (List UInt8)) (len : ℕ) : Option (Except ErrorCode Unit) :=
  if sizeRange ≤ len + 1 then some (.error .invalLength)
  else last.map fun bytes =>
    if bytes = [0] then .ok () else .error .stringNotNulTerminated

namespace StringObject

variable (m : ByteMemory) (s : StringObject)

def stringBufAlloc (len : ℕ) : StringCallResult :=
  match m.malloc (len + 1) with
  | (m, none) => ⟨m, { s with data := none }, .error .enomem⟩
  | (m, some b) => ⟨m, { s with data := some ⟨b, 0⟩, index := len, size := len + 1 }, .ok 0⟩

/-- The assertion aborts when the text does not fit. -/
def stringBufCopy (buf : List UInt8) (len : ℕ) : Option ByteMemory :=
  if len < s.size then do
    let text ← load buf 0 len
    m.store (← s.data) (text ++ [0])
  else none

def makeStringOwn (len : ℕ) : Option StringCallResult :=
  match m.malloc len with
  | (m, none) => some ⟨m, s, .error .enomem⟩
  | (m, some b) => do
    let m ← match s.data with
      | none => some m
      | some p => do m.store ⟨b, 0⟩ (← m.load p (s.index + 1))
    return ⟨m, { s with size := len, data := some ⟨b, 0⟩, ownData := true }, .ok 0⟩

/-- The bytes to add, computed with a double; a double out of range has no `size_t` value. -/
def growth (needed : ℕ) : Option ℕ :=
  if needed = 0 then some bufferChunkSize
  else
    let missing := nearestDouble (sizeMinus needed (sizeMinus s.size s.index))
    let len := if 3 * s.size < 2 * missing then missing else 3 * s.size / 2
    if len < sizeRange then some len else none

/-- Only the start of a block can be moved or released. -/
def reallocData (n : ℕ) : Option (ByteMemory × Option ℕ) :=
  match s.data with
  | none => some (m.malloc n)
  | some p => if p.offset = 0 then m.realloc p.block n else none

def allocateMoreChunkIfNeeded (needed : ℕ) : Option StringCallResult := do
  let len ← s.growth needed
  if sizeRange ≤ s.size + len then
    return ⟨m, s, .error .invalLength⟩
  else if s.ownData then
    match ← s.reallocData m (s.size + len) with
    | (m, none) => return ⟨m, s, .error .enomem⟩
    | (m, some b) => return ⟨m, { s with size := s.size + len, data := some ⟨b, 0⟩ }, .ok 0⟩
  else
    s.makeStringOwn m (s.size + len)

def position (n : ℕ) : Option Ptr := s.data.map fun p => ⟨p.block, p.offset + n⟩

/-- Make room for `needed` more bytes, and go on unless that fails. -/
def growThen (needed : ℕ) (next : ByteMemory → StringObject → Option StringCallResult) :
    Option StringCallResult := do
  let r ← s.allocateMoreChunkIfNeeded m needed
  match r.ret with
  | .error _ => return r
  | .ok _ => next r.memory r.object

/-- Append `len` bytes of `str`; `depth` bounds the recursion. -/
def ncat : ℕ → ByteMemory → StringObject → List UInt8 → ℕ → Option StringCallResult
  | 0, _, _, _, _ => none
  | depth + 1, m, s, str, len =>
    if s.ownData ∧ len < sizeMinus s.size s.index then do
      let text ← load str 0 len
      let m ← m.store (← s.position s.index) (text ++ [0])
      return ⟨m, { s with index := s.index + len }, .ok len⟩
    else if sizeRange ≤ len + 1 then
      some ⟨m, s, .error .invalLength⟩
    else
      s.growThen m (len + 1) fun m s => ncat depth m s str len

/-- `vsnprintf` of a format that expands to `text`, into `room` bytes. The value is negative for
a text longer than an `int` can tell. -/
def vsnprintf (p : Option Ptr) (room : ℕ) (text : List UInt8) :
    Option (ByteMemory × Option ℕ) := do
  let m ← if room = 0 then some m else m.store (← p) (text.take (room - 1) ++ [0])
  return (m, if text.length ≤ intMax then some text.length else none)

/-- Print at the end of the text, or grow the buffer and go on when it is too small. -/
def printText (text : List UInt8)
    (again : ByteMemory → StringObject → Option StringCallResult) :
    Option StringCallResult := do
  let room := sizeMinus s.size s.index
  match ← vsnprintf m (s.position s.index) room text with
  | (m, none) => s.growThen m 0 again
  | (m, some n) =>
    if n < room then return ⟨m, { s with index := s.index + n }, .ok n⟩
    -- `ret + 1` is computed in an `int`
    else if n = intMax then none
    else s.growThen m (n + 1) again

/-- The format expands to `text`; `depth` bounds the recursion. -/
def vprintf : ℕ → ByteMemory → StringObject → List UInt8 → Option StringCallResult
  | 0, _, _, _ => none
  | depth + 1, m, s, text =>
    if s.ownData then s.printText m text fun m s => vprintf depth m s text
    else s.growThen m 0 fun m s => s.printText m text fun m s => vprintf depth m s text

def truncate (len : ℕ) : Option StringCallResult :=
  if s.index < len then some ⟨m, s, .error .assertion⟩
  else do
    let r ← if len ≠ 0 ∧ s.ownData = false then s.makeStringOwn m 0 else some ⟨m, s, .ok 0⟩
    match r.ret with
    | .error _ => return r
    | .ok _ =>
      let m ← match r.object.position len with
        | none => some r.memory
        | some p => r.memory.store p [0]
      return ⟨m, { r.object with index := len }, .ok 0⟩

/-- An owned buffer is released; only the start of a block can be. -/
def freeData : Option ByteMemory :=
  if s.ownData then
    match s.data with
    | none => some m
    | some p => if p.offset = 0 then m.free p.block else none
  else some m

def destroyInternal : Option (ByteMemory × StringObject) :=
  (s.freeData m).map fun m => (m, { s with data := none, index := 0, size := 0 })

/-- What the constructor and the setter that copy a text have in common. -/
def dupText (str : List UInt8) (len : ℕ) : Option StringCallResult :=
  let r := s.stringBufAlloc m len
  match r.ret with
  | .error _ => some r
  | .ok _ => do
    let m ← r.object.stringBufCopy r.memory str len
    return ⟨m, { r.object with ownData := true }, .ok 0⟩

def setDupFast (str : List UInt8) (len : ℕ) : Option StringCallResult := do
  match ← stringReturnIfInvalid (load str len 1) len with
  | .error e => return ⟨m, s, .error e⟩
  | .ok _ =>
    let (m, s) ← s.destroyInternal m
    s.dupText m str len

def nodupText (b len : ℕ) : StringObject :=
  { s with index := len, size := len + 1, data := some ⟨b, 0⟩, ownData := true }

def setNodupFast (b len : ℕ) : Option StringCallResult := do
  match ← stringReturnIfInvalid (m.load ⟨b, len⟩ 1) len with
  | .error e => return ⟨m, s, .error e⟩
  | .ok _ =>
    let (m, s) ← s.destroyInternal m
    return ⟨m, s.nodupText b len, .ok 0⟩

/-- The string borrows the text at `p`. -/
def refText (p : Ptr) (len : ℕ) : StringObject :=
  { s with index := len, size := len + 1, data := some p }

def setRefFast (p : Ptr) (len : ℕ) : Option StringCallResult := do
  match ← stringReturnIfInvalid (m.load ⟨p.block, p.offset + len⟩ 1) len with
  | .error e => return ⟨m, s, .error e⟩
  | .ok _ =>
    let (m, s) ← s.destroyInternal m
    return ⟨m, { s.refText p len with ownData := false }, .ok 0⟩

/-- What the copy and the clone have in common: a buffer of the size of the source's. -/
def duplicate (src : StringObject) : Option StringCallResult :=
  let s := { s with size := src.size, index := src.index, ownData := true }
  if src.size = 0 then some ⟨m, s, .ok 0⟩
  else
    match m.malloc src.size with
    | (m, none) => some ⟨m, s, .error .enomem⟩
    | (m, some b) => do
      let s := { s with data := some ⟨b, 0⟩ }
      let m ← s.stringBufCopy m (← m.load (← src.data) src.index) src.index
      return ⟨m, s, .ok 0⟩

/-- The text handed to the caller, a null pointer when there is none. -/
def getStringReleased : Option (StringCallResult × Option ℕ) :=
  if s.index = 0 then some (⟨m, s, .ok 0⟩, none)
  else if s.ownData then
    if sizeRange ≤ s.index + 1 then some (⟨m, s, .error .invalLength⟩, none)
    else do
      match ← s.reallocData m (s.index + 1) with
      | (m, none) => return (⟨m, s, .error .enomem⟩, none)
      | (m, some b) => return (⟨m, { s with size := 0, index := 0, data := none }, .ok 0⟩, some b)
  else do
    let p ← s.data
    let bytes := (← m.bytesAt p.block).drop p.offset
    let len ← strlen bytes
    match m.malloc (len + 1) with
    | (m, none) => return (⟨m, s, .error .enomem⟩, none)
    | (m, some b) => return (⟨← m.store ⟨b, 0⟩ (bytes.take (len + 1)), s, .ok 0⟩, some b)

end StringObject

end LibPrelude
