import LibPrelude.String.State

/-! # Setting additional data from a buffer

The value of an additional data is set from a buffer in three ways: the buffer is
referenced, copied, or given away. Each checks the length for the type, releases what the
object owned, and then records the type, the length and a pointer. Numbers, characters and
booleans are read from where the pointer is.
-/

namespace LibPrelude

/-- The numbers of the additional data types that the code names. -/
def typeString : ℤ := 0
def typeDateTime : ℤ := 3
def typePortlist : ℤ := 6
def typeXml : ℤ := 10

inductive DataType where
  | unknown
  | char
  | byte
  | uint32
  | int
  | float
  | charString
  | byteString
  | time
  deriving DecidableEq, Repr

structure TypeRow where
  dType : DataType
  len : ℕ
  deriving DecidableEq, Repr

/-- A row for each additional data type: string, byte, character, date-time, integer, ntpstamp,
portlist, real, boolean, byte-string and xml. -/
def idmefAdditionalDataTypeTable : List TypeRow :=
  [⟨.charString, 0⟩, ⟨.byte, 1⟩, ⟨.char, 1⟩, ⟨.charString, 0⟩, ⟨.int, 8⟩, ⟨.int, 8⟩,
    ⟨.charString, 0⟩, ⟨.float, 4⟩, ⟨.byte, 4⟩, ⟨.byteString, 0⟩, ⟨.charString, 0⟩]

def typeRow (type : ℤ) : Option TypeRow :=
  if type < 0 then none else idmefAdditionalDataTypeTable[type.toNat]?

def isText (type : ℤ) : Bool :=
  type = typeString || type = typeDateTime || type = typePortlist || type = typeXml

/-- Where the union of a data object points to, when it does: bytes, or a time. -/
inductive Address where
  | null
  | bytes (p : Ptr)
  | time (i : ℕ)
  deriving DecidableEq, Repr

/-- The union of a data object: eight bytes, or an address that fills them. -/
inductive DataUnion where
  | inline (bytes : List UInt8)
  | address (a : Address)
  deriving DecidableEq, Repr

/-- A data object and whether it owns what its address is of. -/
structure DataRecord where
  type : DataType
  len : ℕ
  data : DataUnion
  ownData : Bool
  deriving DecidableEq, Repr

structure AdditionalData where
  type : ℤ
  data : DataRecord
  deriving DecidableEq, Repr

/-- The blocks of bytes, and how often each time is referenced. -/
structure DataHeap where
  memory : ByteMemory
  times : List ℕ
  deriving DecidableEq, Repr

/-- What the bytes of an address are. -/
structure AddressLayout where
  bytes : Address → List UInt8
  length : ∀ a, (bytes a).length = 8

/-- Why a setter fails. -/
inductive SetterFailure where
  | generic (message : String)
  | allocation
  deriving DecidableEq, Repr

/-- There is no result when the last byte of a text cannot be read. -/
def checkType (m : ByteMemory) (type : ℤ) (buf : Ptr) (len : ℕ) :
    Option (Except SetterFailure Unit) :=
  match typeRow type with
  | none => some (.error (.generic "Invalid IDMEFAdditionalData type specified"))
  | some row =>
    if row.len ≠ 0 ∧ len > row.len then
      some (.error (.generic "Provided value length does not match specified type length"))
    else if row.len = 0 ∧ len < 1 then
      some (.error (.generic "Invalid value length for this type"))
    else if isText type then
      (m.load ⟨buf.block, buf.offset + (len - 1)⟩ 1).map fun last =>
        if last = [0] then .ok () else .error (.generic "String is not nul terminated")
    else some (.ok ())

def idmefAdditionalDataTypeToDataType (type : ℤ) : DataType :=
  match typeRow type with
  | none => .unknown
  | some row => row.dType

namespace DataRecord

def owned (d : DataRecord) : Option Ptr :=
  match d.type, d.ownData, d.data with
  | .charString, true, .address (.bytes p) => some p
  | .byteString, true, .address (.bytes p) => some p
  | _, _, _ => none

def ownedTime (d : DataRecord) : Option ℕ :=
  match d.type, d.ownData, d.data with
  | .time, true, .address (.time i) => some i
  | _, _, _ => none

end DataRecord

/-- Only the start of a live block can be released. -/
def idmefDataDestroyInternal (h : DataHeap) (d : DataRecord) : Option (DataHeap × DataRecord) :=
  match d.ownedTime, d.owned with
  | some i, _ => some ({ h with times := h.times.modify i (· - 1) }, d)
  | none, some p =>
    if p.offset = 0 then
      (h.memory.free p.block).map fun m =>
        ({ h with memory := m }, { d with data := .address .null })
    else none
  | none, none => some (h, d)

/-- The three ways in which a buffer is taken. -/
inductive PtrMode where
  | ref
  | dup
  | nodup
  deriving DecidableEq, Repr

structure SetterResult where
  heap : DataHeap
  ad : AdditionalData
  ret : Except SetterFailure Unit

def idmefDataSetPtrRefFast (h : DataHeap) (d : DataRecord) (type : DataType) (ptr : Ptr)
    (len : ℕ) : Option (DataHeap × DataRecord × Except SetterFailure Unit) := do
  let (h, d) ← idmefDataDestroyInternal h d
  return (h, { d with type := type, data := .address (.bytes ptr), len := len }, .ok ())

def idmefDataSetPtrDupFast (h : DataHeap) (d : DataRecord) (type : DataType) (ptr : Ptr)
    (len : ℕ) : Option (DataHeap × DataRecord × Except SetterFailure Unit) := do
  let (h, d) ← idmefDataDestroyInternal h d
  match h.memory.malloc len with
  | (m, none) => return ({ h with memory := m }, d, .error .allocation)
  | (m, some b) =>
    let m ← m.store ⟨b, 0⟩ (← m.load ptr len)
    return ({ h with memory := m },
      { type := type, data := .address (.bytes ⟨b, 0⟩), len := len, ownData := true }, .ok ())

def idmefDataSetPtrNodupFast (h : DataHeap) (d : DataRecord) (type : DataType) (ptr : Ptr)
    (len : ℕ) : Option (DataHeap × DataRecord × Except SetterFailure Unit) := do
  let (h, _) ← idmefDataDestroyInternal h d
  return (h, { type := type, data := .address (.bytes ptr), len := len, ownData := true }, .ok ())

def PtrMode.setData : PtrMode → DataHeap → DataRecord → DataType → Ptr → ℕ →
    Option (DataHeap × DataRecord × Except SetterFailure Unit)
  | ref => idmefDataSetPtrRefFast
  | dup => idmefDataSetPtrDupFast
  | nodup => idmefDataSetPtrNodupFast

/-- The functions `idmef_additional_data_set_ptr_ref_fast`, `.._dup_fast` and `.._nodup_fast`. -/
def idmefAdditionalDataSetPtr (mode : PtrMode) (h : DataHeap) (ad : AdditionalData) (type : ℤ)
    (ptr : Ptr) (len : ℕ) : Option SetterResult := do
  match ← checkType h.memory type ptr len with
  | .error e => return ⟨h, ad, .error e⟩
  | .ok () =>
    let (h, d, ret) ←
      mode.setData h ad.data (idmefAdditionalDataTypeToDataType type) ptr len
    return ⟨h, ⟨type, d⟩, ret⟩

inductive DataLocation where
  | nowhere
  | pointee (a : Address)
  | union
  deriving DecidableEq, Repr

def DataRecord.idmefGetData (d : DataRecord) : DataLocation :=
  match d.type with
  | .unknown => .nowhere
  | .charString | .byteString | .time =>
    match d.data with
    | .address a => .pointee a
    | .inline _ => .nowhere
  | _ => .union

def DataUnion.bytes (L : AddressLayout) : DataUnion → List UInt8
  | inline bytes => bytes
  | address a => L.bytes a

/-- The bytes that are read at what `idmef_data_get_data` returns, `idmef_data_get_len` of them. -/
def DataRecord.content (L : AddressLayout) (h : DataHeap) (d : DataRecord) : Option (List UInt8) :=
  match d.idmefGetData with
  | .pointee (.bytes p) => h.memory.load p d.len
  | .union => some ((d.data.bytes L).take d.len)
  | _ => none

def LengthValid (type : ℤ) (len : ℕ) : Prop :=
  ∃ row, typeRow type = some row ∧ if row.len = 0 then 1 ≤ len else len = row.len

/-- A setter that succeeds on a valid type and length leaves the content of the buffer to be read,
and it refuses other types and lengths with the object as it was. -/
def SetPtrFaithful (L : AddressLayout) (mode : PtrMode) (h : DataHeap) (ad : AdditionalData)
    (type : ℤ) (ptr : Ptr) (len : ℕ) (content : List UInt8) : Prop :=
  ∃ r, idmefAdditionalDataSetPtr mode h ad type ptr len = some r ∧
    (LengthValid type len → r.ret = .ok () → r.ad.data.content L r.heap = some content) ∧
    (¬ LengthValid type len → r.ret ≠ .ok () ∧ r.ad = ad)

namespace DataRecord

def Releasable (h : DataHeap) (d : DataRecord) : Prop :=
  ∀ p, d.owned = some p → p.offset = 0 ∧ ∃ bytes, h.memory.bytesAt p.block = some bytes

def Apart (d : DataRecord) (ptr : Ptr) : Prop := ∀ p, d.owned = some p → p.block ≠ ptr.block

end DataRecord

/-- The address that is stored: a copy is in the next block. -/
def PtrMode.target (mode : PtrMode) (h : DataHeap) (ptr : Ptr) : Ptr :=
  if mode = dup then ⟨h.memory.blocks.length, 0⟩ else ptr

def PtrMode.Refused (mode : PtrMode) (h : DataHeap) (len : ℕ) : Prop :=
  mode = dup ∧ (h.memory.request len).2 = false

/-- The types whose value is the memory pointed to. -/
def StringType (type : ℤ) : Prop := ∃ row, typeRow type = some row ∧ row.len = 0

/-- When a setter whose arguments pass the check does what it is for: what the object owns can be
released, and either no memory is given for the copy, or the length is valid, the buffer is read
before it is released, and a value that is not a string happens to be the bytes of the address. -/
def PointerSuffices (L : AddressLayout) (mode : PtrMode) (h : DataHeap) (ad : AdditionalData)
    (type : ℤ) (ptr : Ptr) (len : ℕ) (content : List UInt8) : Prop :=
  ad.data.Releasable h ∧
    ((mode.Refused h len ∧ (LengthValid type len ∨ type = ad.type ∧ ad.data.owned = none)) ∨
      ¬ mode.Refused h len ∧ LengthValid type len ∧
        (mode = .dup ∨ StringType type → ad.data.Apart ptr) ∧
        (¬ StringType type → (L.bytes (.bytes (mode.target h ptr))).take len = content))

section

variable {L : AddressLayout} {mode : PtrMode} {h h' : DataHeap} {ad : AdditionalData} {type : ℤ}
  {ptr : Ptr} {len : ℕ} {content : List UInt8} {d d' : DataRecord} {row : TypeRow}

theorem ownedTime_of_owned {p : Ptr} (hp : d.owned = some p) : d.ownedTime = none := by
  rcases d with ⟨type, len, data, own⟩
  cases type
  all_goals first | rfl | cases hp

theorem destroyInternal_none (hr : ¬ d.Releasable h) : idmefDataDestroyInternal h d = none := by
  simp only [DataRecord.Releasable, not_forall] at hr
  obtain ⟨p, hp, hbad⟩ := hr
  rw [idmefDataDestroyInternal, ownedTime_of_owned hp, hp]
  by_cases hzero : p.offset = 0
  · simp only [hzero, if_true, true_and, not_exists] at hbad ⊢
    rw [Memory.free]
    cases hb : h.memory.bytesAt p.block with
    | none => rfl
    | some bytes => exact absurd hb (hbad bytes)
  · simp only [hzero, if_false]

theorem destroyInternal_some (hr : d.Releasable h) :
    ∃ h' d', idmefDataDestroyInternal h d = some (h', d') ∧
      (∀ n, (h'.memory.request n).2 = (h.memory.request n).2) ∧
      h'.memory.blocks.length = h.memory.blocks.length ∧
      (∀ ptr, d.Apart ptr → h'.memory.load ptr = h.memory.load ptr) ∧
      (∀ ptr len, ¬ d.Apart ptr → h'.memory.load ptr len = none) ∧
      (d' = d ↔ d.owned = none) := by
  cases hp : d.owned with
  | none =>
    have hapart : ∀ ptr, d.Apart ptr := by
      intro ptr p h
      rw [hp] at h
      cases h
    rw [idmefDataDestroyInternal, hp]
    cases d.ownedTime with
    | none => exact ⟨h, d, rfl, fun _ => rfl, rfl, fun _ _ => rfl,
        fun ptr _ hn => absurd (hapart ptr) hn, by simp⟩
    | some i => exact ⟨_, d, rfl, fun _ => rfl, rfl, fun _ _ => rfl,
        fun ptr _ hn => absurd (hapart ptr) hn, by simp⟩
  | some p =>
    obtain ⟨hzero, bytes, hb⟩ := hr p hp
    have hfree : h.memory.free p.block = some (h.memory.setBlock p.block none) := by
      rw [Memory.free, hb, Option.map_some]
    refine ⟨{ h with memory := h.memory.setBlock p.block none },
      { d with data := .address .null }, ?_, fun _ => rfl, ?_, ?_, ?_, ?_⟩
    · rw [idmefDataDestroyInternal, ownedTime_of_owned hp, hp]
      simp only [hzero, if_true, hfree, Option.map_some]
    · simp [Memory.setBlock]
    · intro ptr hapart
      funext len
      have hne := hapart p hp
      rw [Memory.load, Memory.bytesAt_setBlock hb, Function.update_of_ne hne.symm, Memory.load]
    · intro ptr len hapart
      have heq : p.block = ptr.block := by
        by_contra hne
        exact hapart fun q hq => by rwa [← Option.some.inj (hp.symm.trans hq)]
      rw [Memory.load, Memory.bytesAt_setBlock hb, heq, Function.update_self, Option.bind_none]
    · constructor
      · intro heq
        rcases d with ⟨type, len, data, own⟩
        simp only [DataRecord.mk.injEq, true_and, and_true] at heq
        subst heq
        cases type
        all_goals cases own
        all_goals cases hp
      · intro hnone
        cases hnone

theorem dType_of_row (hrow : typeRow type = some row) :
    (row.len = 0 ∧ (row.dType = .charString ∨ row.dType = .byteString)) ∨
      (row.len ≠ 0 ∧ row.dType ∈ [.char, .byte, .int, .float]) := by
  unfold typeRow at hrow
  split at hrow
  · cases hrow
  · have hmem := List.mem_of_getElem? hrow
    have hall : idmefAdditionalDataTypeTable.all fun row =>
        (row.len = 0 ∧ (row.dType = .charString ∨ row.dType = .byteString)) ∨
          (row.len ≠ 0 ∧ row.dType ∈ [.char, .byte, .int, .float]) := by
      decide
    exact of_decide_eq_true (List.all_eq_true.mp hall row hmem)

theorem typeRow_text (hrow : typeRow type = some row) (htext : isText type = true) :
    row.len = 0 := by
  rw [isText, Bool.or_eq_true, Bool.or_eq_true, Bool.or_eq_true] at htext
  obtain ((h | h) | h) | h := htext
  all_goals obtain rfl := of_decide_eq_true h
  all_goals cases hrow
  all_goals rfl

theorem checkType_some (hbuf : h.memory.load ptr len = some content) :
    ∃ ret, checkType h.memory type ptr len = some ret ∧
      (ret = .ok () → ∃ row, typeRow type = some row) := by
  unfold checkType
  cases hrow : typeRow type with
  | none => exact ⟨_, rfl, fun h => by cases h⟩
  | some row =>
    simp only
    split_ifs with hlong hshort htext
    · exact ⟨_, rfl, fun _ => ⟨row, rfl⟩⟩
    · exact ⟨_, rfl, fun _ => ⟨row, rfl⟩⟩
    · have hpos : 0 < len := by
        by_contra hzero
        exact hshort ⟨typeRow_text hrow htext, by omega⟩
      obtain ⟨last, hlast⟩ := Memory.load_part hbuf (i := len - 1) (k := 1) (by omega)
      exact ⟨_, by rw [hlast, Option.map_some], fun _ => ⟨row, rfl⟩⟩
    · exact ⟨_, rfl, fun _ => ⟨row, rfl⟩⟩

theorem setData_refused {dt : DataType} (href : mode.Refused h len)
    (hd : idmefDataDestroyInternal h d = some (h', d'))
    (hreq : (h'.memory.request len).2 = (h.memory.request len).2) :
    ∃ h₁, mode.setData h d dt ptr len = some (h₁, d', .error .allocation) := by
  obtain ⟨rfl, hrefused⟩ := href
  have hmalloc : h'.memory.malloc len = ((h'.memory.request len).1, none) := by
    rw [Memory.malloc, show h'.memory.request len = ((h'.memory.request len).1, false) from
      Prod.ext rfl (hreq.trans hrefused)]
  refine ⟨{ h' with memory := (h'.memory.request len).1 }, ?_⟩
  simp only [PtrMode.setData, idmefDataSetPtrDupFast, hd, Option.bind_eq_bind, Option.bind_some,
    hmalloc]
  rfl

/-- A pointer to the buffer is stored whatever became of it. -/
theorem setData_pointer {dt : DataType} (hmode : mode ≠ .dup)
    (hd : idmefDataDestroyInternal h d = some (h', d')) :
    ∃ own, mode.setData h d dt ptr len =
      some (h', ⟨dt, len, .address (.bytes (mode.target h ptr)), own⟩, .ok ()) := by
  cases mode with
  | ref =>
    refine ⟨d'.ownData, ?_⟩
    simp only [PtrMode.setData, idmefDataSetPtrRefFast, hd, Option.bind_eq_bind, Option.bind_some]
    rfl
  | dup => exact absurd rfl hmode
  | nodup =>
    refine ⟨true, ?_⟩
    simp only [PtrMode.setData, idmefDataSetPtrNodupFast, hd, Option.bind_eq_bind,
      Option.bind_some]
    rfl

theorem malloc_granted {m : ByteMemory} {n : ℕ} (hreq : (m.request n).2 ≠ false) :
    ∃ m' b, m.malloc n = (m', some b) := by
  have htrue : (m.request n).2 = true := by simpa using hreq
  refine ⟨(m.request n).1.addBlock (List.replicate n m.junk), (m.request n).1.blocks.length, ?_⟩
  rw [Memory.malloc, show m.request n = ((m.request n).1, true) from Prod.ext rfl htrue]

theorem setData_dup {dt : DataType} (hreq : (h'.memory.request len).2 ≠ false)
    (hd : idmefDataDestroyInternal h d = some (h', d'))
    (hblocks : h'.memory.blocks.length = h.memory.blocks.length)
    (hload : h'.memory.load ptr len = some content) :
    ∃ h₁ own, PtrMode.dup.setData h d dt ptr len = some
        (h₁, ⟨dt, len, .address (.bytes (PtrMode.dup.target h ptr)), own⟩, .ok ()) ∧
      h₁.memory.load (PtrMode.dup.target h ptr) len = some content := by
  obtain ⟨m, b, hmalloc⟩ := malloc_granted hreq
  have hb := Memory.malloc_block hmalloc
  obtain ⟨bytes, hlive, -, hlen⟩ := Memory.load_eq_some hload
  obtain ⟨m₁, hstore, hread⟩ := Memory.load_malloc_store hmalloc hlen
  have hcopy : m.load ptr len = some content := by
    rw [Memory.load_malloc hmalloc (hb ▸ (Memory.lt_of_bytesAt hlive).ne), hload]
  have htarget : PtrMode.dup.target h ptr = ⟨b, 0⟩ := by
    rw [hb, hblocks]
    rfl
  refine ⟨{ h' with memory := m₁ }, true, ?_, by rwa [htarget]⟩
  simp only [PtrMode.setData, idmefDataSetPtrDupFast, hd, Option.bind_eq_bind, Option.bind_some,
    hmalloc, hcopy, hstore, htarget]
  rfl

theorem setData_dup_none {dt : DataType} (hreq : (h'.memory.request len).2 ≠ false)
    (hd : idmefDataDestroyInternal h d = some (h', d'))
    (hblock : ptr.block < h'.memory.blocks.length)
    (hload : h'.memory.load ptr len = none) : PtrMode.dup.setData h d dt ptr len = none := by
  obtain ⟨m, b, hmalloc⟩ := malloc_granted hreq
  have hb := Memory.malloc_block hmalloc
  have hcopy : m.load ptr len = none := by
    rw [Memory.load_malloc hmalloc (hb ▸ hblock.ne), hload]
  simp only [PtrMode.setData, idmefDataSetPtrDupFast, hd, Option.bind_eq_bind, Option.bind_some,
    hmalloc, hcopy, Option.bind_none]

theorem content_stored (hrow : typeRow type = some row) {own : Bool} {p : Ptr} :
    DataRecord.content L h ⟨row.dType, len, .address (.bytes p), own⟩ =
      if row.len = 0 then h.memory.load p len else some ((L.bytes (.bytes p)).take len) := by
  obtain ⟨hzero, htype⟩ | ⟨hne, htype⟩ := dType_of_row hrow
  · rw [if_pos hzero]
    obtain htype | htype := htype
    all_goals rw [htype]; rfl
  · rw [if_neg hne]
    simp only [List.mem_cons, List.not_mem_nil, or_false] at htype
    obtain htype | htype | htype | htype := htype
    all_goals rw [htype]; rfl

theorem stringType_iff (hrow : typeRow type = some row) : StringType type ↔ row.len = 0 := by
  constructor
  · rintro ⟨row', hrow', h⟩
    rwa [Option.some.inj (hrow.symm.trans hrow')]
  · intro h
    exact ⟨row, hrow, h⟩

theorem setPtr_checked (hcheck : checkType h.memory type ptr len = some (.ok ()))
    (hrow : typeRow type = some row) :
    idmefAdditionalDataSetPtr mode h ad type ptr len =
      (mode.setData h ad.data row.dType ptr len).map fun r => ⟨r.1, ⟨type, r.2.1⟩, r.2.2⟩ := by
  rw [idmefAdditionalDataSetPtr, hcheck, idmefAdditionalDataTypeToDataType, hrow]
  simp only [Option.bind_eq_bind, Option.bind_some]
  cases mode.setData h ad.data row.dType ptr len with
  | none => rfl
  | some r => rfl

theorem faithful_refused (hcheck : checkType h.memory type ptr len = some (.ok ()))
    (hrow : typeRow type = some row) (hr : ad.data.Releasable h) (href : mode.Refused h len) :
    SetPtrFaithful L mode h ad type ptr len content ↔
      LengthValid type len ∨ type = ad.type ∧ ad.data.owned = none := by
  obtain ⟨h', d', hd, hreq, -, -, -, hsame⟩ := destroyInternal_some hr
  obtain ⟨h₁, hset⟩ := @setData_refused _ _ _ ptr _ _ _ row.dType href hd (hreq len)
  have hobject : (⟨type, d'⟩ : AdditionalData) = ad ↔ type = ad.type ∧ ad.data.owned = none := by
    rcases ad with ⟨type', d⟩
    rw [AdditionalData.mk.injEq, hsame]
  rw [SetPtrFaithful, setPtr_checked hcheck hrow, hset]
  simp only [Option.map_some, Option.some.injEq, exists_eq_left', reduceCtorEq, false_implies,
    implies_true, true_and, ne_eq, not_false_eq_true, hobject]
  exact or_iff_not_imp_left.symm

theorem faithful_stored (hcheck : checkType h.memory type ptr len = some (.ok ()))
    (hrow : typeRow type = some row) {p : Ptr} {own : Bool}
    (hset : mode.setData h ad.data row.dType ptr len =
      some (h', ⟨row.dType, len, .address (.bytes p), own⟩, .ok ())) :
    SetPtrFaithful L mode h ad type ptr len content ↔
      LengthValid type len ∧ (StringType type → h'.memory.load p len = some content) ∧
        (¬ StringType type → (L.bytes (.bytes p)).take len = content) := by
  rw [SetPtrFaithful, setPtr_checked hcheck hrow, hset, stringType_iff hrow]
  simp only [Option.map_some, Option.some.injEq, exists_eq_left', content_stored hrow,
    ne_eq, not_true_eq_false, false_and, imp_false, not_not]
  by_cases hvalid : LengthValid type len
  · by_cases hzero : row.len = 0
    · simp [hvalid, hzero]
    · simp [hvalid, hzero]
  · simp [hvalid]

theorem faithful_granted (hcheck : checkType h.memory type ptr len = some (.ok ()))
    (hrow : typeRow type = some row) (hr : ad.data.Releasable h) (href : ¬ mode.Refused h len)
    (hbuf : h.memory.load ptr len = some content) :
    SetPtrFaithful L mode h ad type ptr len content ↔
      LengthValid type len ∧ (mode = .dup ∨ StringType type → ad.data.Apart ptr) ∧
        (¬ StringType type → (L.bytes (.bytes (mode.target h ptr))).take len = content) := by
  obtain ⟨h', d', hd, hreq, hblocks, hapart, hgone, -⟩ := destroyInternal_some hr
  have hload : h'.memory.load ptr len = some content ↔ ad.data.Apart ptr := by
    constructor
    · intro hsome
      by_contra hnot
      rw [hgone ptr len hnot] at hsome
      cases hsome
    · intro ha
      rw [hapart ptr ha, hbuf]
  by_cases hmode : mode = .dup
  · subst hmode
    have hgranted : (h'.memory.request len).2 ≠ false := by
      rw [hreq len]
      exact fun hrefused => href ⟨rfl, hrefused⟩
    by_cases ha : ad.data.Apart ptr
    · obtain ⟨h₁, own, hset, hread⟩ :=
        @setData_dup _ _ _ _ _ _ _ row.dType hgranted hd hblocks (hload.mpr ha)
      rw [faithful_stored hcheck hrow hset]
      simp only [hread, ha, implies_true, true_and]
    · obtain ⟨bytes, hlive, -⟩ := Memory.load_eq_some hbuf
      have hblock : ptr.block < h'.memory.blocks.length :=
        hblocks ▸ Memory.lt_of_bytesAt hlive
      rw [SetPtrFaithful, setPtr_checked hcheck hrow,
        setData_dup_none hgranted hd hblock (hgone ptr len ha)]
      simp [ha]
  · obtain ⟨own, hset⟩ := @setData_pointer _ h _ ptr len _ _ row.dType hmode hd
    have htarget : mode.target h ptr = ptr := if_neg hmode
    rw [faithful_stored hcheck hrow hset, htarget, hload]
    simp only [hmode, false_or]

end

/-- A setter given a buffer that can be read does what it is for just if the check refuses its
arguments, or a pointer serves as the value. -/
theorem set_ptr_faithful_iff (L : AddressLayout) (mode : PtrMode) (h : DataHeap)
    (ad : AdditionalData) (type : ℤ) (ptr : Ptr) (len : ℕ) (content : List UInt8)
    (hbuf : h.memory.load ptr len = some content) :
    SetPtrFaithful L mode h ad type ptr len content ↔
      checkType h.memory type ptr len ≠ some (.ok ()) ∨
        PointerSuffices L mode h ad type ptr len content := by
  obtain ⟨ret, hcheck, hpass⟩ := @checkType_some h type _ _ _ hbuf
  rcases ret with e | ⟨⟩
  · have hset : idmefAdditionalDataSetPtr mode h ad type ptr len = some ⟨h, ad, .error e⟩ := by
      rw [idmefAdditionalDataSetPtr, hcheck]
      rfl
    rw [SetPtrFaithful, hset, hcheck]
    simp
  · obtain ⟨row, hrow⟩ := hpass rfl
    by_cases hr : ad.data.Releasable h
    · by_cases href : mode.Refused h len
      · rw [faithful_refused hcheck hrow hr href]
        simp [PointerSuffices, hcheck, hr, href]
      · rw [faithful_granted hcheck hrow hr href hbuf]
        simp [PointerSuffices, hcheck, hr, href]
    · have hnone : mode.setData h ad.data row.dType ptr len = none := by
        have hd := destroyInternal_none hr
        cases mode
        all_goals
          simp only [PtrMode.setData, idmefDataSetPtrRefFast, idmefDataSetPtrDupFast,
            idmefDataSetPtrNodupFast, hd, Option.bind_eq_bind, Option.bind_none]
      rw [SetPtrFaithful, setPtr_checked hcheck hrow, hnone]
      simp [PointerSuffices, hcheck, hr]

/-- Addresses of 64 bits, least significant byte first. -/
def littleEndian : AddressLayout where
  bytes
    | .null => Bytes.leBytes 8 0
    | .bytes p => Bytes.leBytes 8 (0x10000 * (p.block + 1) + p.offset)
    | .time i => Bytes.leBytes 8 (0x7f0000000000 + 16 * i)
  length a := by cases a <;> exact Bytes.length_leBytes 8 _

def AdditionalData.new : AdditionalData :=
  ⟨0, ⟨.unknown, 0, .inline [0, 0, 0, 0, 0, 0, 0, 0], false⟩⟩

theorem set_ptr_faithful_string :
    SetPtrFaithful littleEndian .dup ⟨⟨[some [97, 0]], [], 100, 0⟩, []⟩ .new typeString ⟨0, 0⟩ 2
      [97, 0] := by
  refine (set_ptr_faithful_iff _ _ _ _ _ _ _ _ rfl).mpr (Or.inr ⟨?_, Or.inr ⟨?_, ?_, ?_, ?_⟩⟩)
  · intro p hp
    cases hp
  · exact fun href => absurd href.2 (by decide)
  · exact ⟨⟨.charString, 0⟩, rfl, by decide⟩
  · intro _ p hp
    cases hp
  · exact fun hnot => absurd ⟨⟨.charString, 0⟩, rfl, rfl⟩ hnot

/-- The integer 42 is read as the address of the buffer it was set from. -/
theorem set_ptr_faithful_integer :
    ¬ SetPtrFaithful littleEndian .ref ⟨⟨[some [42, 0, 0, 0, 0, 0, 0, 0]], [], 100, 0⟩, []⟩ .new 4
      ⟨0, 0⟩ 8 [42, 0, 0, 0, 0, 0, 0, 0] := by
  rintro ⟨r, hr, hvalue, -⟩
  cases hr
  have h := hvalue ⟨⟨.int, 8⟩, rfl, rfl⟩ rfl
  revert h
  decide

end LibPrelude
