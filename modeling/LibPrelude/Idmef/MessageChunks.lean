import LibPrelude.Idmef.MessageWrite

/-! # The chunks of an IDMEF message

What the writer makes of an object is a list of chunks, and writing puts them into the
message buffer one after the other, whatever the buffer flushes on the way.
-/

namespace LibPrelude

open Bytes

namespace IdmefMessage

abbrev WireChunk := UInt8 × List UInt8

section Chunks

variable (order : ByteOrder)

/-- The bytes of the second chunk of data. -/
def dataBytes : IdmefData → List UInt8
  | .unknown => []
  | .immediate .char bytes | .immediate .byte bytes => represent .big 1 ((bytes.headD 0).toNat : ℤ)
  | .immediate .uint32 bytes | .immediate .float bytes =>
    represent .big 4 (hostNumber order bytes)
  | .immediate .int bytes => represent .big 8 (hostNumber order bytes)
  | .charString bytes | .byteString bytes => bytes
  | .time t => timeBytes t

def primChunks (p : Prim) (tag : UInt8) : List WireChunk :=
  match p with
  | .string s => if preludeStringIsEmpty s then [] else [(tag, s.buf.getD [] ++ [0])]
  | .time t => [(tag, timeBytes t)]
  | .data .unknown => []
  | .data d => [(tag, represent .big 4 d.type.number), (tag, dataBytes order d)]

def wireSize : IdmefValueTypeId → Option ℕ
  | .uint8 => some 1
  | .uint16 => some 2
  | .int32 => some 4
  | .uint32 => some 4
  | .uint64 => some 8
  | _ => none

def scalarChunks (type : FieldType) (isSet : Bool) (val : ℤ) (tag : UInt8) : List WireChunk :=
  match type with
  | .optionalInt t =>
    if isSet then (wireSize t).toList.map fun size => (tag, represent .big size val) else []
  | .optionalEnum _ => if isSet then [(tag, represent .big 4 val)] else []
  | .enum _ | .float => [(tag, represent .big 4 val)]
  | _ => []

mutual

def objChunks (id : Option UInt8) : Obj → List WireChunk
  | .prim _ p => id.elim [] (primChunks order p)
  | .struct cls _ fs =>
    cls.tag.toList.map (fun tag => (tag, [])) ++
      (fieldsChunks cls.wireFields fs ++ [(idmefMsgEndOfTag, [])])

def fieldsChunks : List WireField → List Field → List WireChunk
  | d :: ds, f :: fs => fieldChunks d f ++ fieldsChunks ds fs
  | _, _ => []

def fieldChunks (d : WireField) : Field → List WireChunk
  | .scalar isSet val => d.2.elim [] (scalarChunks d.1.type isSet val)
  | .ptr none => []
  | .ptr (some o) => objChunks d.2 o
  | .list l => listChunks d.2 l
  | .union _ none => []
  | .union var (some o) =>
    match d.1.type with
    | .union members => if members.any fun m => m.value = var then objChunks d.2 o else []
    | _ => []

def listChunks (id : Option UInt8) : List Obj → List WireChunk
  | [] => []
  | o :: os => objChunks id o ++ listChunks id os

end

end Chunks

section Write

variable {async : Bool} {order : ByteOrder}

/-- A writer that appends bytes to the data of a message buffer, whatever it holds. -/
def Writes (w : Writer Link) (xs : List UInt8) : Prop :=
  ∀ (m : Msg) (body : List UInt8) (l : Link), m.Filling body → m.hdr.isFragment = 0 →
    ∃ m' l' fs body', w m l = some (.ok (), m', l') ∧ Appended m l body xs m' l' fs body'

namespace Writes

variable {w w' : Writer Link} {xs ys : List UInt8}

theorem next (h : Writes w xs) (h' : Writes w' ys) :
    Writes (w.next w') (xs ++ ys) := by
  intro m body l hm hfrag
  obtain ⟨m₁, l₁, fs₁, body₁, hw, happ⟩ := h m body l hm hfrag
  obtain ⟨m₂, l₂, fs₂, body₂, hw', happ'⟩ := h' m₁ body₁ l₁ happ.filling happ.isFragment
  exact ⟨m₂, l₂, fs₁ ++ fs₂, body₂, by simp [Writer.next, hw, hw'], happ.trans happ'⟩

theorem unchecked (h : Writes w xs) : Writes w.unchecked xs := by
  intro m body l hm hfrag
  obtain ⟨m₁, l₁, fs₁, body₁, hw, happ⟩ := h m body l hm hfrag
  exact ⟨m₁, l₁, fs₁, body₁, by simp [Writer.unchecked, hw], happ⟩

theorem setPriority (priority : UInt8) : Writes (setPriority priority) [] := by
  intro m body l hm hfrag
  refine ⟨_, l, [], body, rfl, ⟨⟨hm.payload, hm.datalen, hm.fdWriteIndex⟩, hm.content,
    hm.headerIndex, hm.writeIndex, hm.length_le⟩, hfrag, by simp, by simp, List.forall_mem_nil _,
    List.forall_mem_nil _, List.forall_mem_nil _, fun h => absurd rfl h, rfl⟩

theorem nothing : Writes nothing [] := by
  intro m body l hm hfrag
  exact ⟨m, l, [], body, rfl, hm, hfrag, by simp, by simp, List.forall_mem_nil _,
    List.forall_mem_nil _, List.forall_mem_nil _, fun h => absurd rfl h, rfl⟩

theorem msgbufSet {tag : UInt8} {data : List UInt8} (h : data.length < 2 ^ 32) :
    Writes (msgbufSet Link.sendMsg async tag data) ([(tag, data)].flatMap chunkBytes) := by
  intro m body l hm hfrag
  rw [List.flatMap_singleton]
  exact preludeMsgbufSet_spec async hm hfrag (tag, data) h l

end Writes

/-- Chunks that are short enough are written. -/
def WritesChunks (w : Writer Link) (chunks : List WireChunk) : Prop :=
  (∀ c ∈ chunks, c.2.length < 2 ^ 32) → Writes w (chunks.flatMap chunkBytes)

namespace WritesChunks

variable {w w' : Writer Link} {cs cs' : List WireChunk}

theorem next (h : WritesChunks w cs) (h' : WritesChunks w' cs') :
    WritesChunks (w.next w') (cs ++ cs') := by
  intro hlen
  rw [List.forall_mem_append] at hlen
  rw [List.flatMap_append]
  exact (h hlen.1).next (h' hlen.2)

theorem nothing : WritesChunks nothing [] := fun _ => .nothing

theorem msgbufSet (tag : UInt8) (data : List UInt8) :
    WritesChunks (msgbufSet Link.sendMsg async tag data) [(tag, data)] :=
  fun hlen => .msgbufSet (hlen _ (List.mem_singleton.mpr rfl))

theorem priority (h : WritesChunks w cs) (p : UInt8) :
    WritesChunks (w.next (setPriority p)) cs := by
  intro hlen
  have := (h hlen).next (.setPriority p)
  rwa [List.append_nil] at this

theorem ite (h : WritesChunks w cs) (c : Bool) :
    WritesChunks (if c then w else IdmefMessage.nothing) (if c then cs else []) := by
  cases c
  · exact nothing
  · exact h

end WritesChunks

theorem idmefDataWrite_spec (d : IdmefData) (tag : UInt8) :
    WritesChunks (idmefDataWrite Link.sendMsg async order (some d) tag)
      (primChunks order (.data d) tag) := by
  rcases d with _ | ⟨_ | _ | _ | _ | _, bytes⟩ | bytes | bytes | t
  · exact .nothing
  all_goals exact (WritesChunks.msgbufSet _ _).next (.msgbufSet _ _)

theorem primWrite_spec (p : Prim) (tag : UInt8) :
    WritesChunks (primWrite Link.sendMsg async order p tag) (primChunks order p tag) := by
  cases p with
  | string s =>
    rw [primWrite, preludeStringWrite, primChunks]
    split_ifs
    · exact .nothing
    · exact .msgbufSet _ _
  | time t => exact .msgbufSet _ _
  | data d => exact idmefDataWrite_spec d tag

theorem scalarWrite_spec (type : FieldType) (isSet : Bool) (val : ℤ) (tag : UInt8) :
    WritesChunks (scalarWrite Link.sendMsg async type isSet val tag)
      (scalarChunks type isSet val tag) := by
  cases type with
  | optionalInt t =>
    cases t <;> first
      | exact (WritesChunks.msgbufSet _ _).ite isSet
      | (cases isSet <;> exact .nothing)
  | optionalEnum t =>
    cases t <;> first
      | exact (WritesChunks.msgbufSet _ _).ite isSet
      | exact ((WritesChunks.msgbufSet _ _).priority _).ite isSet
  | enum t => exact .msgbufSet _ _
  | float => exact .msgbufSet _ _
  | _ => exact .nothing

mutual

theorem idmefWrite_spec (id : Option UInt8) : ∀ o : Obj,
    WritesChunks (idmefWrite Link.sendMsg async order id o) (objChunks order id o)
  | .prim _ p => by
    rw [idmefWrite, objChunks]
    cases id with
    | none => exact .nothing
    | some tag => exact primWrite_spec p tag
  | .struct cls _ fs => by
    rw [idmefWrite, objChunks]
    have hfields := writeFields_spec cls.wireFields fs
    have htag : WritesChunks (cls.tag.elim nothing fun tag =>
        msgbufSet Link.sendMsg async tag []) (cls.tag.toList.map fun tag => (tag, [])) := by
      cases cls.tag with
      | none => exact .nothing
      | some tag => exact .msgbufSet tag []
    have hstart : WritesChunks
        (if cls = .heartbeat then setPriority preludeMsgPriorityHigh else nothing) [] := by
      split_ifs
      · exact fun _ => .setPriority _
      · exact .nothing
    exact hstart.next (htag.next (hfields.next (.msgbufSet _ _)))

theorem writeFields_spec : ∀ (ds : List WireField) (fs : List Field),
    WritesChunks (writeFields Link.sendMsg async order ds fs) (fieldsChunks order ds fs)
  | d :: ds, f :: fs => by
    rw [writeFields, fieldsChunks]
    exact (writeField_spec d f).next (writeFields_spec ds fs)
  | [], _ => by
    rw [writeFields, fieldsChunks]
    · exact .nothing
    all_goals simp
  | _ :: _, [] => by
    rw [writeFields, fieldsChunks]
    · exact .nothing
    all_goals simp

theorem writeField_spec (d : WireField) : ∀ f : Field,
    WritesChunks (writeField Link.sendMsg async order d f) (fieldChunks order d f)
  | .scalar isSet val => by
    rw [writeField, fieldChunks]
    cases d.2 with
    | none => exact .nothing
    | some tag => exact scalarWrite_spec d.1.type isSet val tag
  | .ptr none => by
    rw [writeField, fieldChunks]
    exact .nothing
  | .ptr (some o) => by
    rw [writeField, fieldChunks]
    exact idmefWrite_spec d.2 o
  | .list l => by
    rw [writeField, fieldChunks]
    exact writeList_spec d.2 l
  | .union _ none => by
    rw [writeField, fieldChunks]
    exact .nothing
  | .union var (some o) => by
    rw [writeField, fieldChunks]
    have ho := idmefWrite_spec d.2 o
    obtain ⟨⟨name, type⟩, id⟩ := d
    cases type with
    | union members =>
      have hunchecked : WritesChunks (idmefWrite Link.sendMsg async order id o).unchecked
          (objChunks order id o) := fun hlen => (ho hlen).unchecked
      exact hunchecked.ite (members.any fun m => m.value = var)
    | _ => exact .nothing

theorem writeList_spec (id : Option UInt8) : ∀ l : List Obj,
    WritesChunks (writeList Link.sendMsg async order id l) (listChunks order id l)
  | [] => by
    rw [writeList, listChunks]
    exact .nothing
  | o :: os => by
    rw [writeList, listChunks]
    exact (idmefWrite_spec id o).next (writeList_spec id os)

end

end Write

end IdmefMessage

end LibPrelude
