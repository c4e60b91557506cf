import LibPrelude.Idmef.Decoding
import LibPrelude.Idmef.Integers
import LibPrelude.Idmef.MessageChunks

/-! # Reading what was written

The chunks of an object, read into a new one, give an object that equals it, as long as
nothing in it is lost on the way: integers are in the range of their types, no required
field is missing, and what the writer leaves out is empty in the new object as well.
-/

namespace LibPrelude

open Bytes

namespace IdmefMessage

variable {order order' : ByteOrder} {now : IdmefTime}

section Fuel

theorem inObject_mono {read read' : Reader}
    (h : ∀ cls m out fs r, read cls m out fs = some r → read' cls m out fs = some r) {m : Msg}
    {o : Obj} {r : Ret × Msg × Obj} (hr : read.inObject m o = some r) :
    read'.inObject m o = some r := by
  cases o with
  | prim rc p => cases hr
  | struct cls rc fs =>
    rw [Reader.inObject, Option.map_eq_some_iff] at hr ⊢
    obtain ⟨r', hr', rfl⟩ := hr
    exact ⟨r', h _ _ _ _ _ hr', rfl⟩

theorem readField_mono {read read' : Reader}
    (h : ∀ cls m out fs r, read cls m out fs = some r → read' cls m out fs = some r)
    {type : FieldType} {m : Msg} {out : Chunk} {f : Field} {r : Ret × Msg × Field}
    (hr : readField order now read type m out f = some r) :
    readField order now read' type m out f = some r := by
  by_cases htype : HasObjects type
  · rw [readField_objects order now htype] at hr ⊢
    simp only [Option.bind_eq_bind, Option.bind_eq_some_iff] at hr ⊢
    obtain ⟨⟨o, put⟩, hnew, ⟨ret, m', o'⟩, hin, heq⟩ := hr
    exact ⟨(o, put), hnew, (ret, m', o'), inObject_mono h hin, heq⟩
  · cases type with
    | struct _ _ => exact absurd rfl htype
    | structList _ _ => exact absurd rfl htype
    | union _ => exact absurd rfl htype
    | _ => exact hr

theorem idmefRead_mono {fuel fuel' : ℕ} {cls : IdmefClassId} {m : Msg} {out : Chunk}
    {fs : List Field} {r : Ret × Msg × List Field}
    (h : idmefRead order now fuel cls m out fs = some r) (hle : fuel ≤ fuel') :
    idmefRead order now fuel' cls m out fs = some r := by
  induction fuel generalizing fuel' cls m out fs r with
  | zero => cases h
  | succ fuel ih =>
    obtain ⟨fuel', rfl⟩ := Nat.exists_eq_add_of_le' (Nat.one_le_of_lt hle)
    have hle' : fuel ≤ fuel' := by omega
    rw [idmefRead] at h ⊢
    simp only [Option.bind_eq_bind, Option.bind_eq_some_iff] at h ⊢
    obtain ⟨⟨ret, m₁, out₁⟩, hget, h⟩ := h
    refine ⟨(ret, m₁, out₁), hget, ?_⟩
    cases ret with
    | error e => exact h
    | ok =>
      dsimp only at h ⊢
      split_ifs at h ⊢
      · exact h
      · split at h
        · exact h
        · rename_i i _
          obtain ⟨d, hd, f, hf, ⟨ret, m₂, f'⟩, hr, h⟩ := by
            simpa only [Option.bind_eq_some_iff] using h
          refine Option.bind_eq_some_iff.mpr ⟨d, hd, Option.bind_eq_some_iff.mpr ⟨f, hf,
            Option.bind_eq_some_iff.mpr ⟨(ret, m₂, f'),
              readField_mono (fun _ _ _ _ _ hr => ih hr hle') hr, ?_⟩⟩⟩
          cases ret with
          | error e => exact h
          | ok => exact ih h hle'

end Fuel

/-- A message of which certain chunks are left to be read. -/
structure At (m : Msg) (chunks : List WireChunk) : Prop where
  readable : m.Readable
  left : ∃ p, m.payload = some p ∧ p.drop m.readIndex.toNat = chunks.flatMap chunkBytes

theorem At.get {m : Msg} {c : WireChunk} {cs : List WireChunk} (h : At m (c :: cs))
    (out : Chunk) :
    ∃ m' out', preludeMsgGet m out = some (.ok (), m', out') ∧ out'.tag = c.1 ∧
      out'.bytes m' = some c.2 ∧ At m' cs := by
  obtain ⟨p, hp, hd⟩ := h.left
  rw [List.flatMap_cons] at hd
  obtain ⟨m', out', hget, hg, htag, hbytes, hrest⟩ := preludeMsgGet_chunk h.readable hp hd out
  exact ⟨m', out', hget, htag, hbytes, hg.readable h.readable, p, hg.payload_eq.trans hp, hrest⟩

/-- Where a reader is: in the message, with its last chunk, and in the object. -/
structure Place where
  msg : Msg
  out : Chunk
  fields : List Field

/-- So many chunks lead a reader from one place to another. -/
def Steps (order : ByteOrder) (now : IdmefTime) (cls : IdmefClassId) (n : ℕ) (a b : Place) : Prop :=
  ∀ fuel r, idmefRead order now fuel cls b.msg b.out b.fields = some r →
    idmefRead order now (fuel + n) cls a.msg a.out a.fields = some r

namespace Steps

variable {cls : IdmefClassId} {n k : ℕ} {a b c : Place}

theorem refl (a : Place) : Steps order now cls 0 a a := fun _ _ h => h

theorem trans (h : Steps order now cls n a b) (h' : Steps order now cls k b c) :
    Steps order now cls (n + k) a c := by
  intro fuel r hr
  rw [Nat.add_comm n k, ← Nat.add_assoc]
  exact h _ r (h' fuel r hr)

theorem mono (h : Steps order now cls n a b) (hle : n ≤ k) : Steps order now cls k a b :=
  fun fuel r hr => idmefRead_mono (h fuel r hr) (by omega)

end Steps

theorem Steps.of_chunk {cls : IdmefClassId} {m : Msg} {c : WireChunk} {cs : List WireChunk}
    (hm : At m (c :: cs)) (out : Chunk) {i : ℕ} {d : WireField}
    (hd : cls.wireFields[i]? = some d) (htag : c.1 ∈ d.tags) {fs : List Field} {f : Field}
    (hf : fs[i]? = some f) :
    ∃ m₁ out₁, At m₁ cs ∧ out₁.tag = c.1 ∧ out₁.bytes m₁ = some c.2 ∧
      ∀ n m' f', readField order now (idmefRead order now n) d.1.type m₁ out₁ f =
          some (.ok (), m', f') →
        Steps order now cls (n + 1) ⟨m, out, fs⟩ ⟨m', out₁, fs.set i f'⟩ := by
  obtain ⟨m₁, out₁, hget, htag₁, hbytes, hat⟩ := hm.get out
  obtain ⟨hof, hend⟩ := fieldOf_tags hd htag
  have hd₁ : cls.fields[i]? = some d.1 := by
    rw [← map_fst_wireFields, List.getElem?_map, hd, Option.map_some]
  refine ⟨m₁, out₁, hat, htag₁, hbytes, fun n m' f' hr fuel r hrest => ?_⟩
  have hr' := readField_mono (fun _ _ _ _ _ h => idmefRead_mono h (Nat.le_add_left n fuel)) hr
  have hrest' := idmefRead_mono hrest (Nat.le_add_right fuel n)
  rw [← Nat.add_assoc, idmefRead]
  simp [hget, htag₁, hend, hof, hd₁, hf, hr', hrest']

section Content

/-- Data of a type that is read as it was written, with as many bytes as are read. -/
def DataSendable : IdmefData → Prop
  | .immediate .uint32 _ => False
  | .immediate .char bytes | .immediate .byte bytes => bytes.length = 1
  | .immediate .int bytes => bytes.length = 8
  | .immediate .float bytes => bytes.length = 4
  | .charString bytes => 2 ≤ bytes.length ∧ bytes.getLast? = some 0
  | _ => True

def PrimSendable : Prim → Prop
  | .data d => DataSendable d
  | _ => True

/-- What the writer leaves out. -/
def Blank : Prim → Prop
  | .string s => preludeStringIsEmpty s
  | .time _ => False
  | .data d => d = .unknown

/-- A number that its field can hold. -/
def ScalarSendable (type : FieldType) (isSet : Bool) (val : ℤ) : Prop :=
  match type with
  | .optionalInt t => isSet → ∀ i, t.integerType = some i → i.InRange val
  | .optionalEnum _ => isSet → IntegerType.int32.InRange val
  | .enum _ => IntegerType.int32.InRange val
  | .float => 0 ≤ val ∧ val < 2 ^ 32
  | _ => True

/-- A number as it is read: nothing of one that is not set. -/
def receivedScalar (type : FieldType) (isSet : Bool) (val : ℤ) : Field :=
  if type.optional then .scalar isSet (if isSet then val else 0) else .scalar false val

section Received

variable (order order' : ByteOrder)

/-- A number in the byte order of the machine that reads it. -/
def receivedData : IdmefData → IdmefData
  | .immediate type bytes =>
    .immediate type (represent order' bytes.length (hostNumber order bytes))
  | d => d

def receivedPrim : Prim → Prim
  | .data d => .data (receivedData order order' d)
  | p => p.content

mutual

/-- What a machine reads of an object that another one wrote: its content, with one reference. -/
def received : Obj → Obj
  | .prim _ p => .prim 1 (receivedPrim order order' p)
  | .struct cls _ fs => .struct cls 1 (receivedFields cls.fields fs)

def receivedFields : List FieldDesc → List Field → List Field
  | d :: ds, f :: fs => receivedField d.type f :: receivedFields ds fs
  | _, _ => []

def receivedField (type : FieldType) : Field → Field
  | .scalar isSet val => receivedScalar type isSet val
  | .ptr none => .ptr none
  | .ptr (some o) => .ptr (some (received o))
  | .list l => .list (receivedList l)
  | .union var none => .union var none
  | .union var (some o) => .union var (some (received o))

def receivedList : List Obj → List Obj
  | [] => []
  | o :: os => received o :: receivedList os

end

end Received

theorem hostNumber_lt (order : ByteOrder) (bytes : List UInt8) :
    hostNumber order bytes < 256 ^ bytes.length := by
  cases order
  · exact ofLe_lt bytes
  · exact ofBe_lt bytes

theorem represent_hostNumber (order : ByteOrder) (bytes : List UInt8) :
    represent order bytes.length (hostNumber order bytes) = bytes := by
  have hlt : ((hostNumber order bytes : ℤ) % 256 ^ bytes.length).toNat =
      hostNumber order bytes := by
    rw [Int.emod_eq_of_lt (by positivity) (by exact_mod_cast hostNumber_lt order bytes),
      Int.toNat_natCast]
  simp only [represent.eq_def, hlt]
  cases order with
  | big => exact beBytes_ofBe bytes
  | little =>
    have h := beBytes_ofBe bytes.reverse
    rw [List.length_reverse] at h
    exact (congrArg List.reverse h).trans (List.reverse_reverse bytes)

theorem extractSafe_represent (size : ℕ) (e : ErrorCode) (v : ℤ) :
    extractSafe size e (represent .big size v) = .ok (v % 256 ^ size) := by
  have hp : (0 : ℤ) < 256 ^ size := by positivity
  have hlen : (represent .big size v).length = size := length_beBytes _ _
  have hval : ofBe (represent .big size v) = (v % 256 ^ size).toNat :=
    ofBe_beBytes_of_lt (toNat_emod_lt size v)
  rw [extractSafe, if_neg (not_not.mpr hlen), hval, Int.toNat_of_nonneg (Int.emod_nonneg _ hp.ne')]

theorem extractIntegerSafe_represent {t : IdmefValueTypeId} {size : ℕ} {val : ℤ}
    (hsize : wireSize t = some size) (hval : ∀ i, t.integerType = some i → i.InRange val) :
    extractIntegerSafe t (represent .big size val) = .ok val := by
  cases t <;> cases hsize <;> have hr := hval _ rfl
  all_goals
    simp only [IntegerType.InRange, IntegerType.signed, IntegerType.size, if_true, if_false,
      Bool.false_eq_true] at hr
    simp only [extractIntegerSafe, extractUint8Safe, extractUint16Safe, extractInt32Safe,
      extractUint32Safe, extractUint64Safe, extractSafe_represent, Except.map]
    congr 1
  all_goals first
    | exact Int.emod_eq_of_lt hr.1 hr.2
    | (rw [Int.bmod_def]; split_ifs <;> omega)

theorem extractTimeSafe_timeBytes (t : IdmefTime) : extractTimeSafe (timeBytes t) = .ok t := by
  have hsec := extractUint32_beBytes [] (beBytes 4 t.usec.toNat ++
    beBytes 4 t.gmtOffset.toUInt32.toNat) t.sec
  have husec := extractUint32_beBytes (beBytes 4 t.sec.toNat)
    (beBytes 4 t.gmtOffset.toUInt32.toNat) t.usec
  have hoff := extractUint32_beBytes (beBytes 4 t.sec.toNat ++ beBytes 4 t.usec.toNat) []
    t.gmtOffset.toUInt32
  rw [List.length_append, length_beBytes, length_beBytes, List.append_nil] at hoff
  rw [length_beBytes, ← List.append_assoc] at husec
  rw [List.nil_append, List.length_nil, ← List.append_assoc] at hsec
  have hlen : (timeBytes t).length = 12 := by simp [timeBytes]
  rw [extractTimeSafe, if_neg (not_not.mpr hlen), timeBytes, hsec, husec, hoff,
    Int32.toInt32_toUInt32]

theorem extractStringSafe_append (bs : List UInt8) :
    extractStringSafe (bs ++ [0]) = .ok ⟨some bs⟩ := by
  simp [extractStringSafe]

theorem extractSafe_hostNumber {size : ℕ} (e : ErrorCode) {bytes : List UInt8}
    (h : bytes.length = size) :
    extractSafe size e (represent .big size (hostNumber order bytes)) =
      .ok (hostNumber order bytes) := by
  have hlt := hostNumber_lt order bytes
  rw [h] at hlt
  rw [extractSafe_represent, Int.emod_eq_of_lt (by positivity) (by exact_mod_cast hlt)]

theorem hostNumber_singleton (b : UInt8) : hostNumber order [b] = b.toNat := by
  cases order <;> simp [hostNumber, ofLe, ofBe]

theorem extractDataValue_sent {d : IdmefData} (h : DataSendable d) (hne : d ≠ .unknown) :
    extractDataValue order' d.type.number (dataBytes order d) =
      .ok (some (receivedData order order' d)) := by
  have hone {bytes : List UInt8} (hl : bytes.length = 1) :
      represent .big 1 ((bytes.headD 0).toNat : ℤ) =
        represent .big 1 (hostNumber order bytes) := by
    obtain ⟨b, rfl⟩ := List.length_eq_one_iff.mp hl
    rw [hostNumber_singleton]
    rfl
  rcases d with _ | ⟨_ | _ | _ | _ | _, bytes⟩ | bytes | bytes | t
  · exact absurd rfl hne
  · have hl : bytes.length = 1 := h
    rw [dataBytes, hone hl]
    simp [extractDataValue, IdmefData.type, ImmediateType.dataType, DataType.number,
      extractUint8Safe, extractSafe_hostNumber _ hl, receivedData, hl, Except.map]
  · have hl : bytes.length = 1 := h
    rw [dataBytes, hone hl]
    simp [extractDataValue, IdmefData.type, ImmediateType.dataType, DataType.number,
      extractUint8Safe, extractSafe_hostNumber _ hl, receivedData, hl, Except.map]
  · exact h.elim
  · have hl : bytes.length = 8 := h
    simp [extractDataValue, IdmefData.type, ImmediateType.dataType, DataType.number, dataBytes,
      extractUint64Safe, extractSafe_hostNumber _ hl, receivedData, hl, Except.map]
  · have hl : bytes.length = 4 := h
    simp [extractDataValue, IdmefData.type, ImmediateType.dataType, DataType.number, dataBytes,
      extractFloatSafe, extractSafe_hostNumber _ hl, receivedData, hl, Except.map]
  · have hlen : ¬ (bytes.length < 2 ∨ bytes.getLast? ≠ some 0) := by
      rintro (hlt | hlast)
      · exact absurd h.1 (by omega)
      · exact hlast h.2
    have hchars : extractCharactersSafe bytes = .ok (PreludeString.cString bytes) := if_neg hlen
    simp [extractDataValue, IdmefData.type, DataType.number, dataBytes, hchars, receivedData,
      Except.map]
  · simp [extractDataValue, IdmefData.type, DataType.number, dataBytes, receivedData]
  · simp [extractDataValue, IdmefData.type, DataType.number, dataBytes,
      extractTimeSafe_timeBytes, receivedData, Except.map]

theorem blank_sent (order order' : ByteOrder) {p : Prim} (h : Blank p) (tag : UInt8)
    (now : IdmefTime) (cls : IdmefClassId) (name : String) :
    primChunks order p tag = [] ∧ newPrim now cls name p.type = receivedPrim order order' p := by
  cases p with
  | string s =>
    have hs : preludeStringIsEmpty s := h
    exact ⟨if_pos hs, by
      simp [newPrim, Prim.type, PrimType.new, receivedPrim, Prim.content, hs]⟩
  | time t => exact h.elim
  | data d =>
    obtain rfl : d = .unknown := h
    exact ⟨rfl, by
      simp [newPrim, Prim.type, PrimType.new, receivedPrim, receivedData, idmefDataNew]⟩

theorem extractPrim_sent (order order' : ByteOrder) {p : Prim} (h : PrimSendable p)
    (hblank : ¬ Blank p) (tag : UInt8) :
    ∃ buf rest, primChunks order p tag = (tag, buf) :: rest ∧
      ∀ m out cs, At m (rest ++ cs) → ∃ m', extractPrim order' p.type m out buf =
        some (.ok (some (.prim 1 (receivedPrim order order' p))), m') ∧ At m' cs := by
  cases p with
  | string s =>
    obtain ⟨bs, rfl⟩ : ∃ bs, s = ⟨some bs⟩ := by
      rcases s with ⟨_ | bs⟩
      · exact absurd rfl hblank
      · exact ⟨bs, rfl⟩
    refine ⟨bs ++ [0], [], if_neg hblank, fun m out cs hm => ⟨m, ?_, hm⟩⟩
    have hs : ¬ preludeStringIsEmpty ⟨some bs⟩ := hblank
    simp [extractPrim, Prim.type, extractStringSafe_append, receivedPrim, Prim.content, hs,
      Except.map]
  | time t =>
    refine ⟨timeBytes t, [], rfl, fun m out cs hm => ⟨m, ?_, hm⟩⟩
    simp [extractPrim, Prim.type, extractTimeSafe_timeBytes, receivedPrim, Prim.content,
      Except.map]
  | data d =>
    have hne : d ≠ .unknown := hblank
    refine ⟨represent .big 4 d.type.number, [(tag, dataBytes order d)], ?_, ?_⟩
    · cases d <;> first | exact absurd rfl hne | rfl
    · intro m out cs hm
      obtain ⟨m', out', hget, -, hbytes, hat⟩ := hm.get out
      have hnum : extractUint32Safe (represent .big 4 (d.type.number : ℤ)) =
          .ok (d.type.number : ℤ) := by
        rw [extractUint32Safe, extractSafe_represent]
        cases d.type <;> rfl
      refine ⟨m', ?_, hat⟩
      simp [extractPrim, Prim.type, extractDataSafe, hnum, hget, hbytes,
        extractDataValue_sent h hne, receivedPrim, Except.map]

/-- Whether a field has the tag under which it is written, or the classes of its objects do. -/
def Tagged (d : WireField) : Bool :=
  match d.1.type with
  | .struct c _ => c.tag.isSome
  | .structList c _ => c.tag.isSome
  | .union members =>
    (members.map fun m => m.cls.tag).Nodup && members.all fun m => m.cls.tag.isSome
  | .optionalInt t => d.2.isSome && (wireSize t).isSome
  | _ => d.2.isSome

theorem wireFields_tagged (cls : IdmefClassId) : cls.wireFields.all Tagged := by
  cases cls <;> decide

/-- Whether a field may be without an object. -/
def Optional (d : FieldDesc) : Bool :=
  match d.type with
  | .struct _ required => !required
  | _ => true

/-- Whether a new object of the class of a required field has no required objects itself. -/
def NestsOnce (d : WireField) : Bool :=
  match d.1.type with
  | .struct c required => !required || c.fields.all Optional
  | _ => true

theorem wireFields_nestOnce (cls : IdmefClassId) : cls.wireFields.all NestsOnce := by
  cases cls <;> decide

theorem newField_optional {d : FieldDesc} (h : Optional d) (new new' : IdmefClassId → Obj)
    (now : IdmefTime) (cls : IdmefClassId) : newField new now cls d = newField new' now cls d := by
  unfold newField
  split <;> try rfl
  rename_i htype
  rw [Optional, htype] at h
  simp_all

theorem newNested_required {cls c : IdmefClassId} {d : WireField} (h : d ∈ cls.wireFields)
    (hc : d.1.type = .struct c true) (now : IdmefTime) : newNested now 1 c = idmefNew now c := by
  have hd := List.all_eq_true.mp (wireFields_nestOnce cls) d h
  rw [NestsOnce, hc] at hd
  rw [idmefNew, newFields, newNested]
  congr 1
  exact List.map_congr_left fun d' hd' =>
    newField_optional (List.all_eq_true.mp (by simpa using hd) d' hd') _ _ _ _

/-- A number is left out, which a new object does not have either, or read as it was written. -/
theorem scalar_sent (order order' : ByteOrder) {d : WireField} {isSet : Bool} {val : ℤ}
    (ht : Tagged d) (hf : FieldHasType d.1.type (.scalar isSet val))
    (hs : ScalarSendable d.1.type isSet val) :
    (fieldChunks order d (.scalar isSet val) = [] ∧
      receivedField order order' d.1.type (.scalar isSet val) = .scalar false 0) ∨
    ∃ tag buf, tag ∈ d.tags ∧ fieldChunks order d (.scalar isSet val) = [(tag, buf)] ∧
      readScalar d.1.type buf (.scalar false 0) =
        (.ok (), receivedField order order' d.1.type (.scalar isSet val)) := by
  obtain ⟨⟨name, type⟩, id⟩ := d
  have hint {v : ℤ} (hv : IntegerType.int32.InRange v) :
      extractInt32Safe (represent .big 4 v) = .ok v :=
    extractIntegerSafe_represent (t := .int32) rfl (by rintro _ ⟨⟩; exact hv)
  cases type with
  | optionalInt t =>
    obtain ⟨hid, hsize⟩ : id.isSome ∧ (wireSize t).isSome := by simpa [Tagged] using ht
    obtain ⟨tag, rfl⟩ := Option.isSome_iff_exists.mp hid
    obtain ⟨size, hsize⟩ := Option.isSome_iff_exists.mp hsize
    cases isSet with
    | false => exact .inl ⟨rfl, rfl⟩
    | true =>
      refine .inr ⟨tag, represent .big size val, by simp [WireField.tags], ?_, ?_⟩
      · simp [fieldChunks, scalarChunks, hsize]
      · simp [readScalar, assign, extractIntegerSafe_represent hsize (hs rfl), receivedField,
          receivedScalar, FieldType.optional]
  | optionalEnum t =>
    obtain ⟨tag, rfl⟩ := Option.isSome_iff_exists.mp (by simpa [Tagged] using ht : id.isSome)
    cases isSet with
    | false => exact .inl ⟨rfl, rfl⟩
    | true =>
      exact .inr ⟨tag, represent .big 4 val, by simp [WireField.tags], rfl,
        by simp [readScalar, assign, hint (hs rfl), receivedField, receivedScalar,
          FieldType.optional]⟩
  | enum t =>
    obtain ⟨tag, rfl⟩ := Option.isSome_iff_exists.mp (by simpa [Tagged] using ht : id.isSome)
    exact .inr ⟨tag, represent .big 4 val, by simp [WireField.tags], rfl,
      by simp [readScalar, assign, hint hs, receivedField, receivedScalar, FieldType.optional]⟩
  | float =>
    obtain ⟨tag, rfl⟩ := Option.isSome_iff_exists.mp (by simpa [Tagged] using ht : id.isSome)
    have hbits : extractFloatSafe (represent .big 4 val) = .ok val := by
      rw [extractFloatSafe, extractSafe_represent]
      exact congrArg _ (Int.emod_eq_of_lt hs.1 hs.2)
    exact .inr ⟨tag, represent .big 4 val, by simp [WireField.tags], rfl,
      by simp [readScalar, assign, hbits, receivedField, receivedScalar, FieldType.optional]⟩
  | _ => exact hf.elim

end Content

end IdmefMessage

end LibPrelude
