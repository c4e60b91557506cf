import LibPrelude.Idmef.Copy
import LibPrelude.Idmef.MessageRead
import LibPrelude.Idmef.PathKeyed
import LibPrelude.Message.Safety

/-! # Reading any payload

Whatever a received message holds, reading it ends, stays inside of the payload, and leaves
an object with the fields of its class, also when it fails.
-/

namespace LibPrelude

open Bytes

theorem Got.readIndex_le {m m' : Msg} {out out' : Chunk} {ret : Ret} (h : m.Readable)
    (hg : Got m out ret m' out') : m.readIndex.toNat ≤ m'.readIndex.toNat := by
  cases ret with
  | ok => have := hg.toNat_readIndex h; omega
  | error e =>
    cases hg with
    | eof => exact le_rfl
    | cut => exact le_rfl
    | overrun hp hl _ =>
      have hroom := h.room hp hl
      have hlt := h.datalen_lt
      unfold maxMessageSize at hlt
      have hi : (m.readIndex + 5).toNat = m.readIndex.toNat + 5 :=
        toNat_add_of_lt (by simp; omega)
      simp only [hi]
      omega

theorem fieldsHaveType_set {ds : List FieldDesc} {fs : List Field} (h : FieldsHaveType ds fs)
    {i : ℕ} {d : FieldDesc} (hd : ds[i]? = some d) {f : Field} (hf : FieldHasType d.type f) :
    FieldsHaveType ds (fs.set i f) := by
  induction ds generalizing fs i with
  | nil => simp at hd
  | cons d' ds ih =>
    cases fs with
    | nil => simp [FieldsHaveType] at h
    | cons f' fs =>
      simp only [FieldsHaveType] at h
      cases i with
      | zero =>
        obtain rfl := Option.some.inj hd
        exact ⟨hf, h.2⟩
      | succ i => exact ⟨h.1, ih h.2 hd⟩

theorem listHasType_append {t : ObjType} {l l' : List Obj} (h : ListHasType t l)
    (h' : ListHasType t l') : ListHasType t (l ++ l') := by
  induction l with
  | nil => exact h'
  | cons o os ih => exact ⟨h.1, ih h.2⟩

theorem idmefNew_type (now : IdmefTime) (cls : IdmefClassId) :
    HasType (.struct cls) (idmefNew now cls) := ⟨Nat.one_pos, rfl, newFields_type now cls⟩

/-- No member of a union has the value of one that is not set. -/
def FieldDesc.nonzero (d : FieldDesc) : Bool :=
  match d.type with
  | .union members => members.all fun m => m.value ≠ 0
  | _ => true

theorem fields_nonzero (cls : IdmefClassId) : cls.fields.all FieldDesc.nonzero := by
  cases cls <;> decide

namespace IdmefMessage

variable (order : ByteOrder) (now : IdmefTime) {m m' m'' : Msg} {out : Chunk}

/-- The same payload, read further. -/
structure ReadOn (m m' : Msg) : Prop where
  readable : m'.Readable
  hdr : m'.hdr = m.hdr
  payload : m'.payload = m.payload
  le : m.readIndex.toNat ≤ m'.readIndex.toNat

theorem ReadOn.refl (h : m.Readable) : ReadOn m m := ⟨h, rfl, rfl, le_rfl⟩

theorem ReadOn.trans (h : ReadOn m m') (h' : ReadOn m' m'') : ReadOn m m'' :=
  ⟨h'.readable, h'.hdr.trans h.hdr, h'.payload.trans h.payload, h.le.trans h'.le⟩

theorem get_readOn (h : m.Readable) (out : Chunk) :
    ∃ ret m' out', preludeMsgGet m out = some (ret, m', out') ∧ ReadOn m m' ∧
      (ret = .ok () → (∃ bytes, out'.bytes m' = some bytes) ∧
        m.readIndex.toNat + 5 ≤ m'.readIndex.toNat) := by
  obtain ⟨ret, m', out', hget, hg⟩ := preludeMsgGet_spec h out
  refine ⟨ret, m', out', hget, ⟨hg.readable h, hg.hdr_eq, hg.payload_eq, hg.readIndex_le h⟩, ?_⟩
  rintro rfl
  have := hg.toNat_readIndex h
  exact ⟨Option.isSome_iff_exists.mp (hg.bytes_isSome h), by omega⟩

theorem extractDataSafe_spec (h : m.Readable) (out : Chunk) (buf : List UInt8) :
    ∃ r m', extractDataSafe order m out buf = some (r, m') ∧ ReadOn m m' := by
  unfold extractDataSafe
  cases extractUint32Safe buf with
  | error e => exact ⟨_, m, rfl, .refl h⟩
  | ok type =>
    obtain ⟨ret, m', out', hget, hon, hok⟩ := get_readOn h out
    cases ret with
    | error e => exact ⟨.error e, m', by simp [hget], hon⟩
    | ok =>
      obtain ⟨⟨bytes, hbytes⟩, -⟩ := hok rfl
      exact ⟨extractDataValue order type bytes, m', by simp [hget, hbytes], hon⟩

theorem extractPrim_spec (h : m.Readable) (t : PrimType) (out : Chunk) (buf : List UInt8) :
    ∃ r m', extractPrim order t m out buf = some (r, m') ∧ ReadOn m m' ∧
      ∀ tmp, r = .ok tmp → OptHasType (.prim t) tmp := by
  cases t with
  | string =>
    refine ⟨_, m, rfl, .refl h, ?_⟩
    cases extractStringSafe buf with
    | error e => rintro _ ⟨⟩
    | ok s => rintro _ ⟨⟩; exact ⟨Nat.one_pos, rfl⟩
  | time =>
    refine ⟨_, m, rfl, .refl h, ?_⟩
    cases extractTimeSafe buf with
    | error e => rintro _ ⟨⟩
    | ok s => rintro _ ⟨⟩; exact ⟨Nat.one_pos, rfl⟩
  | data =>
    obtain ⟨r, m', hr, hon⟩ := extractDataSafe_spec order h out buf
    refine ⟨_, m', congrArg (Option.map _) hr, hon, ?_⟩
    rcases r with e | _ | d
    · rintro _ ⟨⟩
    · rintro _ ⟨⟩; trivial
    · rintro _ ⟨⟩; exact ⟨Nat.one_pos, rfl⟩

/-- A value of the type of a field is assigned to it, or it is left as it was. -/
theorem assign_type {type : FieldType} {f : Field} (hf : FieldHasType type f) {α : Type}
    (value : Except ErrorCode α) {set : α → Field}
    (hset : ∀ tmp, value = .ok tmp → FieldHasType type (set tmp)) :
    FieldHasType type (assign f value set).2 := by
  cases value with
  | error e => exact hf
  | ok tmp => exact hset tmp rfl

theorem readScalar_type {type : FieldType} {f : Field} (hf : FieldHasType type f)
    (buf : List UInt8) : FieldHasType type (readScalar type buf f).2 := by
  unfold readScalar
  split
  · exact assign_type hf _ fun _ _ => trivial
  · exact assign_type hf _ fun _ _ => trivial
  · exact assign_type hf _ fun _ _ => trivial
  · exact assign_type hf _ fun _ _ => trivial
  · exact hf

def HasObjects : FieldType → Bool
  | .struct _ _ | .structList _ _ | .union _ => true
  | _ => false

theorem readField_objects {type : FieldType} (h : HasObjects type) (read : Reader) (m : Msg)
    (out : Chunk) (f : Field) : readField order now read type m out f = (do
      let (o, put) ← newStruct now out.tag type f
      let (ret, m, o) ← read.inObject m o
      some (ret, m, put o)) := by
  cases type <;> first | rfl | cases h

theorem newStruct_spec {d : WireField} {f : Field} {tag : UInt8} (htag : tag ∈ d.tags)
    (hf : FieldHasType d.1.type f) (hz : d.1.nonzero) (hdist : d.1.distinct)
    (htype : HasObjects d.1.type) :
    ∃ c o put, newStruct now tag d.1.type f = some (o, put) ∧ HasType (.struct c) o ∧
      ∀ o', HasType (.struct c) o' → FieldHasType d.1.type (put o') := by
  have hnew := idmefNew_type now
  cases ht : d.1.type with
  | struct c r =>
    rw [ht] at hf
    cases f with
    | ptr o =>
      refine ⟨c, _, _, rfl, ?_, fun o' ho' => ho'⟩
      cases o with
      | none => exact hnew c
      | some o => exact hf
    | _ => exact hf.elim
  | structList c k =>
    rw [ht] at hf
    cases f with
    | list l => exact ⟨c, _, _, rfl, hnew c, fun o' ho' => listHasType_append hf ⟨ho', trivial⟩⟩
    | _ => exact hf.elim
  | union members =>
    rw [ht] at hf
    obtain ⟨var, o, rfl, hnone, hsome⟩ := union_type hf
    have hmem : ∃ mem, members.find? (fun m => m.cls.tag = some tag) = some mem := by
      rw [← Option.isSome_iff_exists, List.find?_isSome]
      obtain ⟨mem, hmem, heq⟩ := List.mem_filterMap.mp (by simpa [WireField.tags, ht] using htag)
      exact ⟨mem, hmem, by simpa using heq⟩
    obtain ⟨mem, hfind⟩ := hmem
    have hin := List.mem_of_find?_eq_some hfind
    have hval : mem.value ≠ 0 := by
      have hall : ∀ m ∈ members, ¬ m.value = 0 := by simpa [FieldDesc.nonzero, ht] using hz
      exact hall mem hin
    have hself : members.find? (fun m => m.value = mem.value) = some mem :=
      find_of_distinct (by simpa [FieldDesc.distinct, ht] using hdist) hin
    refine ⟨mem.cls, _, fun o => .union mem.value (some o), by rw [newStruct, hfind]; rfl, ?_,
      fun o' ho' => ?_⟩
    · split_ifs with hvar
      · cases o with
        | none => exact hnew mem.cls
        | some o => exact hsome o rfl mem (hvar ▸ hself)
      · exact hnew mem.cls
    · simp only [FieldHasType, hself]
      exact ⟨hval, ho'⟩
  | _ => rw [ht] at htype; cases htype

/-- A reader that, given an object with the fields of its class, ends and leaves one. -/
def Decodes (m : Msg) (read : Reader) : Prop :=
  ∀ cls m₁ out fs, ReadOn m m₁ → FieldsHaveType cls.fields fs →
    ∃ ret m₂ fs', read cls m₁ out fs = some (ret, m₂, fs') ∧ ReadOn m₁ m₂ ∧
      FieldsHaveType cls.fields fs'

theorem Decodes.inObject {read : Reader} (hread : Decodes m read) (h : m.Readable)
    {c : IdmefClassId} {o : Obj} (ho : HasType (.struct c) o) :
    ∃ ret m' o', read.inObject m o = some (ret, m', o') ∧ ReadOn m m' ∧
      HasType (.struct c) o' := by
  cases o with
  | prim rc p => exact ho.elim
  | struct cls rc fs =>
    obtain ⟨hrc, rfl, hfs⟩ := ho
    obtain ⟨ret, m', fs', hr, hon, hfs'⟩ := hread cls m unsetChunk fs (.refl h) hfs
    exact ⟨ret, m', .struct cls rc fs', by rw [Reader.inObject, hr, Option.map_some], hon, hrc, rfl,
      hfs'⟩

theorem readField_spec {read : Reader} (hread : Decodes m read) (h : m.Readable)
    {bytes : List UInt8} (hbytes : out.bytes m = some bytes) {d : WireField}
    (htag : out.tag ∈ d.tags) (hz : d.1.nonzero) (hdist : d.1.distinct) {f : Field}
    (hf : FieldHasType d.1.type f) :
    ∃ ret m' f', readField order now read d.1.type m out f = some (ret, m', f') ∧ ReadOn m m' ∧
      FieldHasType d.1.type f' := by
  have hobject (htype : HasObjects d.1.type) :
      ∃ ret m' f', readField order now read d.1.type m out f = some (ret, m', f') ∧ ReadOn m m' ∧
        FieldHasType d.1.type f' := by
    obtain ⟨c, o, put, hnew, ho, hput⟩ := newStruct_spec now htag hf hz hdist htype
    obtain ⟨ret, m', o', hr, hon, ho'⟩ := hread.inObject h ho
    exact ⟨ret, m', put o', by simp [readField_objects order now htype, hnew, hr], hon, hput o' ho'⟩
  have hscalar (ht : readField order now read d.1.type m out f = (out.bytes m).bind fun buf =>
      some ((readScalar d.1.type buf f).1, m, (readScalar d.1.type buf f).2)) :
      ∃ ret m' f', readField order now read d.1.type m out f = some (ret, m', f') ∧ ReadOn m m' ∧
        FieldHasType d.1.type f' :=
    ⟨_, m, _, by rw [ht, hbytes]; rfl, .refl h, readScalar_type hf bytes⟩
  cases ht : d.1.type with
  | struct c r => exact ht ▸ hobject (by rw [ht]; rfl)
  | structList c k => exact ht ▸ hobject (by rw [ht]; rfl)
  | union members => exact ht ▸ hobject (by rw [ht]; rfl)
  | optionalInt t => exact ht ▸ hscalar (by rw [ht]; rfl)
  | optionalEnum t => exact ht ▸ hscalar (by rw [ht]; rfl)
  | enum t => exact ht ▸ hscalar (by rw [ht]; rfl)
  | float => exact ht ▸ hscalar (by rw [ht]; rfl)
  | prim t r =>
    obtain ⟨tmp, m', hp, hon, htmp⟩ := extractPrim_spec order h t out bytes
    rw [ht] at hf
    exact ⟨_, m', _, by
      rw [readField, hbytes]; simp only [Option.bind_eq_bind, Option.bind_some, hp]; rfl,
      hon, (assign_type hf tmp htmp : FieldHasType (.prim t r) (assign f tmp .ptr).2)⟩
  | primList t =>
    obtain ⟨tmp, m', hp, hon, htmp⟩ := extractPrim_spec order h t out bytes
    rw [ht] at hf
    refine ⟨_, m', _, by
      rw [readField, hbytes]; simp only [Option.bind_eq_bind, Option.bind_some, hp]; rfl,
      hon, assign_type hf tmp fun o ho => ?_⟩
    cases f with
    | list l =>
      refine listHasType_append hf ?_
      cases o with
      | none => trivial
      | some o => exact ⟨htmp _ ho, trivial⟩
    | _ => exact hf.elim

/-- One get for each five bytes left is enough. -/
theorem idmefRead_spec (fuel : ℕ) {cls : IdmefClassId} (h : m.Readable) {fs : List Field}
    (hfs : FieldsHaveType cls.fields fs) (out : Chunk)
    (hfuel : 16 + m.hdr.datalen.toNat < m.readIndex.toNat + 5 * fuel) :
    ∃ ret m' fs', idmefRead order now fuel cls m out fs = some (ret, m', fs') ∧ ReadOn m m' ∧
      FieldsHaveType cls.fields fs' := by
  induction fuel generalizing cls m fs out with
  | zero =>
    have := h.readIndex_le
    omega
  | succ fuel ih =>
    obtain ⟨ret, m₁, out₁, hget, hon₁, hok⟩ := get_readOn h out
    cases ret with
    | error e => exact ⟨.error e, m₁, fs, by simp [idmefRead, hget], hon₁, hfs⟩
    | ok =>
      obtain ⟨⟨bytes, hbytes⟩, hadv⟩ := hok rfl
      have hdecodes : Decodes m₁ (idmefRead order now fuel) := by
        intro cls m₂ out fs hon hfs
        have hle := hon.le
        exact ih hon.readable hfs out (by rw [hon.hdr, hon₁.hdr]; omega)
      by_cases hend : out₁.tag = idmefMsgEndOfTag
      · exact ⟨.ok (), m₁, fs, by simp [idmefRead, hget, hend], hon₁, hfs⟩
      · cases hi : cls.fieldOf out₁.tag with
        | none =>
          exact ⟨.error .idmefUnknownTag, m₁, fs, by simp [idmefRead, hget, hend, hi], hon₁, hfs⟩
        | some i =>
          obtain ⟨d, hd, htag⟩ := fieldOf_eq_some hi
          have hd₁ : cls.fields[i]? = some d.1 := by
            rw [← map_fst_wireFields, List.getElem?_map, hd, Option.map_some]
          have hmem := List.mem_of_getElem? hd₁
          obtain ⟨f, hf, hft⟩ := fieldsHaveType_getElem hfs hd₁
          obtain ⟨ret, m₂, f', hr, hon₂, hft'⟩ := readField_spec order now
            hdecodes hon₁.readable hbytes htag (List.all_eq_true.mp (fields_nonzero cls) _ hmem)
            (List.all_eq_true.mp (fields_distinct cls) _ hmem) hft
          have hfs' := fieldsHaveType_set hfs hd₁ hft'
          cases ret with
          | error e =>
            exact ⟨.error e, m₂, _, by simp [idmefRead, hget, hend, hi, hd₁, hf, hr],
              hon₁.trans hon₂, hfs'⟩
          | ok =>
            obtain ⟨ret, m₃, fs'', hrest, hon₃, hfs''⟩ := hdecodes cls m₂ out₁ _ hon₂ hfs'
            exact ⟨ret, m₃, fs'', by simp [idmefRead, hget, hend, hi, hd₁, hf, hr, hrest],
              hon₁.trans (hon₂.trans hon₃), hfs''⟩

/-- Whatever a peer sends as a message, decoding it ends with an object of the right type. -/
theorem decode_received {m : Msg} {bs : List UInt8} (h : Received m bs) {o : Obj}
    (ho : HasType (.struct .message) o) {fuel : ℕ} (hfuel : m.hdr.datalen.toNat < 5 * fuel) :
    ∃ ret m' o', idmefMessageRead order now fuel o m = some (ret, m', o') ∧
      HasType (.struct .message) o' ∧ m'.payload = m.payload ∧
      m.readIndex.toNat ≤ m'.readIndex.toNat ∧
      m'.readIndex.toNat ≤ 16 + m.hdr.datalen.toNat := by
  cases o with
  | prim rc p => exact ho.elim
  | struct cls rc fs =>
    obtain ⟨hrc, rfl, hfs⟩ := ho
    have hm := h.outcome.1
    have hge := hm.readIndex_ge
    obtain ⟨ret, m', fs', hr, hon, hfs'⟩ :=
      idmefRead_spec order now fuel hm hfs unsetChunk (by omega)
    refine ⟨ret, m', .struct .message rc fs', ?_, ⟨hrc, rfl, hfs'⟩, hon.payload, hon.le,
      hon.hdr ▸ hon.readable.readIndex_le⟩
    rw [idmefMessageRead, Reader.inObject, hr, Option.map_some]

/-- A peer that sends an alert which is cut short within a source. -/
def cutAlert : Stream where
  pending := [1, 0, 0, 0, 0, 0, 0, 10, 0, 0, 0, 0, 0, 0, 0, 0] ++ [27, 0, 0, 0, 0] ++
    [11, 0, 0, 0, 0]
  turns := [.upTo 20]
  final := .eof
  final_ne := eof_ne_eagain

theorem decode_received_cut :
    ∃ m bs, Received m bs ∧ ∃ ret m' o',
      idmefMessageRead .little ⟨0, 0, 0⟩ 3 (idmefNew ⟨0, 0, 0⟩ .message) m =
        some (ret, m', o') ∧ HasType (.struct .message) o' := by
  have hread : ∃ m', readMsg (some .fresh) cutAlert =
      some (.ok (), some m', { cutAlert with pending := [], turns := [] }) ∧
      m'.hdr.datalen.toNat = 10 := ⟨_, rfl, by decide⟩
  obtain ⟨m, hread, hlen⟩ := hread
  have hm : Received m ([] ++ cutAlert.pending) :=
    .intro .fresh hread (List.append_nil _).symm
  obtain ⟨ret, m', o', hr, ho, -⟩ := decode_received .little ⟨0, 0, 0⟩ hm
    (idmefNew_type ⟨0, 0, 0⟩ .message) (show _ < 5 * 3 by omega)
  exact ⟨m, _, hm, ret, m', o', hr, ho⟩

end IdmefMessage

end LibPrelude
