import LibPrelude.Idmef.MessageRoundTrip

/-! # Messages are received as they were sent

The chunks of an object lead the reader of its class to an object with the same content,
field by field and element by element. With the framing below it, every message of a
sequence arrives, whatever the writes and reads of the stream.
-/

namespace LibPrelude

open Bytes Resume

namespace IdmefMessage

section Sendable

/-- An object of which nothing is written. -/
def Unwritten : Obj → Prop
  | .prim _ p => Blank p
  | .struct _ _ _ => False

mutual

/-- Everything in an object has a form on the wire: an optional pointer or an element of a list
that is blank has none. -/
def Sendable : Obj → Prop
  | .prim _ p => PrimSendable p
  | .struct cls _ fs => FieldsSendable cls.fields fs

def FieldsSendable : List FieldDesc → List Field → Prop
  | d :: ds, f :: fs => FieldSendable d.type f ∧ FieldsSendable ds fs
  | _, _ => True

def FieldSendable (type : FieldType) : Field → Prop
  | .scalar isSet val => ScalarSendable type isSet val
  | .ptr none => type.required = false
  | .ptr (some o) => Sendable o ∧ (type.required ∨ ¬ Unwritten o)
  | .list l => ListSendable l
  | .union _ none => True
  | .union _ (some o) => Sendable o

def ListSendable : List Obj → Prop
  | [] => True
  | o :: os => Sendable o ∧ ¬ Unwritten o ∧ ListSendable os

end

end Sendable

variable (order order' : ByteOrder) (now : IdmefTime)

section Steps

variable {order order' now} {cls : IdmefClassId} {i : ℕ} {d : WireField} {f : Field}
  {fs : List Field} {m : Msg} {cs : List WireChunk}

/-- The chunks of an object that follow its tag are read into the fields of a new one. -/
def ReadsBack (order order' : ByteOrder) (now : IdmefTime) (c : IdmefClassId) (o : Obj) : Prop :=
  ∃ body gs, (∀ id, objChunks order id o = c.tag.toList.map (fun tag => (tag, [])) ++ body) ∧
    received order order' o = .struct c 1 gs ∧ ∀ m out cs, At m (body ++ cs) → ∃ m', At m' cs ∧
      idmefRead order' now body.length c m out (newFields now c) = some (.ok (), m', gs)

theorem Steps.of_object (hd : cls.wireFields[i]? = some d) (hf : fs[i]? = some f) {c : IdmefClassId}
    {tag : UInt8} (hc : c.tag = some tag) (htag : tag ∈ d.tags) (htype : HasObjects d.1.type)
    (put : Obj → Field) (hnew : newStruct now tag d.1.type f = some (idmefNew now c, put)) {o : Obj}
    (hback : ReadsBack order order' now c o) (out : Chunk)
    (hm : At m (objChunks order d.2 o ++ cs)) :
    ∃ m' out', At m' cs ∧ Steps order' now cls (objChunks order d.2 o).length ⟨m, out, fs⟩
      ⟨m', out', fs.set i (put (received order order' o))⟩ := by
  obtain ⟨body, gs, hchunks, hgs, hread⟩ := hback
  have htagged : objChunks order d.2 o = (tag, []) :: body := by rw [hchunks, hc]; rfl
  rw [htagged, List.cons_append] at hm
  obtain ⟨m₁, out₁, hat, htag₁, -, hsteps⟩ := Steps.of_chunk hm out hd htag hf
  obtain ⟨m', hm', hread'⟩ := hread m₁ unsetChunk cs hat
  rw [htagged, List.length_cons, hgs]
  refine ⟨m', out₁, hm', hsteps body.length m' _ ?_⟩
  rw [readField_objects order' now htype, htag₁]
  simp [hnew, Reader.inObject, idmefNew, hread']

theorem Steps.of_prim (hd : cls.wireFields[i]? = some d) (hf : fs[i]? = some f) {tag : UInt8}
    (htag : tag ∈ d.tags) {p : Prim} (hp : PrimSendable p) (hblank : ¬ Blank p) {g : Field}
    (hread : ∀ read m out buf m', out.bytes m = some buf →
      extractPrim order' p.type m out buf =
        some (.ok (some (.prim 1 (receivedPrim order order' p))), m') →
      readField order' now read d.1.type m out f = some (.ok (), m', g)) (out : Chunk)
    (hm : At m (primChunks order p tag ++ cs)) :
    ∃ m' out', At m' cs ∧ Steps order' now cls (primChunks order p tag).length ⟨m, out, fs⟩
      ⟨m', out', fs.set i g⟩ := by
  obtain ⟨buf, rest, hchunks, hextract⟩ := extractPrim_sent order order' hp hblank tag
  rw [hchunks, List.cons_append] at hm
  obtain ⟨m₁, out₁, hat, -, hbytes, hsteps⟩ := Steps.of_chunk hm out hd htag hf
  obtain ⟨m', hex, hm'⟩ := hextract m₁ out₁ cs hat
  refine ⟨m', out₁, hm', (hsteps 0 m' g (hread _ _ _ _ _ hbytes hex)).mono ?_⟩
  rw [hchunks, List.length_cons]
  omega

theorem Steps.of_nothing (hf : fs[i]? = some f) (out : Chunk) (hm : At m cs) :
    ∃ m' out', At m' cs ∧ Steps order' now cls 0 ⟨m, out, fs⟩ ⟨m', out', fs.set i f⟩ := by
  have hset : fs.set i f = fs := by
    obtain ⟨hi, rfl⟩ := List.getElem?_eq_some_iff.mp hf
    exact List.set_getElem_self hi
  exact ⟨m, out, hm, by rw [hset]; exact Steps.refl _⟩

end Steps

section Read

theorem find_of_nodup {α β : Type*} [DecidableEq β] {f : α → β} {l : List α} (h : (l.map f).Nodup)
    {a : α} (ha : a ∈ l) : l.find? (fun x => f x = f a) = some a := by
  induction l with
  | nil => cases ha
  | cons b l ih =>
    rw [List.map_cons, List.nodup_cons] at h
    rcases List.mem_cons.mp ha with rfl | ha
    · simp
    · have hne : f b ≠ f a := fun heq => h.1 (heq ▸ List.mem_map_of_mem ha)
      rw [List.find?_cons_of_neg (by simpa using hne), ih h.2 ha]

theorem newStruct_member {d : WireField} {members : List Member} (ht : d.1.type = .union members)
    (htag : Tagged d) {var : ℕ} {o : Obj} (hf : FieldHasType d.1.type (.union var (some o))) :
    ∃ (c : IdmefClassId) (tag : UInt8), c.tag = some tag ∧ tag ∈ d.tags ∧ HasType (.struct c) o ∧
      (members.any fun m => m.value = var) ∧
      newStruct now tag d.1.type (.union 0 none) =
        some (idmefNew now c, fun o => .union var (some o)) := by
  rw [ht] at hf
  rw [Tagged, ht] at htag
  obtain ⟨hnodup, hall⟩ := Bool.and_eq_true_iff.mp htag
  cases hfind : members.find? fun m => m.value = var with
  | none => simp [FieldHasType, hfind] at hf
  | some mem =>
    simp only [FieldHasType, hfind] at hf
    have hmem := List.mem_of_find?_eq_some hfind
    have hvar : mem.value = var := by simpa using List.find?_some hfind
    obtain ⟨tag, htag'⟩ := Option.isSome_iff_exists.mp (List.all_eq_true.mp hall mem hmem)
    have hself := find_of_nodup (of_decide_eq_true hnodup) hmem
    rw [htag'] at hself
    refine ⟨mem.cls, tag, htag', ?_, hf.2, ?_, ?_⟩
    · simpa [WireField.tags, ht] using ⟨mem, hmem, htag'⟩
    · exact List.any_eq_true.mpr ⟨mem, hmem, by simpa using hvar⟩
    · simp [newStruct, ht, hself, hvar]

theorem readField_scalar {type : FieldType} {isSet : Bool} {val : ℤ}
    (h : FieldHasType type (.scalar isSet val)) {read : Reader} {m : Msg} {out : Chunk}
    {buf : List UInt8} (hbuf : out.bytes m = some buf) (f : Field) :
    readField order' now read type m out f =
      some ((readScalar type buf f).1, m, (readScalar type buf f).2) := by
  cases type <;> first | exact h.elim | simp [readField, hbuf]

theorem newField_scalar {d : FieldDesc} {isSet : Bool} {val : ℤ}
    (h : FieldHasType d.type (.scalar isSet val)) (new : IdmefClassId → Obj) (cls : IdmefClassId) :
    newField new now cls d = .scalar false 0 := by
  obtain ⟨name, type⟩ := d
  cases type <;> first | exact h.elim | rfl

theorem read_value {cls : IdmefClassId} {i : ℕ} {d : WireField} (hd : cls.wireFields[i]? = some d)
    {t : PrimType} {required : Bool} (htype : d.1.type = .prim t required) {o : Obj}
    (ht : HasType (.prim t) o) (hs : Sendable o) (hw : required ∨ ¬ Unwritten o) {fs : List Field}
    (hfs : fs[i]? = some (newField (newNested now 1) now cls d.1)) {m : Msg} {cs : List WireChunk}
    (out : Chunk) (hm : At m (objChunks order d.2 o ++ cs)) :
    ∃ m' out', At m' cs ∧ Steps order' now cls (objChunks order d.2 o).length ⟨m, out, fs⟩
      ⟨m', out', fs.set i (.ptr (some (received order order' o)))⟩ := by
  have htagged := List.all_eq_true.mp (wireFields_tagged cls) d (List.mem_of_getElem? hd)
  obtain ⟨tag, htag⟩ : ∃ tag, d.2 = some tag :=
    Option.isSome_iff_exists.mp (by simpa [Tagged, htype] using htagged)
  cases o with
  | struct _ _ _ => exact ht.elim
  | prim rc p =>
    obtain ⟨-, rfl⟩ := ht
    rw [objChunks, htag, Option.elim_some] at hm ⊢
    rw [received]
    by_cases hblank : Blank p
    · obtain rfl : required = true := hw.resolve_right (not_not.mpr hblank)
      obtain ⟨hnil, hnew⟩ := blank_sent order order' hblank tag now cls d.1.name
      rw [newField, htype] at hfs
      simp only [if_true, hnew] at hfs
      rw [hnil] at hm ⊢
      exact Steps.of_nothing hfs out hm
    · refine Steps.of_prim hd hfs (by simp [WireField.tags, htype, htag])
        (by simpa [Sendable] using hs) hblank (fun read m out buf m' hbuf hex => ?_) out hm
      rw [htype, readField, hbuf]
      simp [hex, assign]

theorem read_element {cls : IdmefClassId} {i : ℕ} {d : WireField}
    (hd : cls.wireFields[i]? = some d) {t : PrimType} (htype : d.1.type = .primList t) {tag : UInt8}
    (htag : d.2 = some tag) {o : Obj} (ht : HasType (.prim t) o) (hs : Sendable o)
    (hw : ¬ Unwritten o) {fs : List Field} {pre : List Obj} (hfs : fs[i]? = some (.list pre))
    {m : Msg} {cs : List WireChunk} (out : Chunk) (hm : At m (objChunks order d.2 o ++ cs)) :
    ∃ m' out', At m' cs ∧ Steps order' now cls (objChunks order d.2 o).length ⟨m, out, fs⟩
      ⟨m', out', fs.set i (.list (pre ++ [received order order' o]))⟩ := by
  cases o with
  | struct _ _ _ => exact ht.elim
  | prim rc p =>
    obtain ⟨-, rfl⟩ := ht
    rw [objChunks, htag, Option.elim_some] at hm ⊢
    rw [received]
    refine Steps.of_prim hd hfs (by simp [WireField.tags, htype, htag])
      (by simpa [Sendable] using hs) hw (fun read m out buf m' hbuf hex => ?_) out hm
    rw [htype, readField, hbuf]
    simp [hex, assign]

mutual

/-- An object is read back. -/
theorem readsBack_struct : ∀ (o : Obj) {c : IdmefClassId}, HasType (.struct c) o → Sendable o →
    ReadsBack order order' now c o
  | .prim _ _, _, ht, _ => ht.elim
  | .struct cls rc gs, c, ht, hs => by
    obtain ⟨-, rfl, hgs⟩ := ht
    rw [Sendable] at hs
    refine ⟨fieldsChunks order cls.wireFields gs ++ [(idmefMsgEndOfTag, [])],
      receivedFields order order' cls.fields gs, fun id => by rw [objChunks], by rw [received],
      fun m out cs hm => ?_⟩
    rw [List.append_assoc] at hm
    rw [← map_fst_wireFields] at hgs hs
    obtain ⟨m₁, out₁, hat, hsteps⟩ := read_fields gs (List.nil_append _).symm hgs hs [] rfl
      out hm
    obtain ⟨m', out', hget, htag, -, hrest⟩ := hat.get out₁
    refine ⟨m', hrest, ?_⟩
    have hend : idmefRead order' now 1 cls m₁ out₁ (receivedFields order order' cls.fields gs) =
        some (.ok (), m', receivedFields order order' cls.fields gs) := by
      simp [idmefRead, hget, htag]
    rw [List.length_append, List.length_singleton, Nat.add_comm]
    rw [map_fst_wireFields] at hsteps
    exact hsteps 1 _ hend

/-- The fields of an object are read one after the other into those of a new one. -/
theorem read_fields : ∀ (gs : List Field) {cls : IdmefClassId} {ds ds₁ : List WireField},
    cls.wireFields = ds₁ ++ ds → FieldsHaveType (ds.map Prod.fst) gs →
    FieldsSendable (ds.map Prod.fst) gs → ∀ (done : List Field), done.length = ds₁.length →
    ∀ {m : Msg} {cs : List WireChunk} (out : Chunk), At m (fieldsChunks order ds gs ++ cs) →
    ∃ m' out', At m' cs ∧ Steps order' now cls (fieldsChunks order ds gs).length
      ⟨m, out, done ++ (ds.map Prod.fst).map (newField (newNested now 1) now cls)⟩
      ⟨m', out', done ++ receivedFields order order' (ds.map Prod.fst) gs⟩
  | [], cls, ds, ds₁, hds, ht, hs, done, hdone, m, cs, out, hm => by
    cases ds with
    | nil => exact ⟨m, out, hm, .refl _⟩
    | cons d ds => exact ht.elim
  | g :: gs, cls, ds, ds₁, hds, ht, hs, done, hdone, m, cs, out, hm => by
    cases ds with
    | nil => exact ht.elim
    | cons d ds =>
      rw [List.map_cons, FieldsHaveType] at ht
      rw [List.map_cons, FieldsSendable] at hs
      rw [fieldsChunks, List.append_assoc] at hm
      have hd : cls.wireFields[done.length]? = some d := by
        rw [hds, hdone, List.getElem?_append_right le_rfl, Nat.sub_self]
        rfl
      obtain ⟨m₁, out₁, hat, hsteps⟩ := read_field g hd ht.1 hs.1 (done ++
        ((d :: ds).map Prod.fst).map (newField (newNested now 1) now cls)) (by simp) out hm
      have hds' : cls.wireFields = (ds₁ ++ [d]) ++ ds := by rw [hds, List.append_assoc]; rfl
      obtain ⟨m', out', hat', hsteps'⟩ := read_fields gs hds' ht.2 hs.2
        (done ++ [receivedField order order' d.1.type g]) (by simp [hdone]) out₁ hat
      refine ⟨m', out', hat', ?_⟩
      rw [fieldsChunks, List.length_append]
      simp only [List.set_append_right _ _ le_rfl, Nat.sub_self, List.map_cons, List.set_cons_zero,
        List.append_assoc, List.singleton_append] at hsteps hsteps' ⊢
      exact hsteps.trans hsteps'

theorem read_field : ∀ (g : Field) {cls : IdmefClassId} {i : ℕ} {d : WireField},
    cls.wireFields[i]? = some d → FieldHasType d.1.type g → FieldSendable d.1.type g →
    ∀ (fs : List Field), fs[i]? = some (newField (newNested now 1) now cls d.1) →
    ∀ {m : Msg} {cs : List WireChunk} (out : Chunk), At m (fieldChunks order d g ++ cs) →
    ∃ m' out', At m' cs ∧ Steps order' now cls (fieldChunks order d g).length ⟨m, out, fs⟩
      ⟨m', out', fs.set i (receivedField order order' d.1.type g)⟩
  | .scalar isSet val, cls, i, d, hd, ht, hs, fs, hfs, m, cs, out, hm => by
    have htag := List.all_eq_true.mp (wireFields_tagged cls) d (List.mem_of_getElem? hd)
    rw [newField_scalar now ht] at hfs
    rcases scalar_sent order order' htag ht hs with ⟨hnil, hr⟩ | ⟨tag, buf, hin, hone, hr⟩
    · rw [hnil] at hm ⊢
      rw [hr]
      exact Steps.of_nothing hfs out hm
    · rw [hone] at hm ⊢
      obtain ⟨m₁, out₁, hat, -, hbytes, hsteps⟩ := Steps.of_chunk hm out hd hin hfs
      refine ⟨m₁, out₁, hat, hsteps 0 m₁ _ ?_⟩
      rw [readField_scalar order' now ht hbytes, hr]
  | .ptr none, cls, i, d, hd, ht, hs, fs, hfs, m, cs, out, hm => by
    have hnew : newField (newNested now 1) now cls d.1 = .ptr none := by
      obtain ⟨⟨name, type⟩, id⟩ := d
      cases type <;> first | exact ht.elim | simp_all [newField, FieldSendable, FieldType.required]
    rw [hnew] at hfs
    rw [fieldChunks] at hm ⊢
    rw [receivedField]
    exact Steps.of_nothing hfs out hm
  | .ptr (some o), cls, i, d, hd, ht, hs, fs, hfs, m, cs, out, hm => by
    rw [fieldChunks] at hm ⊢
    rw [FieldSendable] at hs
    rw [receivedField]
    cases htype : d.1.type with
    | prim t required =>
      rw [htype] at ht hs
      exact read_value order order' now hd htype ht hs.1 hs.2 hfs out hm
    | struct c required =>
      rw [htype] at ht
      have htag := List.all_eq_true.mp (wireFields_tagged cls) d (List.mem_of_getElem? hd)
      rw [Tagged, htype] at htag
      obtain ⟨tag, htag⟩ := Option.isSome_iff_exists.mp htag
      refine Steps.of_object hd hfs htag (by simp [WireField.tags, htype, htag])
        (by rw [htype]; rfl) (fun o => .ptr (some o)) ?_ (readsBack_struct o ht hs.1) out hm
      cases required with
      | false => simp [newStruct, newField, htype]
      | true =>
        simp [newStruct, newField, htype,
          newNested_required (List.mem_of_getElem? hd) htype now]
    | _ => rw [htype] at ht; exact ht.elim
  | .list l, cls, i, d, hd, ht, hs, fs, hfs, m, cs, out, hm => by
    have hnew : newField (newNested now 1) now cls d.1 = .list [] := by
      obtain ⟨⟨name, type⟩, id⟩ := d
      cases type <;> first | exact ht.elim | rfl
    rw [hnew] at hfs
    rw [fieldChunks] at hm ⊢
    rw [FieldSendable] at hs
    rw [receivedField]
    exact read_list l hd ht hs [] hfs out hm
  | .union var none, cls, i, d, hd, ht, hs, fs, hfs, m, cs, out, hm => by
    have hnew : newField (newNested now 1) now cls d.1 = .union var none := by
      obtain ⟨⟨name, type⟩, id⟩ := d
      cases type <;> first | exact ht.elim | simp_all [newField, FieldHasType]
    rw [hnew] at hfs
    rw [fieldChunks] at hm ⊢
    rw [receivedField]
    exact Steps.of_nothing hfs out hm
  | .union var (some o), cls, i, d, hd, ht, hs, fs, hfs, m, cs, out, hm => by
    rw [FieldSendable] at hs
    rw [receivedField]
    cases htype : d.1.type with
    | union members =>
      have htag := List.all_eq_true.mp (wireFields_tagged cls) d (List.mem_of_getElem? hd)
      obtain ⟨c, tag, hc, hin, ho, hany, hnew⟩ := newStruct_member now htype htag ht
      have hchunks : fieldChunks order d (.union var (some o)) = objChunks order d.2 o := by
        rw [fieldChunks, htype]
        exact if_pos hany
      rw [hchunks] at hm ⊢
      rw [newField, htype] at hfs
      exact Steps.of_object hd hfs hc hin (by rw [htype]; rfl) _ hnew (readsBack_struct o ho hs) out
        hm
    | _ => rw [htype] at ht; exact ht.elim

theorem read_list : ∀ (l : List Obj) {cls : IdmefClassId} {i : ℕ} {d : WireField},
    cls.wireFields[i]? = some d → FieldHasType d.1.type (.list l) → ListSendable l →
    ∀ {fs : List Field} (pre : List Obj), fs[i]? = some (.list pre) →
    ∀ {m : Msg} {cs : List WireChunk} (out : Chunk), At m (listChunks order d.2 l ++ cs) →
    ∃ m' out', At m' cs ∧ Steps order' now cls (listChunks order d.2 l).length ⟨m, out, fs⟩
      ⟨m', out', fs.set i (.list (pre ++ receivedList order order' l))⟩
  | [], cls, i, d, hd, ht, hs, fs, pre, hfs, m, cs, out, hm => by
    rw [listChunks] at hm ⊢
    rw [receivedList, List.append_nil]
    exact Steps.of_nothing hfs out hm
  | o :: os, cls, i, d, hd, ht, hs, fs, pre, hfs, m, cs, out, hm => by
    rw [listChunks, List.append_assoc] at hm
    rw [ListSendable] at hs
    have htag := List.all_eq_true.mp (wireFields_tagged cls) d (List.mem_of_getElem? hd)
    have hhead : FieldHasType d.1.type (.list os) ∧ ∃ m' out',
        At m' (listChunks order d.2 os ++ cs) ∧
        Steps order' now cls (objChunks order d.2 o).length ⟨m, out, fs⟩
          ⟨m', out', fs.set i (.list (pre ++ [received order order' o]))⟩ := by
      cases htype : d.1.type with
      | primList t =>
        rw [htype] at ht
        rw [Tagged, htype] at htag
        obtain ⟨tag, htag⟩ := Option.isSome_iff_exists.mp htag
        exact ⟨ht.2, read_element order order' now hd htype htag ht.1 hs.1 hs.2.1 hfs out hm⟩
      | structList c k =>
        rw [htype] at ht
        rw [Tagged, htype] at htag
        obtain ⟨tag, htag⟩ := Option.isSome_iff_exists.mp htag
        refine ⟨ht.2, Steps.of_object hd hfs htag (by simp [WireField.tags, htype, htag])
          (by rw [htype]; rfl) (fun o => .list (pre ++ [o])) ?_ (readsBack_struct o ht.1 hs.1)
          out hm⟩
        rw [htype, newStruct]
      | _ => rw [htype] at ht; exact ht.elim
    obtain ⟨hos, m₁, out₁, hat, hsteps⟩ := hhead
    have hi : i < fs.length := (List.getElem?_eq_some_iff.mp hfs).1
    obtain ⟨m', out', hat', hsteps'⟩ := read_list os hd hos hs.2.2
      (pre ++ [received order order' o]) (List.getElem?_set_self hi) out₁ hat
    refine ⟨m', out', hat', ?_⟩
    rw [listChunks, List.length_append, receivedList]
    rw [List.set_set, List.append_assoc, List.singleton_append] at hsteps'
    exact hsteps.trans hsteps'

end

end Read

section Compare

theorem compare_receivedPrim (p : Prim) : p.compare (receivedPrim order order p) = 0 := by
  cases p with
  | string s =>
    by_cases hs : preludeStringIsEmpty s
    · have hnil : s.buf.getD [] = [] := by
        simpa [preludeStringIsEmpty, PreludeString.index] using hs
      simp [Prim.compare, receivedPrim, Prim.content, hs, preludeStringCompare, hnil,
        preludeStringNew, PreludeString.index]
    · have hself : receivedPrim order order (.string s) = .string s :=
        congrArg Prim.string (if_neg hs)
      rw [hself, Prim.compare_self]
  | time t => exact Prim.compare_self _
  | data d =>
    have hd : receivedData order order d = d := by
      cases d with
      | immediate type bytes => rw [receivedData, represent_hostNumber]
      | _ => rfl
    rw [receivedPrim, hd, Prim.compare_self]

theorem compareScalar_received {type : FieldType} {isSet : Bool} {val : ℤ} :
    compareField type (.scalar isSet val) (receivedScalar type isSet val) 0 = .ok 0 := by
  cases type <;> cases isSet <;>
    simp [compareField, compareScalar, receivedScalar, FieldType.optional, floatCompare_self]

mutual

theorem idmefCompare_received : ∀ (o : Obj) {t : ObjType}, HasType t o →
    idmefCompare o (received order order o) = 0
  | .prim _ p, _, _ => by
    rw [received, idmefCompare]
    exact compare_receivedPrim order p
  | .struct cls _ fs, .struct _, ht => by
    rw [received, idmefCompare]
    exact compareFields_received fs ht.2.2
  | .struct _ _ _, .prim _, ht => ht.elim

theorem compareFields_received : ∀ (fs : List Field) {ds : List FieldDesc},
    FieldsHaveType ds fs → compareFields ds fs (receivedFields order order ds fs) 0 = 0
  | [], ds, _ => by
    cases ds <;> simp [compareFields]
  | f :: fs, [], ht => ht.elim
  | f :: fs, d :: ds, ht => by
    rw [receivedFields, compareFields, compareField_received f ht.1]
    exact compareFields_received fs ht.2

theorem compareField_received : ∀ (f : Field) {type : FieldType}, FieldHasType type f →
    compareField type f (receivedField order order type f) 0 = .ok 0
  | .scalar isSet val, type, _ => by
    rw [receivedField]
    exact compareScalar_received
  | .ptr none, type, _ => by
    rw [receivedField, compareField]
    simp [compareOpt]
  | .ptr (some o), type, ht => by
    obtain ⟨t, ho, -⟩ := ht.of_ptr
    rw [receivedField, compareField]
    simp [compareOpt, idmefCompare_received o ho]
  | .list l, type, ht => by
    obtain ⟨t, hl, -⟩ := ht.of_list
    rw [receivedField, compareField]
    simp [compareList_received l hl]
  | .union var none, type, _ => by
    rw [receivedField, compareField]
    simp [compareOpt]
  | .union var (some o), type, ht => by
    obtain ⟨c, -, -, ho⟩ := ht.of_member
    rw [receivedField, compareField]
    simp [compareOpt, idmefCompare_received o ho]

theorem compareList_received : ∀ (l : List Obj) {t : ObjType}, ListHasType t l →
    compareList l (receivedList order order l) = 0
  | [], _, _ => by rw [receivedList, compareList]
  | o :: os, t, ht => by
    rw [receivedList, compareList]
    simp [idmefCompare_received o ht.1, compareList_received os ht.2]

end

end Compare

section Transfer

variable (async : Bool)

/-- Messages are sent one after the other. -/
def sendAll (order : ByteOrder) : List Obj → Msg → Link → Option (Msg × Link)
  | [], m, l => some (m, l)
  | o :: os, m, l => do
    let (m, l) ← sendIdmef async order o m l
    sendAll order os m l

def messageBytes (order : ByteOrder) (o : Obj) : List UInt8 :=
  (objChunks order none o).flatMap chunkBytes

/-- Sending a message puts its frames on the stream and leaves an empty buffer. -/
theorem sendIdmef_spec {m : Msg} (hm : m.Filling []) (hfrag : m.hdr.isFragment = 0) {o : Obj}
    (ht : HasType (.struct .message) o) (hmax : (messageBytes order o).length < maxMessageSize)
    (l : Link) :
    ∃ m' l', ∃ w : WireMsg, sendIdmef async order o m l = some (m', l') ∧ m'.Filling [] ∧
      m'.hdr.isFragment = 0 ∧ l'.out = l.out ++ w.bytes ∧ w.data = messageBytes order o := by
  have hlen := length_chunk_lt (hmax.trans (by unfold maxMessageSize; simp : _ < 2 ^ 32))
  have hwrites : Writes (idmefWrite Link.sendMsg async order none o) (messageBytes order o) :=
    idmefWrite_spec none o hlen
  obtain ⟨m₁, l₁, fs, body, hset, happ⟩ := hwrites m [] l hm hfrag
  have hdata := happ.data
  rw [List.nil_append] at hdata
  have hne : messageBytes order o ≠ [] := by
    cases o with
    | prim _ _ => exact ht.elim
    | struct cls rc gs => simp [messageBytes, objChunks, chunkBytes]
  have hbody : body ≠ [] := by
    by_cases hfs : fs = []
    · rw [hfs, bodies_nil, List.nil_append] at hdata
      exact hdata ▸ hne
    · exact happ.left hfs
  obtain ⟨m', l', f, hmark, hfill, hfrag', hout, hfb, hd⟩ :=
    preludeMsgbufMarkEnd_spec async happ.filling hbody happ.isFragment l₁
  have hbodies : bodies (fs ++ [f]) = messageBytes order o := by
    rw [bodies_append, bodies_cons, bodies_nil, List.append_nil, hfb, ← hdata]
  refine ⟨m', l', ⟨fs, f, happ.flagged, hd.isFragment.trans happ.isFragment, ?_, ?_, ?_⟩, ?_,
    hfill, hfrag', ?_, hbodies⟩
  · exact List.forall_mem_append.mpr ⟨happ.version, by simpa using hd.version⟩
  · exact List.forall_mem_append.mpr ⟨happ.nonempty, by simpa [hfb] using hbody⟩
  · rw [hbodies]; exact hmax
  · simp [sendIdmef, idmefMessageWrite, hset, hmark]
  · simp [hout, happ.out, WireMsg.bytes, WireMsg.frames]

theorem sendAll_spec {os : List Obj} (ht : ∀ o ∈ os, HasType (.struct .message) o)
    (hmax : ∀ o ∈ os, (messageBytes order o).length < maxMessageSize) {m : Msg}
    (hm : m.Filling []) (hfrag : m.hdr.isFragment = 0) (l : Link) :
    ∃ m' l', ∃ ws : List WireMsg, sendAll async order os m l = some (m', l') ∧
      l'.out = l.out ++ ws.flatMap WireMsg.bytes ∧
      List.Forall₂ (fun o w => WireMsg.data w = messageBytes order o) os ws := by
  induction os generalizing m l with
  | nil => exact ⟨m, l, [], rfl, by simp, .nil⟩
  | cons o os ih =>
    rw [List.forall_mem_cons] at ht hmax
    obtain ⟨m₁, l₁, w, hw, hm₁, hfrag₁, hout, hdata⟩ :=
      sendIdmef_spec order async hm hfrag ht.1 hmax.1 l
    obtain ⟨m', l', ws, hws, hout', hall⟩ := ih ht.2 hmax.2 hm₁ hfrag₁ l₁
    refine ⟨m', l', w :: ws, by simp [sendAll, hw, hws], ?_, .cons hdata hall⟩
    rw [hout', hout, List.flatMap_cons, List.append_assoc]

theorem length_flatMap_chunkBytes (cs : List WireChunk) :
    5 * cs.length ≤ (cs.flatMap chunkBytes).length := by
  induction cs with
  | nil => simp
  | cons c cs ih =>
    rw [List.flatMap_cons, List.length_append, length_chunkBytes, List.length_cons]
    omega

theorem idmefMessageRead_sent {o : Obj} (ht : HasType (.struct .message) o) (hs : Sendable o)
    {m : Msg} (hm : At m (objChunks order none o)) {fuel : ℕ}
    (hf : (objChunks order none o).length ≤ fuel) :
    ∃ m', idmefMessageRead order' now fuel (idmefNew now .message) m =
      some (.ok (), m', received order order' o) := by
  obtain ⟨body, gs, hchunks, hgs, hread⟩ := readsBack_struct order order' now o ht hs
  rw [hchunks none] at hm hf
  obtain ⟨m', -, hr⟩ := hread m unsetChunk [] (by simpa [IdmefClassId.tag] using hm)
  refine ⟨m', ?_⟩
  have hr' := idmefRead_mono hr (show _ ≤ fuel by simpa [IdmefClassId.tag] using hf)
  rw [idmefMessageRead, idmefNew, Reader.inObject, hr', Option.map_some, hgs]

/-- What is sent is read at the other end, in order, whatever parts of it a write or a read of
the stream takes. -/
theorem readAll_sent {os : List Obj} {l : Link} (ht : ∀ o ∈ os, HasType (.struct .message) o)
    (hs : ∀ o ∈ os, Sendable o)
    (hmax : ∀ o ∈ os, (messageBytes order o).length < maxMessageSize) (hl : l.out = []) :
    ∃ m' l', sendAll async order os preludeMsgDynamicNew l = some (m', l') ∧
      ∀ d : Stream, d.pending = l'.out → ∀ fuel,
        Delivery.blocks d.turns + d.pending.length < fuel → ∃ ms,
          readAll fuel none d = some (ms, d.final) ∧
          List.Forall₂ (fun o m => ∀ fuel, m.hdr.datalen.toNat < 5 * fuel → ∃ m',
            idmefMessageRead order' now fuel (idmefNew now .message) m =
              some (.ok (), m', received order order' o)) os ms := by
  obtain ⟨m', l', ws, hws, hout, hall⟩ :=
    sendAll_spec order async ht hmax Msg.filling_dynamicNew rfl l
  rw [hl, List.nil_append] at hout
  refine ⟨m', l', hws, fun d hd fuel hf => ⟨ws.map WireMsg.msg,
    readAll_wireMsgs (hd.trans hout) hf, ?_⟩⟩
  rw [List.forall₂_map_right_iff]
  have hboth := (List.forall₂_and_left os ws).mpr ⟨hs, hall⟩
  refine ((List.forall₂_and_left os ws).mpr ⟨ht, hboth⟩).imp ?_
  rintro o w ⟨hto, hso, hw⟩ fuel hfuel
  have hat : At w.msg (objChunks order none o) := by
    refine ⟨w.readable_msg, _, w.payload_msg, ?_⟩
    rw [show w.msg.readIndex.toNat = (List.replicate 16 (0 : UInt8)).length by simp; rfl,
      List.drop_left, hw]
    rfl
  have hlen := length_flatMap_chunkBytes (objChunks order none o)
  rw [w.toNat_datalen_msg, hw, messageBytes] at hfuel
  exact idmefMessageRead_sent order order' now hto hso hat (by omega)

end Transfer

/-- Objects sent as messages are read with the same content at the other end, in order, whatever
parts of them a write or a read of the stream takes. -/
theorem idmef_round_trip (async : Bool) (os : List Obj) (l : Link)
    (ht : ∀ o ∈ os, HasType (.struct .message) o) (hs : ∀ o ∈ os, Sendable o)
    (hmax : ∀ o ∈ os, (messageBytes order o).length < maxMessageSize) (hl : l.out = []) :
    ∃ m' l', sendAll async order os preludeMsgDynamicNew l = some (m', l') ∧
      ∀ d : Stream, d.pending = l'.out → ∀ fuel,
        Delivery.blocks d.turns + d.pending.length < fuel → ∃ ms,
          readAll fuel none d = some (ms, d.final) ∧
          List.Forall₂ (fun o m => ∀ fuel, m.hdr.datalen.toNat < 5 * fuel → ∃ m' o',
            idmefMessageRead order' now fuel (idmefNew now .message) m = some (.ok (), m', o') ∧
            o' = received order order' o ∧ (order = order' → idmefCompare o o' = 0)) os ms := by
  obtain ⟨m', l', hsend, hread⟩ := readAll_sent order order' now async ht hs hmax hl
  refine ⟨m', l', hsend, fun d hd fuel hf => ?_⟩
  obtain ⟨ms, hms, hall⟩ := hread d hd fuel hf
  refine ⟨ms, hms, ((List.forall₂_and_left os ms).mpr ⟨ht, hall⟩).imp ?_⟩
  rintro o m ⟨hto, hm⟩ fuel hfuel
  obtain ⟨m', hr⟩ := hm fuel hfuel
  exact ⟨m', _, hr, rfl, fun heq => heq ▸ idmefCompare_received order o hto⟩

def heartbeatMessage : Obj :=
  .struct .message 1 [.ptr (some (.prim 1 (.string ⟨some [49]⟩))),
    .union 2 (some (.struct .heartbeat 2 [.ptr (some (.prim 1 (.string ⟨some [97]⟩))),
      .list [idmefNew ⟨0, 0, 0⟩ .analyzer], .ptr (some (.prim 1 (.time ⟨1, 2, 3⟩))), .ptr none,
      .scalar true 600, .list []]))]

theorem heartbeatMessage_type : HasType (.struct .message) heartbeatMessage := by
  simp [heartbeatMessage, HasType, FieldsHaveType, FieldHasType, OptHasType, ListHasType,
    IdmefClassId.fields, idmefNew, newFields, newField, FieldDesc.str, FieldDesc.requiredStr,
    FieldDesc.listed, FieldDesc.requiredTime, FieldDesc.time, FieldDesc.optionalInt,
    FieldDesc.struct, Prim.type]

theorem heartbeatMessage_sendable : Sendable heartbeatMessage := by
  simp [heartbeatMessage, Sendable, FieldsSendable, FieldSendable, ListSendable,
    IdmefClassId.fields, idmefNew, newFields, newField, FieldDesc.str, FieldDesc.requiredStr,
    FieldDesc.listed, FieldDesc.requiredTime, FieldDesc.time, FieldDesc.optionalInt,
    FieldDesc.struct, FieldType.required, Unwritten, Blank, preludeStringIsEmpty,
    PreludeString.index, PrimSendable, ScalarSendable, IdmefValueTypeId.integerType,
    IntegerType.InRange, IntegerType.signed, IntegerType.size]

theorem idmef_round_trip_heartbeat :
    let l : Link := ⟨[], [3, 0, 20], fun _ => ⟨0, 0⟩, 0⟩
    ∃ m' l', sendAll true .little [heartbeatMessage] preludeMsgDynamicNew l = some (m', l') ∧
      ∀ d : Stream, d.pending = l'.out → ∃ fuel ms, readAll fuel none d = some (ms, d.final) := by
  intro l
  obtain ⟨m', l', hsend, hread⟩ := idmef_round_trip .little .big ⟨0, 0, 0⟩ true [heartbeatMessage] l
    (by simpa using heartbeatMessage_type) (by simpa using heartbeatMessage_sendable)
    (by decide +kernel) rfl
  refine ⟨m', l', hsend, fun d hd => ?_⟩
  obtain ⟨ms, hms, -⟩ := hread d hd _ (Nat.lt_succ_self _)
  exact ⟨_, ms, hms⟩

end IdmefMessage

end LibPrelude
