import LibPrelude.Idmef.ValueType

/-! # Paths

A path leads from an object through children of its classes; a step into a list
carries an index, or stands for all elements, perhaps only those with a key. What
a path designates is nothing, a value, or a list in which absent values keep their
place. The last step gives the type of every value designated.
-/

namespace LibPrelude

/-- A value, or a list of values some of which are absent. -/
inductive IdmefValue where
  | scalar (v : ValueType)
  | list (l : List (Option IdmefValue))

def Prim.value : Prim → ValueType
  | string s => .string s
  | time t => .time t
  | data d => .data d

def IdmefValueTypeId.integerType : IdmefValueTypeId → Option IntegerType
  | int8 => some .int8
  | uint8 => some .uint8
  | int16 => some .int16
  | uint16 => some .uint16
  | int32 => some .int32
  | uint32 => some .uint32
  | int64 => some .int64
  | uint64 => some .uint64
  | _ => none

/-- What the pointer to a child refers to; a child that is no object gets a new value. -/
inductive ChildPtr where
  | null
  | value (v : ValueType)
  | object (o : Obj)
  | list (l : List Obj)

/-- The case of one child. -/
def getChildCase (c : Child) : Field → ChildPtr
  | .scalar isSet val =>
    match c.type with
    | .optionalInt t =>
      match t.integerType with
      | some i => if isSet then .value (.integer i val) else .null
      | none => .null
    | .optionalEnum e => if isSet then .value (.enum val e) else .null
    | .enum e => .value (.enum val e)
    | .float => .value (.float (Int32.ofInt val).toUInt32)
    | _ => .null
  | .ptr none => .null
  | .ptr (some (.prim _ p)) => .value p.value
  | .ptr (some o) => .object o
  | .list l => .list l
  | .union var o => if c.member.map Member.value = some var then o.elim .null .object else .null

def idmefClassGetChild (cls : IdmefClassId) (fs : List Field) (child : ℕ) :
    Except ErrorCode ChildPtr :=
  match cls.children[child]? with
  | none => .error .idmefClassUnknownChild
  | some c => .ok ((fs[c.field]?.map (getChildCase c)).getD .null)

namespace Child

def isList (c : Child) : Bool :=
  match c.type with
  | .primList _ | .structList _ _ => true
  | _ => false

def cls (c : Child) : Option IdmefClassId :=
  match c.type with
  | .struct cls _ => some cls
  | .structList cls _ => some cls
  | .union _ => c.member.map Member.cls
  | _ => none

def valueType (c : Child) : IdmefValueTypeId :=
  match c.type with
  | .optionalInt t => t
  | .optionalEnum _ | .enum _ => .enum
  | .float => .float
  | .prim t _ => t.valueType
  | .primList t => t.valueType
  | .struct _ _ | .structList _ _ | .union _ => .class

def enumId (c : Child) : Option IdmefEnumId :=
  match c.type with
  | .optionalEnum e => some e
  | .enum e => some e
  | _ => none

end Child

def indexUndefined : ℤ := -2147483648
def indexKey : ℤ := -2147483647
def indexForbidden : ℤ := -2147483646
def idmefListAppend : ℤ := 2147483647
def idmefListPrepend : ℤ := 2147483646

structure IdmefPathElement where
  index : ℤ
  key : Option (List UInt8)
  position : ℕ
  deriving DecidableEq

/-- The steps lead through classes to the last one, and no step but one into a list has an index. -/
def ValidElements : IdmefClassId → List IdmefPathElement → Prop
  | _, [] => True
  | cls, e :: es =>
    match cls.children[e.position]? with
    | none => False
    | some c =>
      (c.isList ∨ e.index = indexForbidden) ∧
        match c.cls with
        | some cls' => ValidElements cls' es
        | none => es = []

/-- A path, as the parser of paths lets it be. -/
structure IdmefPath where
  topClass : IdmefClassId
  elements : List IdmefPathElement
  valid : ValidElements topClass elements

def lastChild : IdmefClassId → List IdmefPathElement → Option Child
  | _, [] => none
  | cls, e :: es =>
    match cls.children[e.position]? with
    | none => none
    | some c =>
      match es, c.cls with
      | _ :: _, some cls' => lastChild cls' es
      | _, _ => some c

def idmefPathGetValueType (path : IdmefPath) : IdmefValueTypeId :=
  ((lastChild path.topClass path.elements).map Child.valueType).getD .class

/-- The key of an object in a keyed list is its first field. -/
def hasIndexKey (key : List UInt8) : Obj → Bool
  | .struct _ _ (.ptr (some (.prim _ (.string s))) :: _) => strcmp (s.buf.getD []) key
  | _ => false

/-- The elements of a list that a step stands for when it has no index. -/
def keyedElements (e : IdmefPathElement) (l : List Obj) : List Obj :=
  match e.key with
  | none => l
  | some key => l.filter (hasIndexKey key)

/-- With a negative index, -1 is the last element. -/
def listGetNth (l : List Obj) (which : ℤ) : Option Obj :=
  if 0 ≤ which then l[which.toNat]? else l.reverse[(-which - 1).toNat]?

/-- Whether an index stands for all elements of a list. -/
def IdmefPathElement.isMultiple (e : IdmefPathElement) : Bool :=
  e.index = indexUndefined || e.index = indexKey || e.index = idmefListAppend ||
    e.index = idmefListPrepend

/-- What the remaining steps designate from an object on. -/
def idmefPathGetInternal : List IdmefPathElement → Obj → Except ErrorCode (Option IdmefValue)
  | [], .prim _ p => .ok (some (.scalar p.value))
  | [], .struct cls rc fs => .ok (some (.scalar (.class cls (.struct cls rc fs))))
  | _ :: _, .prim _ p => .ok (some (.scalar p.value))
  | e :: es, .struct cls _ fs =>
    match idmefClassGetChild cls fs e.position with
    | .error err => .error err
    | .ok .null => .ok none
    | .ok (.value v) => .ok (some (.scalar v))
    | .ok (.object o) => idmefPathGetInternal es o
    | .ok (.list l) =>
      if e.isMultiple then
        match (keyedElements e l).mapM (idmefPathGetInternal es) with
        | .error err => .error err
        | .ok [] => .ok none
        | .ok (value :: values) => .ok (some (.list (value :: values)))
      else
        match listGetNth l e.index with
        | none => .ok none
        | some o => idmefPathGetInternal es o

def Obj.cls? : Obj → Option IdmefClassId
  | .prim _ _ => none
  | .struct cls _ _ => some cls

def idmefPathGet (path : IdmefPath) (object : Obj) : Except ErrorCode (Option IdmefValue) :=
  if object.cls? ≠ some path.topClass then .error .generic
  else idmefPathGetInternal path.elements object

mutual

/-- The values at any depth of a list, absent ones included. -/
def IdmefValue.leaves : IdmefValue → List (Option ValueType)
  | .scalar v => [some v]
  | .list l => leavesList l

def leavesOpt : Option IdmefValue → List (Option ValueType)
  | none => [none]
  | some v => v.leaves

def leavesList : List (Option IdmefValue) → List (Option ValueType)
  | [] => []
  | v :: vs => leavesOpt v ++ leavesList vs

end

theorem mem_leavesList {l : List (Option IdmefValue)} {x : Option ValueType} :
    x ∈ leavesList l ↔ ∃ v ∈ l, x ∈ leavesOpt v := by
  induction l with
  | nil => simp [leavesList]
  | cons v vs ih => simp [leavesList, ih]

/-- Something is designated, if only an absent value, and what is there has the given type. -/
def Designates (t : IdmefValueTypeId) (v : Option IdmefValue) : Prop :=
  leavesOpt v ≠ [] ∧ ∀ x, some x ∈ leavesOpt v → x.id = t

theorem designates_none (t : IdmefValueTypeId) : Designates t none := by
  refine ⟨by simp [leavesOpt], fun x hx => ?_⟩
  simp [leavesOpt] at hx

theorem designates_scalar {t : IdmefValueTypeId} {v : ValueType} (h : v.id = t) :
    Designates t (some (.scalar v)) := by
  refine ⟨by simp [leavesOpt, IdmefValue.leaves], fun x hx => ?_⟩
  simp only [leavesOpt, IdmefValue.leaves, List.mem_singleton, Option.some.injEq] at hx
  rw [hx, h]

theorem designates_list {t : IdmefValueTypeId} {l : List (Option IdmefValue)} (hne : l ≠ [])
    (h : ∀ v ∈ l, Designates t v) : Designates t (some (.list l)) := by
  constructor
  · obtain ⟨v, vs, rfl⟩ := List.exists_cons_of_ne_nil hne
    have := (h v List.mem_cons_self).1
    simp [leavesOpt, IdmefValue.leaves, leavesList, this]
  · intro x hx
    obtain ⟨v, hv, hxv⟩ := mem_leavesList.mp (show some x ∈ leavesList l from hx)
    exact (h v hv).2 x hxv

theorem mapM_ok {α β : Type} {f : α → Except ErrorCode β} {p : β → Prop} {l : List α}
    (h : ∀ a ∈ l, ∃ b, f a = .ok b ∧ p b) :
    ∃ bs, l.mapM f = .ok bs ∧ bs.length = l.length ∧ ∀ b ∈ bs, p b := by
  induction l with
  | nil => exact ⟨[], rfl, rfl, by simp⟩
  | cons a as ih =>
    obtain ⟨b, hb, hpb⟩ := h a List.mem_cons_self
    obtain ⟨bs, hbs, hlen, hpbs⟩ := ih fun a' ha => h a' (List.mem_cons_of_mem _ ha)
    refine ⟨b :: bs, ?_, by simp [hlen], ?_⟩
    · rw [List.mapM_cons, hb, hbs]
      rfl
    · intro b' hb'
      rcases List.mem_cons.mp hb' with rfl | hb'
      · exact hpb
      · exact hpbs b' hb'

theorem listHasType_mem {t : ObjType} {l : List Obj} (h : ListHasType t l) {o : Obj}
    (ho : o ∈ l) : HasType t o := by
  induction l with
  | nil => cases ho
  | cons a as ih =>
    simp only [ListHasType] at h
    rcases List.mem_cons.mp ho with rfl | ho
    · exact h.1
    · exact ih h.2 ho

theorem listGetNth_mem {l : List Obj} {which : ℤ} {o : Obj} (h : listGetNth l which = some o) :
    o ∈ l := by
  unfold listGetNth at h
  split_ifs at h
  · exact List.mem_of_getElem? h
  · exact List.mem_reverse.mp (List.mem_of_getElem? h)

theorem keyedElements_mem {e : IdmefPathElement} {l : List Obj} {o : Obj}
    (h : o ∈ keyedElements e l) : o ∈ l := by
  unfold keyedElements at h
  split at h
  · exact h
  · exact (List.mem_filter.mp h).1

/-- What a child of a field of the right type can be. -/
def ChildHasType (c : Child) : ChildPtr → Prop
  | .null => True
  | .value v => v.id = c.valueType ∧ c.cls = none
  | .object o => ∃ cls, c.cls = some cls ∧ HasType (.struct cls) o
  | .list l => c.isList ∧ ((∃ cls, c.cls = some cls ∧ ListHasType (.struct cls) l) ∨
      c.cls = none ∧ ∃ t : PrimType, c.valueType = t.valueType ∧ ListHasType (.prim t) l)

theorem integerType_id {t : IdmefValueTypeId} {i : IntegerType} (h : t.integerType = some i) :
    i.id = t := by
  cases t <;> cases h <;> rfl

/-- The values of the discriminant are distinct. -/
def FieldDesc.distinct (d : FieldDesc) : Bool :=
  match d.type with
  | .union members => (members.map Member.value).Nodup
  | _ => true

theorem fields_distinct (cls : IdmefClassId) : cls.fields.all FieldDesc.distinct := by
  cases cls <;> decide

theorem children_mem {cls : IdmefClassId} {c : Child} (h : c ∈ cls.children) :
    ∃ d, cls.fields[c.field]? = some d ∧ c ∈ d.children c.field := by
  obtain ⟨⟨d, k⟩, hd, hc⟩ := List.mem_flatMap.mp h
  have hfield : c.field = k := by
    unfold FieldDesc.children at hc
    split at hc
    · obtain ⟨m, -, rfl⟩ := List.mem_map.mp hc
      rfl
    · rw [List.mem_singleton.mp hc]
  subst hfield
  exact ⟨d, List.mem_zipIdx_iff_getElem?.mp hd, hc⟩

theorem children_type {d : FieldDesc} {k : ℕ} {c : Child} (h : c ∈ d.children k) :
    c.type = d.type := by
  unfold FieldDesc.children at h
  split at h
  · obtain ⟨m, -, rfl⟩ := List.mem_map.mp h
    rfl
  · rw [List.mem_singleton.mp h]

theorem children_member {d : FieldDesc} {k : ℕ} {c : Child} {members : List Member}
    (h : c ∈ d.children k) (hd : d.type = .union members) : ∃ m ∈ members, c.member = some m := by
  unfold FieldDesc.children at h
  rw [hd] at h
  obtain ⟨m, hm, rfl⟩ := List.mem_map.mp h
  exact ⟨m, hm, rfl⟩

theorem fieldsHaveType_getElem {ds : List FieldDesc} {fs : List Field} (h : FieldsHaveType ds fs)
    {k : ℕ} {d : FieldDesc} (hd : ds[k]? = some d) :
    ∃ f, fs[k]? = some f ∧ FieldHasType d.type f := by
  induction ds generalizing fs k with
  | nil => simp at hd
  | cons d' ds ih =>
    cases fs with
    | nil => simp [FieldsHaveType] at h
    | cons f fs =>
      simp only [FieldsHaveType] at h
      cases k with
      | zero =>
        obtain rfl := Option.some.inj hd
        exact ⟨f, rfl, h.1⟩
      | succ k => exact ih h.2 hd

theorem find_of_distinct {members : List Member} (h : (members.map Member.value).Nodup)
    {m : Member} (hm : m ∈ members) : members.find? (fun m' => m'.value = m.value) = some m := by
  induction members with
  | nil => cases hm
  | cons a as ih =>
    simp only [List.map_cons, List.nodup_cons] at h
    by_cases ha : a.value = m.value
    · rcases List.mem_cons.mp hm with rfl | hm
      · simp
      · exact absurd (List.mem_map.mpr ⟨m, hm, ha.symm⟩) h.1
    · rcases List.mem_cons.mp hm with rfl | hm
      · exact absurd rfl ha
      · rw [List.find?_cons_of_neg (by simpa using ha), ih h.2 hm]

theorem getChildCase_hasType {d : FieldDesc} {k : ℕ} {c : Child} (hc : c ∈ d.children k)
    (hd : d.distinct) {f : Field} (hf : FieldHasType d.type f) :
    ChildHasType c (getChildCase c f) := by
  have htype := children_type hc
  unfold getChildCase
  rcases hdt : d.type with t | e | e | _ | ⟨t, r⟩ | ⟨cls, r⟩ | t | ⟨cls, keyed⟩ | members
  case optionalInt =>
    rw [hdt] at hf htype
    rcases f with ⟨isSet, val⟩ | o | l | ⟨var, o⟩ <;> simp only [FieldHasType] at hf
    simp only [htype]
    rcases hi : t.integerType with _ | i
    · exact True.intro
    · cases isSet
      · exact True.intro
      · exact ⟨by simp [Child.valueType, htype, ValueType.id, integerType_id hi],
          by simp [Child.cls, htype]⟩
  case optionalEnum =>
    rw [hdt] at hf htype
    rcases f with ⟨isSet, val⟩ | o | l | ⟨var, o⟩ <;> simp only [FieldHasType] at hf
    simp only [htype]
    cases isSet
    · exact True.intro
    · exact ⟨by simp [Child.valueType, htype, ValueType.id], by simp [Child.cls, htype]⟩
  case enum =>
    rw [hdt] at hf htype
    rcases f with ⟨isSet, val⟩ | o | l | ⟨var, o⟩ <;> simp only [FieldHasType] at hf
    simp only [htype]
    exact ⟨by simp [Child.valueType, htype, ValueType.id], by simp [Child.cls, htype]⟩
  case float =>
    rw [hdt] at hf htype
    rcases f with ⟨isSet, val⟩ | o | l | ⟨var, o⟩ <;> simp only [FieldHasType] at hf
    simp only [htype]
    exact ⟨by simp [Child.valueType, htype, ValueType.id], by simp [Child.cls, htype]⟩
  case prim =>
    rw [hdt] at hf htype
    rcases f with ⟨isSet, val⟩ | o | l | ⟨var, o⟩ <;> simp only [FieldHasType] at hf
    rcases o with _ | o
    · exact True.intro
    · simp only [OptHasType] at hf
      rcases o with ⟨rc, p⟩ | ⟨cls, rc, fs⟩ <;> simp only [HasType] at hf
      refine ⟨?_, by simp [Child.cls, htype]⟩
      rw [Child.valueType, htype, ← hf.2]
      cases p <;> rfl
  case struct =>
    rw [hdt] at hf htype
    rcases f with ⟨isSet, val⟩ | o | l | ⟨var, o⟩ <;> simp only [FieldHasType] at hf
    rcases o with _ | o
    · exact True.intro
    · simp only [OptHasType] at hf
      rcases o with ⟨rc, p⟩ | ⟨cls', rc, fs⟩
      · simp only [HasType] at hf
      · exact ⟨cls, by simp [Child.cls, htype], hf⟩
  case primList =>
    rw [hdt] at hf htype
    rcases f with ⟨isSet, val⟩ | o | l | ⟨var, o⟩ <;> simp only [FieldHasType] at hf
    exact ⟨by simp [Child.isList, htype], .inr ⟨by simp [Child.cls, htype], t,
      by simp [Child.valueType, htype], hf⟩⟩
  case structList =>
    rw [hdt] at hf htype
    rcases f with ⟨isSet, val⟩ | o | l | ⟨var, o⟩ <;> simp only [FieldHasType] at hf
    exact ⟨by simp [Child.isList, htype], .inl ⟨cls, by simp [Child.cls, htype], hf⟩⟩
  case union =>
    obtain ⟨m, hm, hmember⟩ := children_member hc hdt
    have hnodup : (members.map Member.value).Nodup := by
      simpa [FieldDesc.distinct, hdt] using hd
    rw [hdt] at hf htype
    rcases f with ⟨isSet, val⟩ | o | l | ⟨var, _ | o⟩ <;> simp only [FieldHasType] at hf
    · simp only [Option.elim_none, ite_self]
      exact True.intro
    · simp only [hmember, Option.map_some, Option.some.injEq, Option.elim_some]
      split_ifs with hvar
      · subst hvar
        rw [find_of_distinct hnodup hm] at hf
        exact ⟨m.cls, by simp [Child.cls, htype, hmember], hf.2⟩
      · exact True.intro

theorem idmefClassGetChild_hasType {cls : IdmefClassId} {rc : ℕ} {fs : List Field}
    (ho : HasType (.struct cls) (.struct cls rc fs)) {k : ℕ} {c : Child}
    (hc : cls.children[k]? = some c) :
    ∃ p, idmefClassGetChild cls fs k = .ok p ∧ ChildHasType c p := by
  obtain ⟨d, hd, hcd⟩ := children_mem (List.mem_of_getElem? hc)
  simp only [HasType] at ho
  obtain ⟨f, hf, hft⟩ := fieldsHaveType_getElem ho.2.2 hd
  have hdist := List.all_eq_true.mp (fields_distinct cls) d (List.mem_of_getElem? hd)
  refine ⟨getChildCase c f, ?_, getChildCase_hasType hcd hdist hft⟩
  simp only [idmefClassGetChild, hc, hf, Option.map_some, Option.getD_some]

/-- The type of what remaining steps designate. -/
def elementsValueType (cls : IdmefClassId) (es : List IdmefPathElement) : IdmefValueTypeId :=
  ((lastChild cls es).map Child.valueType).getD .class

theorem validElements_cons {cls cls' : IdmefClassId} {e : IdmefPathElement}
    {es : List IdmefPathElement} (h : ValidElements cls (e :: es)) {c : Child}
    (hc : cls.children[e.position]? = some c) (hcls : c.cls = some cls') :
    ValidElements cls' es ∧
      elementsValueType cls (e :: es) = elementsValueType cls' es := by
  have hclass : c.valueType = .class := by
    unfold Child.cls at hcls
    unfold Child.valueType
    split at hcls <;> simp_all
  simp only [ValidElements, hc, hcls] at h
  refine ⟨h.2, ?_⟩
  cases es with
  | nil => simp [elementsValueType, lastChild, hc, hclass]
  | cons e' es => simp only [elementsValueType, lastChild, hc, hcls]

theorem validElements_last {cls : IdmefClassId} {e : IdmefPathElement}
    {es : List IdmefPathElement} (h : ValidElements cls (e :: es)) {c : Child}
    (hc : cls.children[e.position]? = some c) (hcls : c.cls = none) :
    es = [] ∧ elementsValueType cls (e :: es) = c.valueType := by
  simp only [ValidElements, hc, hcls] at h
  obtain ⟨-, rfl⟩ := h
  exact ⟨rfl, by simp [elementsValueType, lastChild, hc]⟩

/-- Getting along valid steps from an object of the right class succeeds, and what is designated
has the type of the last step. -/
theorem idmefPathGetInternal_designates {cls : IdmefClassId} {es : List IdmefPathElement} {o : Obj}
    (ho : HasType (.struct cls) o) (hes : ValidElements cls es) :
    ∃ v, idmefPathGetInternal es o = .ok v ∧ Designates (elementsValueType cls es) v := by
  induction es generalizing cls o with
  | nil =>
    cases o with
    | prim rc p => simp [HasType] at ho
    | struct cls' rc fs => exact ⟨_, rfl, designates_scalar rfl⟩
  | cons e es ih =>
    rcases o with ⟨rc, p⟩ | ⟨cls', rc, fs⟩
    · simp [HasType] at ho
    obtain rfl : cls' = cls := by
      simp only [HasType] at ho
      exact ho.2.1
    rcases hc : cls'.children[e.position]? with _ | c
    · simp [ValidElements, hc] at hes
    obtain ⟨p, hp, htype⟩ := idmefClassGetChild_hasType ho hc
    simp only [idmefPathGetInternal, hp]
    cases p with
    | null => exact ⟨none, rfl, designates_none _⟩
    | value v =>
      obtain ⟨-, hlast⟩ := validElements_last hes hc htype.2
      exact ⟨_, rfl, designates_scalar (by rw [hlast, htype.1])⟩
    | object o =>
      obtain ⟨cls, hcls, ho'⟩ := htype
      obtain ⟨hes', hlast⟩ := validElements_cons hes hc hcls
      rw [hlast]
      exact ih ho' hes'
    | list l =>
      have helem : ∀ o ∈ l, ∃ v, idmefPathGetInternal es o = .ok v ∧
          Designates (elementsValueType cls' (e :: es)) v := by
        intro o hol
        rcases htype.2 with ⟨cls, hcls, hl⟩ | ⟨hcls, t, ht, hl⟩
        · obtain ⟨hes', hlast⟩ := validElements_cons hes hc hcls
          rw [hlast]
          exact ih (listHasType_mem hl hol) hes'
        · obtain ⟨rfl, hlast⟩ := validElements_last hes hc hcls
          have hprim := listHasType_mem hl hol
          rcases o with ⟨rc, p⟩ | ⟨cls, rc, fs⟩
          · simp only [HasType] at hprim
            refine ⟨_, rfl, designates_scalar ?_⟩
            rw [hlast, ht, ← hprim.2]
            cases p <;> rfl
          · simp [HasType] at hprim
      by_cases hm : e.isMultiple
      · obtain ⟨vs, hvs, -, hall⟩ := mapM_ok fun o ho => helem o (@keyedElements_mem e l o ho)
        simp only [hm, if_true, hvs]
        cases vs with
        | nil => exact ⟨none, rfl, designates_none _⟩
        | cons v vs => exact ⟨_, rfl, designates_list (List.cons_ne_nil v vs) hall⟩
      · simp only [hm, Bool.false_eq_true, if_false]
        rcases hn : listGetNth l e.index with _ | o
        · exact ⟨none, rfl, designates_none _⟩
        · exact helem o (listGetNth_mem hn)

theorem idmefPathGet_designates {path : IdmefPath} {object : Obj}
    (ho : HasType (.struct path.topClass) object) :
    ∃ v, idmefPathGet path object = .ok v ∧ Designates (idmefPathGetValueType path) v := by
  obtain ⟨v, hv, hd⟩ := idmefPathGetInternal_designates ho path.valid
  refine ⟨v, ?_, hd⟩
  have hcls : object.cls? = some path.topClass := by
    cases object with
    | prim rc p => simp [HasType] at ho
    | struct cls rc fs =>
      simp only [HasType] at ho
      rw [Obj.cls?, ho.2.1]
  rw [idmefPathGet, if_neg (by simpa using hcls), hv]

end LibPrelude
