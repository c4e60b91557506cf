import LibPrelude.Idmef.ValueCast

/-! # Storing values

A value is stored by a copy of it, cast to the type of the place. A copy of an object
fails where the destination lacks a required child that the source has; what was copied
before stays.
-/

namespace LibPrelude

abbrev SetRet := Except SetFailure Unit

def failing {α : Type} (r : Ret × α) : SetRet × α := (r.1.mapError .code, r.2)

/-- The copy of a value onto an object; an object of a class is taken for one of the class of the
value. -/
def idmefValueTypeCopy (now : IdmefTime) : ValueType → Obj → SetRet × Obj
  | .string s, .prim rc (.string _) => (.ok (), .prim rc (.string (preludeStringCopyDup s)))
  | .time t, .prim rc (.time _) => (.ok (), .prim rc (.time t))
  | .data d, .prim rc (.data _) => (.ok (), .prim rc (.data d))
  | .class cls src, .struct cls' rc fs =>
    if cls = cls' then failing (idmefCopy now src (.struct cls' rc fs))
    else (.error .stray, .struct cls' rc fs)
  | _, o => (.error .stray, o)

/-- The copy of a value onto the place of a leaf in its object. -/
def copyToLeaf (now : IdmefTime) : ValueType → Field → SetRet × Field
  | .integer _ v, .scalar isSet _ => (.ok (), .scalar isSet v)
  | .float bits, .scalar isSet _ => (.ok (), .scalar isSet bits.toInt32.toInt)
  | .enum v _, .scalar isSet _ => (.ok (), .scalar isSet v)
  | v, .ptr (some o) =>
    let r := idmefValueTypeCopy now v o
    (r.1, .ptr (some r.2))
  | _, f => (.error .stray, f)

/-- The value is copied as one of the type of the place. -/
def idmefValueCopyInternal {α : Type} (m : CastContext) (copy : ValueType → α → SetRet × α)
    (val : IdmefValue) (resType : IdmefValueTypeId) (resId : Option IdmefEnumId) (res : α) :
    SetRet × α :=
  match valueAs m val resType resId with
  | .error e => (.error e, res)
  | .ok v => copy v res

mutual

/-- Every required child that the first object has is there in the second. -/
def Complete : Obj → Obj → Prop
  | .prim _ _, .prim _ _ => True
  | .struct _ _ src, .struct cls _ dst => CompleteFields cls.fields src dst
  | _, _ => False

def CompleteFields : List FieldDesc → List Field → List Field → Prop
  | d :: ds, src :: srcs, dst :: dsts =>
    CompleteField d.type src dst ∧ CompleteFields ds srcs dsts
  | _, _, _ => True

def CompleteField (type : FieldType) : Field → Field → Prop
  | .ptr (some src), .ptr dst => type.required → ∃ o, dst = some o ∧ Complete src o
  | _, _ => True

end

mutual

/-- All that a copy of the first object replaces in the second is there as the copy has it, up to
the first child that is missing. -/
def Untouched (now : IdmefTime) : Obj → Obj → Prop
  | .prim _ src, .prim _ dst => src.copy dst = dst
  | .struct _ _ src, .struct cls _ dst => UntouchedFields now cls.fields src dst
  | _, _ => True

def UntouchedFields (now : IdmefTime) : List FieldDesc → List Field → List Field → Prop
  | d :: ds, src :: srcs, dst :: dsts =>
    UntouchedField now d.type src dst ∧
      (CompleteField d.type src dst → UntouchedFields now ds srcs dsts)
  | _, _, _ => True

def UntouchedField (now : IdmefTime) (type : FieldType) : Field → Field → Prop
  | .scalar isSet val, .scalar isSet' val' => val' = val ∧ (type.optional → isSet' = isSet)
  | .ptr none, .ptr dst => type.required ∨ dst = none
  | .ptr (some src), .ptr dst =>
    if type.required then ∀ o, dst = some o → Untouched now src o
    else dst = some (idmefClone now src)
  | .list src, .list dst => dst.filterMap destroyListed ++ cloneList now src = dst
  | .union var src, .union var' dst => var' = var ∧ dst = src.map (idmefClone now)
  | _, _ => True

end

/-- A leaf of the shape of a type. -/
def LeafFits : IdmefValueTypeId → Field → Prop
  | .string, .ptr (some (.prim _ (.string _))) => True
  | .time, .ptr (some (.prim _ (.time _))) => True
  | .data, .ptr (some (.prim _ (.data _))) => True
  | type, .scalar _ _ => type.integerType ≠ none ∨ type = .float ∨ type = .enum
  | _, _ => False

/-- A leaf holds a value. -/
def LeafHolds : ValueType → Field → Prop
  | .integer _ v, .scalar _ val => val = v
  | .float bits, .scalar _ val => val = bits.toInt32.toInt
  | .enum v _, .scalar _ val => val = v
  | .string s, .ptr (some (.prim _ (.string s'))) => s' = s
  | .time t, .ptr (some (.prim _ (.time t'))) => t' = t
  | .data d, .ptr (some (.prim _ (.data d'))) => d' = d
  | _, _ => False

section

variable (now : IdmefTime)

mutual

/-- When a copy of an object succeeds, and when it leaves the destination as it was. -/
theorem idmefCopy_spec : ∀ src dst : Obj, ((idmefCopy now src dst).1 = .ok () ↔ Complete src dst) ∧
    ((idmefCopy now src dst).2 = dst ↔ Untouched now src dst)
  | .prim _ src, .prim _ dst => by simp [idmefCopy, Complete, Untouched]
  | .struct _ _ src, .struct cls _ dst => by
    have h := copyFields_spec src cls.fields dst
    simpa [idmefCopy, Complete, Untouched] using h
  | .prim _ _, .struct _ _ _ => by simp [idmefCopy, Complete, Untouched]
  | .struct _ _ _, .prim _ _ => by simp [idmefCopy, Complete, Untouched]

theorem copyFields_spec : ∀ (srcs : List Field) (ds : List FieldDesc) (dsts : List Field),
    ((copyFields now ds srcs dsts).1 = .ok () ↔ CompleteFields ds srcs dsts) ∧
      ((copyFields now ds srcs dsts).2 = dsts ↔ UntouchedFields now ds srcs dsts)
  | [], ds, dsts => by cases ds <;> simp [copyFields, CompleteFields, UntouchedFields]
  | _ :: _, [], _ => by simp [copyFields, CompleteFields, UntouchedFields]
  | _ :: _, _ :: _, [] => by simp [copyFields, CompleteFields, UntouchedFields]
  | src :: srcs, d :: ds, dst :: dsts => by
    obtain ⟨hok, hsame⟩ := copyField_spec src d.type dst
    obtain ⟨hoks, hsames⟩ := copyFields_spec srcs ds dsts
    rw [copyFields, CompleteFields, UntouchedFields, ← hok, ← hoks, ← hsame, ← hsames]
    rcases copyField now d.type src dst with ⟨e | ⟨⟩, dst'⟩ <;> simp

theorem copyField_spec : ∀ (src : Field) (type : FieldType) (dst : Field),
    ((copyField now type src dst).1 = .ok () ↔ CompleteField type src dst) ∧
      ((copyField now type src dst).2 = dst ↔ UntouchedField now type src dst)
  | .scalar isSet val, type, dst => by
    cases dst <;> by_cases h : type.optional <;>
      simp [copyField, CompleteField, UntouchedField, h, eq_comm, and_comm]
  | .ptr none, type, dst => by
    cases dst <;> by_cases h : type.required <;>
      simp [copyField, CompleteField, UntouchedField, h, eq_comm]
  | .ptr (some src), type, .ptr dst => by
    by_cases h : type.required
    · rcases dst with _ | dst
      · simp [copyField, CompleteField, UntouchedField, h]
      · have hspec := idmefCopy_spec src dst
        simpa [copyField, CompleteField, UntouchedField, h] using hspec
    · simp [copyField, CompleteField, UntouchedField, h, eq_comm]
  | .ptr (some src), type, .scalar _ _ => by simp [copyField, CompleteField, UntouchedField]
  | .ptr (some src), type, .list _ => by simp [copyField, CompleteField, UntouchedField]
  | .ptr (some src), type, .union _ _ => by simp [copyField, CompleteField, UntouchedField]
  | .list src, type, dst => by cases dst <;> simp [copyField, CompleteField, UntouchedField]
  | .union var none, type, dst => by
    cases dst <;> simp [copyField, CompleteField, UntouchedField, eq_comm]
  | .union var (some src), type, dst => by
    cases dst <;> simp [copyField, CompleteField, UntouchedField, eq_comm]

end

end

/-- When a call succeeds and when it returns an error, and when it does so and leaves what it is to
change as it was. -/
structure Decided {α : Type} (r : SetRet × α) (before : α) (can fails stops holds : Prop) :
    Prop where
  can : r.1 = .ok () ↔ can
  fails : (∃ err, r.1 = .error (.code err)) ↔ fails
  stops : (∃ err, r = (.error (.code err), before)) ↔ stops
  holds : r = (.ok (), before) ↔ holds

section

variable (m : CastContext) (now : IdmefTime) (val : IdmefValue) (type : IdmefValueTypeId)
  (id : Option IdmefEnumId)

/-- The value can be stored in an object, whose child has a type: it converts, or it is an object of
the same class with no child that the other one requires and lacks. -/
def CanStore : Obj → Prop
  | .prim rc p => Converts m val type id ∧ LeafFits type (.ptr (some (.prim rc p)))
  | .struct cls rc fs => type = .class ∧ ∃ src, val = .scalar (.class cls src) ∧
      Complete src (.struct cls rc fs)

/-- The value is an object whose copy fails. -/
def CopyFails : Obj → Prop
  | .prim _ _ => False
  | .struct cls rc fs => type = .class ∧ ∃ src, val = .scalar (.class cls src) ∧
      ¬ Complete src (.struct cls rc fs)

/-- What the value is stored as is there already. -/
def StoredIn : Obj → Prop
  | .prim rc p => ∃ v, valueAs m val type id = .ok v ∧ LeafHolds v (.ptr (some (.prim rc p)))
  | .struct cls rc fs => ∀ src, val = .scalar (.class cls src) →
      Untouched now src (.struct cls rc fs)

end

section

variable {m : CastContext} {now : IdmefTime} {val : IdmefValue} {type : IdmefValueTypeId}
  {id : Option IdmefEnumId} {f : Field} {v : ValueType} {o : Obj}

/-- A value that is not an object is stored in every leaf of its type, and nowhere else. -/
theorem copyToLeaf_cases (hf : v.id = .class → ∃ isSet n, f = .scalar isSet n) :
    (copyToLeaf now v f).1 = .ok () ∧ LeafFits v.id f ∨
      copyToLeaf now v f = (.error .stray, f) ∧ ¬ LeafFits v.id f := by
  rcases v with ⟨t, n⟩ | bits | bits | s | t | d | ⟨n, e⟩ | ⟨cls, o⟩
  case «class» =>
    obtain ⟨isSet, n, rfl⟩ := hf rfl
    simp [copyToLeaf, LeafFits, ValueType.id, IdmefValueTypeId.integerType]
  case integer =>
    rcases f with ⟨isSet, val⟩ | (_ | ⟨rc, p | p | p⟩ | ⟨cls, rc, fs⟩) | l | ⟨var, o⟩ <;>
      cases t <;> simp [copyToLeaf, idmefValueTypeCopy, LeafFits, ValueType.id, IntegerType.id,
        IdmefValueTypeId.integerType]
  all_goals
    rcases f with ⟨isSet, val⟩ | (_ | ⟨rc, p | p | p⟩ | ⟨cls, rc, fs⟩) | l | ⟨var, o⟩ <;>
      simp [copyToLeaf, idmefValueTypeCopy, LeafFits, ValueType.id, IdmefValueTypeId.integerType]

theorem copyToLeaf_same (hf : v.id = .class → ∃ isSet n, f = .scalar isSet n) :
    copyToLeaf now v f = (.ok (), f) ↔ LeafHolds v f := by
  rcases v with ⟨t, n⟩ | bits | bits | s | t | d | ⟨n, e⟩ | ⟨cls, o⟩
  case «class» =>
    obtain ⟨isSet, n, rfl⟩ := hf rfl
    simp [copyToLeaf, LeafHolds]
  all_goals
    rcases f with ⟨isSet, val⟩ | (_ | ⟨rc, p | p | p⟩ | ⟨cls, rc, fs⟩) | l | ⟨var, o⟩ <;>
      simp [copyToLeaf, idmefValueTypeCopy, LeafHolds, preludeStringCopyDup, eq_comm]

theorem copyLeaf_decided (hf : type = .class → ∃ isSet n, f = .scalar isSet n) :
    Decided (idmefValueCopyInternal m (copyToLeaf now) val type id f) f
      (Converts m val type id ∧ LeafFits type f) (Refuses m val type id) (Refuses m val type id)
      (∃ v, valueAs m val type id = .ok v ∧ LeafHolds v f) := by
  have hends := @valueAs_ends m type val id
  rw [idmefValueCopyInternal]
  rcases hvalue : valueAs m val type id with (err | _) | v <;> rw [hvalue] at hends
  · exact ⟨by simp [hends.1], iff_of_true ⟨err, rfl⟩ hends, iff_of_true ⟨err, rfl⟩ hends, by simp⟩
  · have hnot : ¬ Refuses m val type id := fun h => h.2 hends.2
    exact ⟨by simp [hends.1], by simp [hnot], by simp [hnot], by simp⟩
  · obtain ⟨rfl, hconverts⟩ := hends
    have hsame := @copyToLeaf_same now f v hf
    have hnot : ¬ Refuses m val v.id id := fun h => h.1 hconverts
    simp only [Except.ok.injEq, exists_eq_left', hconverts, true_and, hnot]
    rcases @copyToLeaf_cases now f v hf with ⟨hret, hfits⟩ | ⟨hret, hfits⟩
    · refine ⟨by simp [hret, hfits], by simp [hret], by simp [Prod.ext_iff, hret], hsame⟩
    · refine ⟨by simp [hret, hfits], by simp [hret], by simp [hret], hsame⟩

theorem Decided.of_map {α β : Type} {r : SetRet × α} {before : α} {can fails stops holds : Prop}
    {g : α → β} (hg : Function.Injective g)
    (h : Decided (r.1, g r.2) (g before) can fails stops holds) :
    Decided r before can fails stops holds := by
  obtain ⟨ret, after⟩ := r
  refine ⟨h.can, h.fails, ?_, ?_⟩
  · simpa [hg.eq_iff] using h.stops
  · simpa [hg.eq_iff] using h.holds

theorem copyToLeaf_ptr (v : ValueType) (o : Obj) : copyToLeaf now v (.ptr (some o)) =
    ((idmefValueTypeCopy now v o).1, .ptr (some (idmefValueTypeCopy now v o).2)) := by
  cases v <;> rfl

theorem copyInternal_ptr : idmefValueCopyInternal m (copyToLeaf now) val type id (.ptr (some o)) =
    ((idmefValueCopyInternal m (idmefValueTypeCopy now) val type id o).1,
      .ptr (some (idmefValueCopyInternal m (idmefValueTypeCopy now) val type id o).2)) := by
  rw [idmefValueCopyInternal, idmefValueCopyInternal]
  rcases valueAs m val type id with err | v
  · rfl
  · exact copyToLeaf_ptr v o

theorem Decided.stray {α : Type} {before after : α} {can fails stops holds : Prop} (hcan : ¬ can)
    (hfails : ¬ fails) (hstops : stops → fails) (hholds : holds → can) :
    Decided ((.error .stray, after) : SetRet × α) before can fails stops holds :=
  ⟨by simp [hcan], by simp [hfails], by simp [mt hstops hfails], by simp [mt hholds hcan]⟩

theorem valueAs_class {cls : IdmefClassId} {src : Obj}
    (h : valueAs m val .class id = .ok (.class cls src)) : val = .scalar (.class cls src) := by
  have hends := @valueAs_ends m .class val id
  rw [h] at hends
  obtain ⟨cls', src', rfl⟩ := (converts_class m).mp hends.2
  have hsame : valueAs m (.scalar (.class cls' src')) .class id = .ok (.class cls' src') := rfl
  rw [hsame] at h
  rw [Except.ok.inj h]

theorem failing_decided {α : Type} {r : Ret × α} {before : α} {complete untouched : Prop}
    (hok : r.1 = .ok () ↔ complete) (hsame : r.2 = before ↔ untouched) :
    Decided (failing r) before complete (¬ complete) (¬ complete ∧ untouched)
      (complete ∧ untouched) := by
  rcases r with ⟨err | ⟨⟩, after⟩
  · have hnot : ¬ complete := fun h => by cases hok.mpr h
    exact ⟨by simp [failing, Except.mapError, hnot], by simp [failing, Except.mapError, hnot],
      by simpa [failing, Except.mapError, hnot] using hsame,
      by simp [failing, Except.mapError, hnot]⟩
  · have hcomplete : complete := hok.mp rfl
    exact ⟨by simp [failing, Except.mapError, hcomplete],
      by simp [failing, Except.mapError, hcomplete],
      by simp [failing, Except.mapError, hcomplete],
      by simpa [failing, Except.mapError, hcomplete] using hsame⟩

theorem copyClass_decided (cls' : IdmefClassId) (src : Obj) :
    Decided (idmefValueTypeCopy now (.class cls' src) o) o
      (CanStore m (.scalar (.class cls' src)) .class id o)
      (CopyFails (.scalar (.class cls' src)) .class o)
      (CopyFails (.scalar (.class cls' src)) .class o ∧
        StoredIn m now (.scalar (.class cls' src)) .class id o)
      (CanStore m (.scalar (.class cls' src)) .class id o ∧
        StoredIn m now (.scalar (.class cls' src)) .class id o) := by
  rcases o with ⟨rc, p⟩ | ⟨cls, rc, fs⟩
  · have hcan : ¬ CanStore m (.scalar (.class cls' src)) .class id (.prim rc p) := by
      rintro ⟨-, hfits⟩
      cases hfits
    exact Decided.stray hcan not_false And.left And.left
  · by_cases hcls : cls' = cls
    · subst hcls
      obtain ⟨hok, hsame⟩ := idmefCopy_spec now src (.struct cls' rc fs)
      have h := failing_decided hok hsame
      simpa [idmefValueTypeCopy, CanStore, CopyFails, StoredIn] using h
    · have hval (src' : Obj) :
          IdmefValue.scalar (.class cls' src) ≠ .scalar (.class cls src') := by
        rintro ⟨⟩
        exact hcls rfl
      rw [idmefValueTypeCopy, if_neg hcls]
      exact Decided.stray (fun h => absurd h.2.choose_spec.1 (hval _))
        (fun h => absurd h.2.choose_spec.1 (hval _)) And.left And.left

theorem copyFails_converts (h : CopyFails val type o) : Converts m val type id := by
  rcases o with ⟨rc, p⟩ | ⟨cls, rc, fs⟩
  · exact h.elim
  · obtain ⟨rfl, src, rfl, -⟩ := h
    exact (converts_class m).mpr ⟨cls, src, rfl⟩

theorem canStore_converts (h : CanStore m val type id o) : Converts m val type id := by
  rcases o with ⟨rc, p⟩ | ⟨cls, rc, fs⟩
  · exact h.1
  · obtain ⟨rfl, src, rfl, -⟩ := h
    exact (converts_class m).mpr ⟨cls, src, rfl⟩

theorem Decided.of_error {err : SetFailure} (hval : valueAs m val type id = .error err) :
    Decided ((.error err, o) : SetRet × Obj) o (CanStore m val type id o)
      (Refuses m val type id ∨ CopyFails val type o)
      (Refuses m val type id ∨ CopyFails val type o ∧ StoredIn m now val type id o)
      (CanStore m val type id o ∧ StoredIn m now val type id o) := by
  have hends := @valueAs_ends m type val id
  rw [hval] at hends
  rcases err with err | _
  · refine ⟨?_, iff_of_true ⟨err, rfl⟩ (.inl hends), iff_of_true ⟨err, rfl⟩ (.inl hends), ?_⟩
    · exact iff_of_false (by simp) fun h => hends.1 (canStore_converts h)
    · exact iff_of_false (by simp) fun h => hends.1 (canStore_converts h.1)
  · refine Decided.stray (fun h => hends.1 (canStore_converts h)) ?_ (Or.imp_right And.left)
      And.left
    rintro (h | h)
    · exact h.2 hends.2
    · exact hends.1 (copyFails_converts h)

theorem not_refuses {v : ValueType} (h : valueAs m val type id = .ok v) :
    ¬ Refuses m val type id := by
  have hends := @valueAs_ends m type val id
  rw [h] at hends
  exact fun hrefuses => hrefuses.1 hends.2

/-- Storing a value in an object. -/
theorem copyObject_decided :
    Decided (idmefValueCopyInternal m (idmefValueTypeCopy now) val type id o) o
      (CanStore m val type id o) (Refuses m val type id ∨ CopyFails val type o)
      (Refuses m val type id ∨ CopyFails val type o ∧ StoredIn m now val type id o)
      (CanStore m val type id o ∧ StoredIn m now val type id o) := by
  rcases hval : valueAs m val type id with err | v
  · simp only [idmefValueCopyInternal, hval]
    exact Decided.of_error hval
  by_cases htype : type = .class
  · subst htype
    have hid := @valueAs_ends m .class val id
    rw [hval] at hid
    simp only [idmefValueCopyInternal, hval, not_refuses hval, false_or]
    rcases v with ⟨t, n⟩ | bits | bits | s | t | d | ⟨n, e⟩ | ⟨cls', src⟩
    case «class» =>
      obtain rfl := valueAs_class hval
      exact copyClass_decided cls' src
    case integer =>
      have := hid.1
      cases t <;> cases this
    all_goals
      have := hid.1
      cases this
  · rcases o with ⟨rc, p⟩ | ⟨cls, rc, fs⟩
    · have hinj : Function.Injective fun o : Obj => Field.ptr (some o) := by
        rintro o o' ⟨⟩
        rfl
      refine Decided.of_map hinj ?_
      rw [← copyInternal_ptr]
      have hleaf := @copyLeaf_decided m now val type id (.ptr (some (.prim rc p)))
        fun h => absurd h htype
      refine ⟨hleaf.can, by simpa [CopyFails] using hleaf.fails,
        by simpa [CopyFails] using hleaf.stops, hleaf.holds.trans ?_⟩
      refine ⟨fun h => ⟨?_, h⟩, And.right⟩
      rw [CanStore, ← hleaf.can, hleaf.holds.mpr h]
    · have hid := @valueAs_ends m type val id
      rw [hval] at hid
      have hcopy : idmefValueTypeCopy now v (.struct cls rc fs) =
          (.error .stray, .struct cls rc fs) := by
        rcases v with ⟨t, n⟩ | bits | bits | s | t | d | ⟨n, e⟩ | ⟨cls', src⟩
        case «class» => exact absurd hid.1.symm htype
        all_goals rfl
      simp only [idmefValueCopyInternal, hval, hcopy]
      refine Decided.stray (fun h => htype h.1) ?_ (Or.imp_right And.left) And.left
      rintro (h | h)
      · exact not_refuses hval h
      · exact htype h.1

end

end LibPrelude
