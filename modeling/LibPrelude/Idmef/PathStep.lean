import LibPrelude.Idmef.PathSet

/-! # The last step of a set

Whether the last step of a set succeeds, and whether it leaves the object as it was, is
told by the child that it leads to and by the value.
-/

namespace LibPrelude

/-- What is asked of a value and an object of a class before a set. -/
abbrev SetGoal := Option IdmefValue → IdmefClassId → List Field → Prop

/-- From one case of the switch on, what is to be destroyed is not there. -/
def NothingThere (n : ℤ) (fs : List Field) : List Child → Prop
  | [] => False
  | c :: cs =>
    match fs[c.field]? with
    | some (.list l) => OnePast l.length n ∧ NothingThere n fs cs
    | some (.scalar isSet val) =>
      match c.type with
      | .optionalInt _ | .optionalEnum _ => isSet = false
      | .float => NothingThere n fs cs
      | _ => val = 0
    | some (.ptr o) => o = none
    | some (.union var o) => c.member.map Member.value = some var → var = 0 ∧ o = none
    | none => NothingThere n fs cs

/-- The type of additional data is set, or a value for the data does not set it. -/
def KeepsDatatype (v : IdmefValue) (cls : IdmefClassId) (c : Child) (fs : List Field) : Prop :=
  cls = .additionalData → c.valueType = .data → ∀ val, fs[1]? = some (.scalar false val) →
    additionalDataTypeOf v.type = none

section

variable (m : SetContext) (e : IdmefPathElement) (index : ℤ)

/-- What is asked of the child of a step, be it there or made, and of a step out of reach. -/
def AtChild (leaf : Child → Field → Prop) (object : Child → Obj → (Obj → Field) → Prop)
    (outOfReach : Prop) (cls : IdmefClassId) (fs : List Field) : Prop :=
  match idmefClassNewChild m.now cls fs e.position index with
  | .error _ => outOfReach
  | .ok (c, .leaf f) => leaf c f
  | .ok (c, .object o put) => object c o put

/-- The last step can be taken: the child is in reach, and the value can be stored there. -/
def CanSetLast : SetGoal := fun value cls fs =>
  match value with
  | none => ¬ FallsOut e.index fs (cls.children.drop e.position)
  | some v =>
    AtChild m e index
      (fun c f => Converts m.toCastContext v c.valueType c.enumId ∧ LeafFits c.valueType f)
      (fun c o _ => CanStore m.toCastContext v c.valueType c.enumId o) False cls fs

/-- The last step fails: the child is out of reach, or the value is refused or its copy fails. -/
def FailsLast : SetGoal := fun value cls fs =>
  match value with
  | none => FallsOut e.index fs (cls.children.drop e.position)
  | some v =>
    AtChild m e index (fun c _ => Refuses m.toCastContext v c.valueType c.enumId)
      (fun c o _ => Refuses m.toCastContext v c.valueType c.enumId ∨ CopyFails v c.valueType o)
      True cls fs

/-- The last step fails before anything was made or written: the child is out of reach, or it is
there. -/
def StopsLast : SetGoal := fun value cls fs =>
  match value with
  | none => FallsOut e.index fs (cls.children.drop e.position)
  | some v =>
    AtChild m e index
      (fun c f => fs[c.field]? = some f ∧ Refuses m.toCastContext v c.valueType c.enumId ∧
        KeepsDatatype v cls c fs)
      (fun c o put => fs[c.field]? = some (put o) ∧
        (Refuses m.toCastContext v c.valueType c.enumId ∨ CopyFails v c.valueType o ∧
          StoredIn m.toCastContext m.now v c.valueType c.enumId o))
      True cls fs

/-- What the last step is to store is there already, or what it is to destroy is not there. -/
def HoldsLast : SetGoal := fun value cls fs =>
  match value with
  | none => NothingThere e.index fs (cls.children.drop e.position)
  | some v =>
    AtChild m e index
      (fun c f => fs[c.field]? = some f ∧
        (∃ w, valueAs m.toCastContext v c.valueType c.enumId = .ok w ∧ LeafHolds w f) ∧
        KeepsDatatype v cls c fs)
      (fun c o put => fs[c.field]? = some (put o) ∧
        CanStore m.toCastContext v c.valueType c.enumId o ∧
        StoredIn m.toCastContext m.now v c.valueType c.enumId o)
      False cls fs

end

section

variable {m : SetContext} {e : IdmefPathElement} {index n : ℤ} {value : Option IdmefValue}
  {cls : IdmefClassId} {c : Child} {fs : List Field} {f : Field} {o x : Obj}
  {put : Obj → Field} {l : List Obj} {err : ErrorCode} {i : ℕ}

theorem set_self (h : fs[i]? = some f) : fs.set i f = fs := by
  obtain ⟨hi, rfl⟩ := List.getElem?_eq_some_iff.mp h
  exact List.set_getElem_self hi

theorem set_eq_self (hi : i < fs.length) : fs.set i f = fs ↔ fs[i]? = some f := by
  refine ⟨fun h => ?_, set_self⟩
  rw [← h]
  exact List.getElem?_set_self hi

theorem destroyCase_error {f' : Field} (h : destroyCase c n f = .returns (.error err) f') :
    f' = f := by
  unfold destroyCase at h
  rcases f with ⟨isSet, val⟩ | o | l | ⟨var, o⟩
  · simp only at h
    split at h <;> cases h
  · cases h
  · simp only [destroyListCase_eq] at h
    split at h
    · cases h
    · split_ifs at h
      cases h
      rfl
  · simp only at h
    split_ifs at h <;> cases h

theorem destroyFrom_error {cs : List Child} (h : (destroyFrom n fs cs).1 = .error err) :
    (destroyFrom n fs cs).2 = fs := by
  induction cs with
  | nil => rfl
  | cons c cs ih =>
    rw [destroyFrom] at h ⊢
    rcases hf : fs[c.field]? with _ | f
    · simp only [hf, Option.map_none] at h ⊢
      exact ih h
    · simp only [hf, Option.map_some] at h ⊢
      rcases hcase : destroyCase c n f with ⟨ret, f'⟩ | _
      · simp only [hcase] at h ⊢
        subst h
        rw [destroyCase_error hcase]
        exact set_self hf
      · simp only [hcase] at h ⊢
        exact ih h

theorem unref_ne (h : 1 < o.refcount) : o.unref ≠ o := by
  rcases o with ⟨rc, v⟩ | ⟨cls, rc, fs⟩ <;> simp only [Obj.refcount] at h <;>
    simp only [Obj.unref, ne_eq, Obj.prim.injEq, Obj.struct.injEq, true_and, and_true] <;> omega

theorem destroyed_ne {i : ℕ} (hi : i < l.length) :
    l.take i ++ (l[i]?.bind destroyListed).toList ++ l.drop (i + 1) ≠ l := by
  rw [List.getElem?_eq_getElem hi, Option.bind_some]
  intro h
  have hlength := congrArg List.length h
  by_cases hrc : l[i].refcount ≤ 1
  · simp only [destroyListed, if_pos hrc, Option.toList_none, List.append_nil,
      List.length_append, List.length_take, List.length_drop] at hlength
    omega
  · have hat := congrArg (·[i]?) h
    simp only [destroyListed, if_neg hrc, Option.toList_some, List.append_assoc,
      List.singleton_append] at hat
    rw [List.getElem?_append_right (by simp), List.getElem?_eq_getElem hi] at hat
    simp only [List.length_take, Nat.min_eq_left hi.le, Nat.sub_self, List.getElem?_cons_zero,
      Option.some.injEq] at hat
    exact unref_ne (by omega) hat

theorem destroyFrom_holds (n : ℤ) (fs : List Field) (cs : List Child) :
    destroyFrom n fs cs = (.ok (), fs) ↔ NothingThere n fs cs := by
  induction cs with
  | nil => simp [destroyFrom, NothingThere]
  | cons c cs ih =>
    rw [destroyFrom, NothingThere]
    rcases hf : fs[c.field]? with _ | f
    · exact ih
    have hlt : c.field < fs.length := (List.getElem?_eq_some_iff.mp hf).1
    rcases f with ⟨isSet, val⟩ | o | l | ⟨var, o⟩
    · rcases htype : c.type <;>
        simp [destroyCase, htype, ih, set_eq_self hlt, hf]
    · simp [destroyCase, set_eq_self hlt, hf]
    · simp only [Option.map_some, destroyCase, destroyListCase_eq]
      rcases hp : listPosition l.length n with _ | i
      · by_cases hone : OnePast l.length n
        · simp [hone, ih]
        · simp [hone]
      · have hne := destroyed_ne (listPosition_lt hp)
        have hnone : ¬ OnePast l.length n := by
          have hi := listPosition_lt hp
          unfold listPosition at hp
          rintro (h | h) <;> split_ifs at hp <;> omega
        simp only [Prod.mk.injEq, true_and, set_eq_self hlt, hf, Option.some.injEq,
          Field.list.injEq, hnone, false_and, iff_false]
        exact hne.symm
    · by_cases hvar : c.member.map Member.value = some var
      · simp [destroyCase, hvar, set_eq_self hlt, hf]
      · simp [destroyCase, hvar, set_eq_self hlt, hf]

theorem destroy_decided (n : ℤ) (fs : List Field) (cs : List Child) :
    Decided (failing (destroyFrom n fs cs)) fs (¬ FallsOut n fs cs) (FallsOut n fs cs)
      (FallsOut n fs cs) (NothingThere n fs cs) := by
  have hfails := destroyFrom_fails n fs cs
  have hholds := destroyFrom_holds n fs cs
  rcases hr : destroyFrom n fs cs with ⟨err | ⟨⟩, fs'⟩
  · obtain rfl : fs = fs' := by
      have := @destroyFrom_error n fs err cs (by rw [hr])
      rw [hr] at this
      exact this.symm
    have hout : FallsOut n fs cs := hfails.mp ⟨err, hr⟩
    rw [hr] at hholds
    have hnot : ¬ NothingThere n fs cs := fun h => by cases hholds.mpr h
    exact ⟨by simp [failing, Except.mapError, hout], by simp [failing, Except.mapError, hout],
      by simp [failing, Except.mapError, hout], by simp [failing, Except.mapError, hnot]⟩
  · have hout : ¬ FallsOut n fs cs := by
      rintro h
      obtain ⟨err, herr⟩ := hfails.mpr h
      rw [hr] at herr
      cases herr
    rw [hr] at hholds
    exact ⟨by simp [failing, Except.mapError, hout], by simp [failing, Except.mapError, hout],
      by simp [failing, Except.mapError, hout],
      by simpa [failing, Except.mapError] using hholds⟩

theorem newListed_put (h : newListed m.now c n l = .ok (.object o put))
    (hx : Field.list l = put x) : x = o := by
  have happend {y : Obj} (h : Field.list l = .list (l ++ [y])) : False := by
    have := congrArg List.length (Field.list.inj h)
    simp at this
  have hprepend {y : Obj} (h : Field.list l = .list (y :: l)) : False := by
    have := congrArg List.length (Field.list.inj h)
    simp at this
  unfold newListed at h
  split at h
  · cases h
    exact (happend hx).elim
  split at h
  · cases h
    exact (hprepend hx).elim
  split at h
  · rename_i i _
    split at h
    · rename_i hi
      cases h
      obtain ⟨hlt, rfl⟩ := List.getElem?_eq_some_iff.mp hi
      have := congrArg (·[i]?) (Field.list.inj hx)
      simpa [hlt] using this.symm
    · cases h
  split at h
  · cases h
    exact (happend hx).elim
  split at h
  · cases h
    exact (hprepend hx).elim
  · cases h

theorem newChildCase_put (h : newChildCase m.now c n f = .ok (.object o put)) (hx : f = put x) :
    x = o := by
  unfold newChildCase at h
  rcases f with ⟨isSet, val⟩ | o' | l | ⟨var, o'⟩
  · cases h
  · simp only at h
    split at h <;> cases h
    rw [Field.ptr.inj hx]
    rfl
  · exact newListed_put h hx
  · simp only at h
    split at h <;> cases h
    obtain ⟨rfl, rfl⟩ := Field.union.inj hx
    simp

theorem newChild_eq {slot : Slot} {position : ℕ}
    (h : idmefClassNewChild m.now cls fs position n = .ok (c, slot)) :
    cls.children[position]? = some c ∧
      ∃ f, fs[c.field]? = some f ∧ newChildCase m.now c n f = .ok slot := by
  unfold idmefClassNewChild at h
  rcases hc : cls.children[position]? with _ | c'
  · simp [hc] at h
  rcases hf : fs[c'.field]? with _ | f
  · simp [hc, hf] at h
  simp only [hc, hf] at h
  rcases hcase : newChildCase m.now c' n f with _ | slot'
  · simp [hcase, Except.map] at h
  simp only [hcase, Except.map, Except.ok.injEq, Prod.mk.injEq] at h
  obtain ⟨rfl, rfl⟩ := h
  exact ⟨rfl, f, hf, hcase⟩

theorem newChildCase_leaf {f' : Field} (h : newChildCase m.now c n f = .ok (.leaf f')) :
    (∃ isSet val, f = .scalar isSet val ∧ f' = .scalar (isSet || c.type.marked) val) ∨
      c.cls = none ∧ ∃ o, f = .ptr o ∧ f' = .ptr (some (o.getD (newObject m.now c))) := by
  unfold newChildCase at h
  rcases f with ⟨isSet, val⟩ | o | l | ⟨var, o⟩
  · cases h
    exact .inl ⟨isSet, val, rfl, rfl⟩
  · simp only at h
    split at h <;> cases h
    rename_i hcls
    exact .inr ⟨hcls, o, rfl, rfl⟩
  · simp only [newListed] at h
    split at h
    · cases h
    split at h
    · cases h
    split at h
    · split at h <;> cases h
    split at h
    · cases h
    split at h <;> cases h
  · simp only at h
    split at h <;> cases h

/-- A value that leaves the field of its leaf as it was has found the leaf there. -/
theorem newChildCase_same {f' : Field} {w : ValueType}
    (h : newChildCase m.now c n f = .ok (.leaf f')) (hcopy : (copyToLeaf m.now w f').2 = f) :
    f' = f := by
  rcases newChildCase_leaf h with ⟨isSet, val, rfl, rfl⟩ | ⟨-, o, rfl, rfl⟩
  · have hset : ∃ val', (copyToLeaf m.now w (.scalar (isSet || c.type.marked) val)).2 =
        .scalar (isSet || c.type.marked) val' := by
      cases w <;> exact ⟨_, rfl⟩
    obtain ⟨val', hval'⟩ := hset
    rw [hval'] at hcopy
    rw [(Field.scalar.inj hcopy).1]
  · rcases o with _ | o
    · rw [copyToLeaf_ptr] at hcopy
      cases hcopy
    · rfl

theorem valueType_ne_class {position : ℕ} (hc : cls.children[position]? = some c)
    (h : c.cls = none) : c.valueType ≠ .class := by
  have hall : cls.children.all fun c => c.cls ≠ none ∨ c.valueType ≠ .class := by
    cases cls <;> decide
  have := of_decide_eq_true (List.all_eq_true.mp hall c (List.mem_of_getElem? hc))
  exact this.resolve_left (not_not_intro h)

theorem data_field {position : ℕ} (hc : IdmefClassId.additionalData.children[position]? = some c)
    (h : c.valueType = .data) : c.field ≠ 1 := by
  have hall : IdmefClassId.additionalData.children.all fun c =>
      c.valueType ≠ .data ∨ c.field ≠ 1 := by decide
  have := of_decide_eq_true (List.all_eq_true.mp hall c (List.mem_of_getElem? hc))
  exact this.resolve_left (not_not_intro h)

theorem withDatatype_cases (v : IdmefValue) (cls : IdmefClassId) (c : Child) (fs : List Field) :
    KeepsDatatype v cls c fs ∧ withDatatype v cls c fs = fs ∨
      ¬ KeepsDatatype v cls c fs ∧ cls = .additionalData ∧ c.valueType = .data ∧
        ∃ val type, fs[1]? = some (.scalar false val) ∧
          withDatatype v cls c fs = fs.set 1 (.scalar true type) := by
  by_cases h : cls = .additionalData ∧ c.valueType = .data
  · rw [withDatatype, if_pos h, adMagicSetDatatype, KeepsDatatype]
    rcases hf : (fs[1]? : Option Field) with _ | ⟨_ | _, val⟩ | o | l | ⟨var, o⟩ <;>
      rcases htype : additionalDataTypeOf v.type with _ | type <;> simp only
    case scalar.false.some =>
      refine .inr ⟨fun hkeeps => ?_, h.1, h.2, val, type, rfl, rfl⟩
      have := hkeeps h.1 h.2 val rfl
      cases this
    all_goals
      refine .inl ⟨fun _ _ val' hval' => ?_, trivial⟩
      first | trivial | cases hval'
  · refine .inl ⟨fun hcls htype => absurd ⟨hcls, htype⟩ h, ?_⟩
    rw [withDatatype, if_neg h]

theorem keepsDatatype_set {position : ℕ} (v : IdmefValue)
    (hc : cls.children[position]? = some c) :
    KeepsDatatype v cls c (fs.set c.field f) ↔ KeepsDatatype v cls c fs := by
  refine forall_congr' fun hcls => forall_congr' fun htype => ?_
  subst hcls
  rw [List.getElem?_set_ne (data_field hc htype)]

/-- What is stored in a leaf leaves the fields as they were. -/
theorem storeLeaf_same {position : ℕ} {v : IdmefValue} {f' : Field}
    (hc : cls.children[position]? = some c) (hlt : c.field < fs.length) :
    (withDatatype v cls c (fs.set c.field f)).set c.field f' = fs ↔
      fs[c.field]? = some f' ∧ KeepsDatatype v cls c fs := by
  rcases withDatatype_cases v cls c (fs.set c.field f) with
    ⟨hkeeps, hsame⟩ | ⟨hkeeps, rfl, htype, val, type, hval, hset⟩ <;>
    rw [keepsDatatype_set v hc] at hkeeps
  · rw [hsame, List.set_set, set_eq_self hlt]
    exact (and_iff_left hkeeps).symm
  · have hfield := data_field hc htype
    refine iff_of_false (fun h => ?_) fun h => hkeeps h.2
    have hat := congrArg (·[1]?) h
    rw [List.getElem?_set_ne hfield] at hval
    have hone : 1 < (fs.set c.field f).length := by
      rw [List.length_set]
      exact (List.getElem?_eq_some_iff.mp hval).1
    simp only [hset, List.getElem?_set_ne hfield, List.getElem?_set_self hone, hval] at hat
    cases hat

theorem storeLeaf_eq {position : ℕ} {v : IdmefValue} (hc : cls.children[position]? = some c)
    (hlt : c.field < fs.length) :
    storeLeaf m v cls c (fs.set c.field f) =
      ((idmefValueCopyInternal m.toCastContext (copyToLeaf m.now) v c.valueType c.enumId f).1,
        (withDatatype v cls c (fs.set c.field f)).set c.field
          (idmefValueCopyInternal m.toCastContext (copyToLeaf m.now) v c.valueType c.enumId
            f).2) := by
  have hat : (withDatatype v cls c (fs.set c.field f))[c.field]? = some f := by
    rcases withDatatype_cases v cls c (fs.set c.field f) with
      ⟨-, hsame⟩ | ⟨-, rfl, htype, val, type, hval, hset⟩
    · rw [hsame, List.getElem?_set_self hlt]
    · rw [hset, List.getElem?_set_ne (data_field hc htype).symm, List.getElem?_set_self hlt]
  simp only [storeLeaf, hat]

theorem Decided.inField {o : Obj} {r : SetRet × Obj} {can fails stops holds : Prop}
    (h : Decided r o can fails stops holds) (hlt : i < fs.length)
    (hput : ∀ x, fs[i]? = some (put x) → x = o) :
    Decided (r.1, fs.set i (put r.2)) fs can fails (fs[i]? = some (put o) ∧ stops)
      (fs[i]? = some (put o) ∧ holds) := by
  obtain ⟨ret, x⟩ := r
  have hsame : fs.set i (put x) = fs ↔ fs[i]? = some (put o) ∧ x = o := by
    rw [set_eq_self hlt]
    constructor
    · intro hx
      obtain rfl := hput x hx
      exact ⟨hx, rfl⟩
    · rintro ⟨ho, rfl⟩
      exact ho
  refine ⟨h.can, h.fails, ?_, ?_⟩
  · rw [← h.stops]
    simp only [Prod.mk.injEq, hsame]
    constructor
    · rintro ⟨err, hret, ho, hx⟩
      exact ⟨ho, err, hret, hx⟩
    · rintro ⟨ho, err, hret, hx⟩
      exact ⟨err, hret, ho, hx⟩
  · rw [← h.holds]
    simp only [Prod.mk.injEq, hsame]
    exact and_left_comm

theorem leaf_decided {position : ℕ} {v : IdmefValue}
    (hnew : idmefClassNewChild m.now cls fs position n = .ok (c, .leaf f)) :
    Decided (storeLeaf m v cls c (fs.set c.field f)) fs
      (Converts m.toCastContext v c.valueType c.enumId ∧ LeafFits c.valueType f)
      (Refuses m.toCastContext v c.valueType c.enumId)
      (fs[c.field]? = some f ∧ Refuses m.toCastContext v c.valueType c.enumId ∧
        KeepsDatatype v cls c fs)
      (fs[c.field]? = some f ∧
        (∃ w, valueAs m.toCastContext v c.valueType c.enumId = .ok w ∧ LeafHolds w f) ∧
        KeepsDatatype v cls c fs) := by
  obtain ⟨hc, f₀, hf₀, hcase⟩ := newChild_eq hnew
  have hlt : c.field < fs.length := (List.getElem?_eq_some_iff.mp hf₀).1
  have hclass : c.valueType = .class → ∃ isSet val, f = .scalar isSet val := by
    intro hclass
    rcases newChildCase_leaf hcase with ⟨isSet, val, -, rfl⟩ | ⟨hnone, -⟩
    · exact ⟨_, _, rfl⟩
    · exact absurd hclass (valueType_ne_class hc hnone)
  have hleaf := @copyLeaf_decided m.toCastContext m.now v c.valueType c.enumId f hclass
  rw [storeLeaf_eq hc hlt]
  refine ⟨hleaf.can, hleaf.fails, ?_, ?_⟩
  · simp only [Prod.mk.injEq, storeLeaf_same hc hlt]
    constructor
    · rintro ⟨err, hret, hat, hkeeps⟩
      have hrefuses := hleaf.fails.mp ⟨err, hret⟩
      obtain ⟨err', h⟩ := hleaf.stops.mpr hrefuses
      rw [h] at hat
      exact ⟨hat, hrefuses, hkeeps⟩
    · rintro ⟨hat, hrefuses, hkeeps⟩
      obtain ⟨err, h⟩ := hleaf.stops.mpr hrefuses
      exact ⟨err, by rw [h], by rwa [h], hkeeps⟩
  · simp only [Prod.mk.injEq, storeLeaf_same hc hlt]
    constructor
    · rintro ⟨hret, hat, hkeeps⟩
      have hsame : (idmefValueCopyInternal m.toCastContext (copyToLeaf m.now) v c.valueType
          c.enumId f).2 = f := by
        have hat' := Option.some.inj (hf₀.symm.trans hat)
        rw [idmefValueCopyInternal] at hat' ⊢
        rcases hval : valueAs m.toCastContext v c.valueType c.enumId with err | w
        · rfl
        · simp only [hval] at hat' ⊢
          exact hat'.symm.trans (newChildCase_same hcase hat'.symm).symm
      rw [hsame] at hat
      exact ⟨hat, hleaf.holds.mp (Prod.ext hret hsame), hkeeps⟩
    · rintro ⟨hat, hholds, hkeeps⟩
      have h := hleaf.holds.mpr hholds
      exact ⟨by rw [h], by rwa [h], hkeeps⟩

theorem setStep_last (m : SetContext) (e : IdmefPathElement) (index : ℤ)
    (value : Option IdmefValue) (cls : IdmefClassId) (fs : List Field) :
    Decided (setStep m e index none value cls fs) fs (CanSetLast m e index value cls fs)
      (FailsLast m e index value cls fs) (StopsLast m e index value cls fs)
      (HoldsLast m e index value cls fs) := by
  rcases value with _ | v
  · exact destroy_decided e.index fs (cls.children.drop e.position)
  simp only [CanSetLast, FailsLast, StopsLast, HoldsLast, AtChild, setStep, Option.isNone_some,
    Bool.false_eq_true, false_and, if_false]
  rcases hnew : idmefClassNewChild m.now cls fs e.position index with err | ⟨c, f | ⟨o, put⟩⟩
  · exact ⟨by simp, by simp, by simp, by simp⟩
  · exact leaf_decided hnew
  · obtain ⟨-, f, hf, hcase⟩ := newChild_eq hnew
    exact copyObject_decided.inField (List.getElem?_eq_some_iff.mp hf).1
      fun x hx => newChildCase_put hcase (Option.some.inj (hf.symm.trans hx))

end

end LibPrelude
