import LibPrelude.Idmef.PathKeyed

/-! # Sets that fail

A set makes what is missing on the way to a value before it knows whether the rest of the
path can be followed and the value stored, and it stores the values of a list one after
the other. A set that fails leaves no trace where it stops before anything was made, or
where all that it stored before was there already.
-/

namespace LibPrelude

section

variable (m : SetContext)

def lastGoals (e : IdmefPathElement) (index : ℤ) : SetGoals where
  can := CanSetLast m e index
  fails := FailsLast m e index
  stops := StopsLast m e index
  holds := HoldsLast m e index

/-- The rest of the path goes on in the child of a step or a new one in its place, and leaves the
object as it is only if the child is there. -/
def throughGoals (e : IdmefPathElement) (index : ℤ) (next : SetGoals) : SetGoals where
  can value := AtChild m e index (fun _ _ => False) (fun _ o _ => next.can.inObject value o) False
  fails value :=
    AtChild m e index (fun _ _ => False) (fun _ o _ => next.fails.inObject value o) True
  stops value cls fs := AtChild m e index (fun _ _ => False)
    (fun c o put => fs[c.field]? = some (put o) ∧ next.stops.inObject value o) True cls fs
  holds value cls fs := AtChild m e index (fun _ _ => False)
    (fun c o put => fs[c.field]? = some (put o) ∧ next.holds.inObject value o) False cls fs

/-- What is asked of the list that a step leads to. -/
def AtList (e : IdmefPathElement) (goal : Child → List Obj → Prop) (cls : IdmefClassId)
    (fs : List Field) : Prop :=
  ∃ c l, cls.children[e.position]? = some c ∧ fs[c.field]? = some (.list l) ∧ goal c l

/-- The elements that a step stands for, with the values that go into them. -/
def pairsFor (e : IdmefPathElement) (value : Option IdmefValue) (l : List Obj) :
    List (Option IdmefValue × Obj) :=
  assigned value 0 (l.filter e.standsFor)

/-- The values that are left over for new elements. -/
def leftover (e : IdmefPathElement) (value : Option IdmefValue) (l : List Obj) :
    List (Option IdmefValue) :=
  (IdmefValue.entries value).drop (l.filter e.standsFor).length

/-- The rest of the path goes on in the elements that a step stands for, and then in new elements,
so that the list does not stay as it is when values are left over. -/
def eachGoals (e : IdmefPathElement) (next : SetGoals) : SetGoals where
  can value := AtList e fun c l => (∀ p ∈ pairsFor e value l, next.can.forPair p) ∧
    ∀ v ∈ leftover e value l, next.can.inObject v (newObject m.now c)
  fails value := AtList e fun c l =>
    FirstOf next.can.forPair next.fails.forPair (pairsFor e value l) ∨
      (∀ p ∈ pairsFor e value l, next.can.forPair p) ∧
        FirstOf (next.can.inObject · (newObject m.now c))
          (next.fails.inObject · (newObject m.now c)) (leftover e value l)
  stops value := AtList e fun _ l =>
    FirstOf next.holds.forPair next.stops.forPair (pairsFor e value l)
  holds value := AtList e fun _ l =>
    (∀ p ∈ pairsFor e value l, next.holds.forPair p) ∧ leftover e value l = []

/-- The elements that are left when those that a step stands for are deleted. -/
def keptElements (e : IdmefPathElement) (l : List Obj) : Option (List Obj) :=
  deleteListedChild (fun i => match e.key with
    | none => some true
    | some key => m.linkHasKey l i key) 0 l

/-- The key of what is made is to be set, through the link. -/
def IdmefPathElement.setsKey (e : IdmefPathElement) : Prop := e.index = indexKey ∧ e.key.isSome

/-- The fields when a value has been stored in a new element; without a value a child is
destroyed. -/
def afterAppend (e : IdmefPathElement) (cls : IdmefClassId) (c : Child) (fs : List Field) :
    Option IdmefValue → List Field
  | none => (idmefClassDestroyChild cls e.position e.index fs).2
  | some v => setListChild cls fs e.position
      (listChild cls fs e.position ++ [(storeObject m v c (newObject m.now c)).2])

/-- Values are stored in new elements up to one that does the one thing, or to the end, where the
other holds. -/
def AppendThen (e : IdmefPathElement) (cls : IdmefClassId) (c : Child)
    (stop : Option IdmefValue → List Field → Prop) (done : List Field → Prop) :
    List (Option IdmefValue) → List Field → Prop
  | [], fs => done fs
  | v :: vs, fs => stop v fs ∨ ¬ e.setsKey ∧ CanSetLast m e idmefListAppend v cls fs ∧
      AppendThen e cls c stop done vs (afterAppend m e cls c fs v)

/-- The elements that the last step stands for are deleted, and new ones are made for the values. -/
def Replaces (e : IdmefPathElement) (stop : Child → Option IdmefValue → List Field → Prop)
    (done : List Field → Prop) (value : Option IdmefValue) (cls : IdmefClassId)
    (fs : List Field) : Prop :=
  AtList e (fun c l => ∃ kept, keptElements m e l = some kept ∧
    AppendThen m e cls c (stop c) done (IdmefValue.entries value) (fs.set c.field (.list kept)))
    cls fs

/-- The object stays as it is when what is made is what was deleted. -/
def replaceGoals (e : IdmefPathElement) : SetGoals where
  can := Replaces m e (fun _ _ _ => False) fun _ => True
  fails value cls :=
    Replaces m e (fun _ v => FailsLast m e idmefListAppend v cls) (fun _ => False) value cls
  stops value cls fs := Replaces m e (fun c v fs' =>
    FailsLast m e idmefListAppend v cls fs' ∧ afterAppend m e cls c fs' v = fs)
      (fun _ => False) value cls fs
  holds value cls fs := Replaces m e (fun _ _ _ => False) (fun fs' => fs' = fs) value cls fs

/-- What is asked of a value and an object for the set along a path. -/
def setGoals : List IdmefPathElement → SetGoals
  | [] => ⟨fun _ _ _ => True, fun _ _ _ => False, fun _ _ _ => False, fun _ _ _ => True⟩
  | [e] =>
    if e.index = indexUndefined ∨ e.index = indexKey then replaceGoals m e
    else lastGoals m e e.index
  | e :: e' :: es =>
    if e.index = indexUndefined ∨ e.index = indexKey then eachGoals m e (setGoals (e' :: es))
    else throughGoals m e e.index (setGoals (e' :: es))

end

section

variable {m : SetContext} {next : Setter} {goals : SetGoals} {e : IdmefPathElement}
  {value v : Option IdmefValue} {cls cls' : IdmefClassId} {c : Child} {fs fs₀ : List Field}
  {o : Obj} {put : Obj → Field} {l : List Obj} {index : ℤ}

def FieldType.members : FieldType → List Member
  | .union members => members
  | _ => []

theorem union_member {position : ℕ} {members : List Member} {mem : Member}
    (hc : cls.children[position]? = some c) (htype : c.type = .union members)
    (hmem : c.member = some mem) :
    (members.find? fun m => m.value = mem.value).map Member.cls = some mem.cls := by
  have hall : cls.children.all fun c => c.member.all fun mem =>
      (c.type.members.find? fun m => m.value = mem.value).map Member.cls = some mem.cls := by
    cases cls <;> decide
  have hthis := List.all_eq_true.mp hall c (List.mem_of_getElem? hc)
  simpa only [htype, hmem, FieldType.members, Option.all_some, decide_eq_true_eq] using hthis

theorem classChild_type {position : ℕ} (hc : cls.children[position]? = some c)
    (hcls : c.cls = some cls') (hfs : FieldsHaveType cls.fields fs) {f : Field}
    (hf : fs[c.field]? = some f) :
    (∃ o, f = .ptr o ∧ OptHasType (.struct cls') o) ∨
      (∃ l, f = .list l ∧ ListHasType (.struct cls') l) ∨
      ∃ mem var o, c.member = some mem ∧ mem.cls = cls' ∧ f = .union var o ∧
        ∀ o', o = some o' → mem.value = var → HasType (.struct cls') o' := by
  obtain ⟨d, hd, hcd⟩ := children_mem (List.mem_of_getElem? hc)
  obtain ⟨f', hf', hft⟩ := fieldsHaveType_getElem hfs hd
  obtain rfl := Option.some.inj (hf.symm.trans hf')
  rw [← children_type hcd] at hft
  rcases htype : c.type with t | t | t | _ | ⟨t, r⟩ | t | ⟨cls₀, r⟩ | ⟨cls₀, keyed⟩ | members <;>
    simp only [Child.cls, htype, Option.some.injEq, reduceCtorEq] at hcls
  · subst hcls
    rw [htype] at hft
    cases f <;> simp only [FieldHasType] at hft
    exact .inl ⟨_, rfl, hft⟩
  · subst hcls
    rw [htype] at hft
    cases f <;> simp only [FieldHasType] at hft
    exact .inr (.inl ⟨_, rfl, hft⟩)
  · rw [htype] at hft
    obtain ⟨mem, hmem, rfl⟩ := Option.map_eq_some_iff.mp hcls
    obtain ⟨mem', hfind, hmemcls⟩ := Option.map_eq_some_iff.mp (union_member hc htype hmem)
    obtain ⟨var, o, rfl, -, hsome⟩ := union_type hft
    refine .inr (.inr ⟨mem, var, o, hmem, rfl, rfl, ?_⟩)
    rintro o' rfl rfl
    exact hmemcls ▸ hsome o' rfl mem' hfind

theorem newObject_type (now : IdmefTime) (hcls : c.cls = some cls') :
    HasType (.struct cls') (newObject now c) := by
  rw [newObject_eq now hcls, HasType]
  exact ⟨Nat.one_pos, rfl, newFields_type now cls'⟩

theorem newListed_type {n : ℤ} (h : newListed m.now c n l = .ok (.object o put))
    (hcls : c.cls = some cls') (hl : ListHasType (.struct cls') l) : HasType (.struct cls') o := by
  have hnew := newObject_type m.now hcls
  unfold newListed at h
  split at h
  · cases h
    exact hnew
  split at h
  · cases h
    exact hnew
  split at h
  · split at h
    · rename_i hi
      cases h
      exact listHasType_mem hl (List.mem_of_getElem? hi)
    · cases h
  split at h
  · cases h
    exact hnew
  split at h
  · cases h
    exact hnew
  · cases h

theorem newChild_type {position : ℕ} {n : ℤ} {slot : Slot} (hfs : FieldsHaveType cls.fields fs)
    (hnew : idmefClassNewChild m.now cls fs position n = .ok (c, slot))
    (hcls : c.cls = some cls') : ∃ o put, slot = .object o put ∧ HasType (.struct cls') o := by
  obtain ⟨hc, f, hf, hcase⟩ := newChild_eq hnew
  have hnewObject := newObject_type m.now hcls
  rcases classChild_type hc hcls hfs hf with ⟨o, rfl, ho⟩ | ⟨l, rfl, hl⟩ |
    ⟨mem, var, o, hmem, rfl, rfl, ho⟩
  · simp only [newChildCase, hcls, Except.ok.injEq] at hcase
    subst hcase
    refine ⟨_, _, rfl, ?_⟩
    rcases o with _ | o
    · exact hnewObject
    · exact ho
  · rcases slot with f | ⟨o, put⟩
    · rcases newChildCase_leaf hcase with ⟨isSet, val, h, -⟩ | ⟨-, o, h, -⟩ <;> cases h
    · exact ⟨o, put, rfl, newListed_type hcase hcls hl⟩
  · simp only [newChildCase, hmem, Except.ok.injEq] at hcase
    subst hcase
    refine ⟨_, _, rfl, ?_⟩
    by_cases hvar : mem.value = var
    · rw [if_pos hvar]
      rcases o with _ | o
      · exact hnewObject
      · exact ho o rfl hvar
    · rw [if_neg hvar]
      exact hnewObject

theorem through_meets (hc : cls.children[e.position]? = some c) (hcls : c.cls = some cls')
    (h : next.Meets cls' goals) :
    Setter.Meets (setStep m e index (some next)) cls (throughGoals m e index goals) := by
  intro value fs hfs
  simp only [throughGoals, AtChild, setStep, Option.isNone_some, Bool.false_eq_true, and_false,
    if_false]
  rcases hnew : idmefClassNewChild m.now cls fs e.position index with err | ⟨c', slot⟩
  · exact ⟨by simp, by simp, by simp, by simp⟩
  · obtain ⟨hc', f, hf, hcase⟩ := newChild_eq hnew
    obtain rfl := Option.some.inj (hc.symm.trans hc')
    obtain ⟨o, put, rfl, ho⟩ := newChild_type hfs hnew hcls
    exact (h.inObject value ho).inField (List.getElem?_eq_some_iff.mp hf).1
      fun x hx => newChildCase_put hcase (Option.some.inj (hf.symm.trans hx))

/-- New elements are made for the values left over, up to one that cannot be stored. -/
theorem appendEach_leftover (h : next.Meets cls' goals) (hc : cls.children[e.position]? = some c)
    (hcls : c.cls = some cls') (vs : List (Option IdmefValue)) (fs : List Field) (l : List Obj)
    (hf : fs[c.field]? = some (.list l)) :
    let r := appendEach (setStep m e idmefListAppend (some next)) (setLastKey e) cls vs fs
    (r.1 = .ok () ↔ ∀ v ∈ vs, goals.can.inObject v (newObject m.now c)) ∧
      ((∃ err, r.1 = .error (.code err)) ↔ FirstOf (goals.can.inObject · (newObject m.now c))
        (goals.fails.inObject · (newObject m.now c)) vs) ∧
      ∃ created, r.2[c.field]? = some (.list (l ++ created)) ∧ (vs ≠ [] → created ≠ []) := by
  induction vs generalizing fs l with
  | nil => exact ⟨by simp [appendEach], by simp [appendEach], [], by simpa [appendEach] using hf,
      by simp⟩
  | cons v vs ih =>
    have hlt : c.field < fs.length := (List.getElem?_eq_some_iff.mp hf).1
    have hset (l' : List Obj) : (fs.set c.field (.list l'))[c.field]? = some (.list l') :=
      List.getElem?_set_self hlt
    have hdecided := h.inObject v (newObject_type m.now hcls)
    simp only [appendEach, setStep_append hc hf, List.forall_mem_cons, firstOf_cons]
    rw [← hdecided.can, ← hdecided.fails]
    rcases hnext : next.inObject v (newObject m.now c) with ⟨(err | _) | ⟨⟩, o⟩
    · exact ⟨by simp, by simp, [o], hset _, by simp⟩
    · exact ⟨by simp, by simp, [o], hset _, by simp⟩
    · obtain ⟨hok, hfails, created, hcreated, -⟩ :=
        ih (fs.set c.field (.list (l ++ [setIndexKey e.key o]))) _ (hset _)
      simp only [setLastKey_eq hc (hset _), List.set_set]
      refine ⟨by simpa using hok, by simpa using hfails, setIndexKey e.key o :: created, ?_,
        by simp⟩
      simpa using hcreated

theorem atList_iff {goal : Child → List Obj → Prop} (hc : cls.children[e.position]? = some c)
    (hf : fs[c.field]? = some (.list l)) : AtList e goal cls fs ↔ goal c l := by
  constructor
  · rintro ⟨c', l', hc', hf', h⟩
    obtain rfl := Option.some.inj (hc.symm.trans hc')
    obtain rfl := Field.list.inj (Option.some.inj (hf.symm.trans hf'))
    exact h
  · exact fun h => ⟨c, l, hc, hf, h⟩

theorem listChild_type {position : ℕ} (hc : cls.children[position]? = some c) (hlist : c.isList)
    (hfs : FieldsHaveType cls.fields fs) : ∃ l, fs[c.field]? = some (.list l) ∧
      ∀ cls', c.cls = some cls' → ListHasType (.struct cls') l := by
  obtain ⟨d, hd, hcd⟩ := children_mem (List.mem_of_getElem? hc)
  obtain ⟨f, hf, hft⟩ := fieldsHaveType_getElem hfs hd
  rw [← children_type hcd] at hft
  rcases htype : c.type with t | t | t | _ | ⟨t, r⟩ | ⟨cls₀, r⟩ | t | ⟨cls₀, keyed⟩ | members <;>
    simp only [Child.isList, htype, Bool.false_eq_true] at hlist <;> rw [htype] at hft <;>
    cases f <;> simp only [FieldHasType] at hft
  · refine ⟨_, hf, fun cls' hcls => ?_⟩
    simp only [Child.cls, htype, reduceCtorEq] at hcls
  · refine ⟨_, hf, fun cls' hcls => ?_⟩
    simp only [Child.cls, htype, Option.some.injEq] at hcls
    exact hcls ▸ hft

theorem length_setMatching (next : Setter) (e : IdmefPathElement) (value : Option IdmefValue)
    (j : ℕ) (os : List Obj) : (setMatching next e value j os).2.length = os.length := by
  induction os generalizing j with
  | nil => rfl
  | cons o os ih =>
    rw [setMatching]
    split
    · simp [ih]
    · split
      · rfl
      · simp only
        split <;> simp [ih]

theorem Decided.append {ret : SetRet} {r : SetRet × List Field}
    {can fails stops holds can' fails' done : Prop}
    (h : Decided (ret, fs) fs₀ can fails stops holds)
    (herror : ∀ err, ret = .error err → r = (ret, fs))
    (hok : ret = .ok () → (r.1 = .ok () ↔ can') ∧ ((∃ err, r.1 = .error (.code err)) ↔ fails'))
    (hdone : ret = .ok () → done → r = (.ok (), fs))
    (hmore : ret = .ok () → ¬ done → r.2 ≠ fs₀) :
    Decided r fs₀ (can ∧ can') (fails ∨ can ∧ fails') stops (holds ∧ done) := by
  obtain ⟨hcan, hfails, hstops, hholds⟩ := h
  rcases ret with err | ⟨⟩
  · rw [herror err rfl]
    have hnot : ¬ can := fun h => by cases hcan.mpr h
    have hnotHolds : ¬ holds := fun h => by cases hholds.mpr h
    exact ⟨by simp [hnot], by simpa [hnot] using hfails, hstops, by simp [hnotHolds]⟩
  · obtain ⟨hcan', hfails'⟩ := hok rfl
    have hyes : can := hcan.mp rfl
    have hnot : ¬ fails := fun h => by obtain ⟨err, herr⟩ := hfails.mpr h; cases herr
    have hnotStops : ¬ stops := fun h => by obtain ⟨err, herr⟩ := hstops.mpr h; cases herr
    refine ⟨by simpa [hyes] using hcan', by simpa [hyes, hnot] using hfails', ?_, ?_⟩ <;>
      by_cases hempty : done
    · simp [hdone rfl hempty, hnotStops]
    · refine iff_of_false ?_ hnotStops
      rintro ⟨err, rfl⟩
      exact hmore rfl hempty rfl
    · rw [hdone rfl hempty, hholds, and_iff_left hempty]
    · refine iff_of_false ?_ fun h => hempty h.2
      rintro rfl
      exact hmore rfl hempty rfl

theorem setUndefinedNotLast_error (hc : cls.children[e.position]? = some c)
    (hf : fs[c.field]? = some (.list l)) {err : SetFailure}
    (hret : walkRet (setMatching next e value 0 l).1 = .error err) :
    setUndefinedNotLast m e next value cls fs =
      (.error err, fs.set c.field (.list (setMatching next e value 0 l).2)) := by
  simp only [setUndefinedNotLast, listChild_eq hc hf, setListChild_eq hc hf]
  rcases hr : (setMatching next e value 0 l).1 with ret | j <;> rw [hr] at hret <;> cases hret
  rfl

theorem setUndefinedNotLast_ok (hc : cls.children[e.position]? = some c)
    (hf : fs[c.field]? = some (.list l))
    (hret : walkRet (setMatching next e value 0 l).1 = .ok ()) :
    setUndefinedNotLast m e next value cls fs =
      appendEach (setStep m e idmefListAppend (some next)) (setLastKey e) cls
        (leftover e value l) (fs.set c.field (.list (setMatching next e value 0 l).2)) := by
  have hused := setMatching_used next e value 0 l
  rw [Nat.zero_add] at hused
  simp only [setUndefinedNotLast, listChild_eq hc hf, setListChild_eq hc hf]
  rcases hr : (setMatching next e value 0 l).1 with (err | ⟨⟩) | j <;> rw [hr] at hret hused
  · cases hret
  · simp only [leftover, hused, appendEach]
  · simp only [leftover, hused]

theorem each_meets (hc : cls.children[e.position]? = some c) (hcls : c.cls = some cls')
    (hlist : c.isList) (h : next.Meets cls' goals) :
    Setter.Meets (setUndefinedNotLast m e next) cls (eachGoals m e goals) := by
  intro value fs hfs
  obtain ⟨l, hf, hl⟩ := listChild_type hc hlist hfs
  have hlt : c.field < fs.length := (List.getElem?_eq_some_iff.mp hf).1
  have hset (l' : List Obj) : (fs.set c.field (.list l'))[c.field]? = some (.list l') :=
    List.getElem?_set_self hlt
  have hinj : Function.Injective fun l => fs.set c.field (.list l) := by
    intro l l' heq
    have hat := congrArg (·[c.field]?) heq
    simp only [hset, Option.some.injEq, Field.list.injEq] at hat
    exact hat
  have hwalk := (@setMatching_decided next goals e cls' l h value 0
    fun o ho => listHasType_mem (hl cls' hcls) ho).map hinj
  simp only [set_self hf] at hwalk
  have hlength := length_setMatching next e value 0 l
  simp only [eachGoals, atList_iff hc hf, pairsFor]
  obtain ⟨hcan, hfails, created, hcreated, hne⟩ := appendEach_leftover h hc hcls
    (leftover e value l) (fs.set c.field (.list (setMatching next e value 0 l).2)) _ (hset _)
  refine hwalk.append (fun err hret => ?_) (fun hret => ?_) (fun hret hnil => ?_)
    fun hret hnil hsame => ?_
  · rw [setUndefinedNotLast_error hc hf hret, hret]
  · rw [setUndefinedNotLast_ok hc hf hret]
    exact ⟨hcan, hfails⟩
  · rw [setUndefinedNotLast_ok hc hf hret, hnil]
    rfl
  · rw [setUndefinedNotLast_ok hc hf hret] at hsame
    rw [hsame, hf] at hcreated
    have := congrArg List.length (Field.list.inj (Option.some.inj hcreated))
    rw [List.length_append, hlength] at this
    exact hne hnil (List.length_eq_zero_iff.mp (by omega))

theorem destroyFrom_list {n : ℤ} {i : ℕ} {cs : List Child} (hf : fs[i]? = some (.list l)) :
    ∃ l', (destroyFrom n fs cs).2[i]? = some (.list l') := by
  induction cs with
  | nil => exact ⟨l, hf⟩
  | cons c cs ih =>
    rw [destroyFrom]
    rcases hfield : fs[c.field]? with _ | f
    · exact ih
    · rcases hcase : destroyCase c n f with ⟨ret, f'⟩ | _
      · simp only [Option.map_some, hcase]
        by_cases hi : c.field = i
        · subst hi
          obtain rfl := Option.some.inj (hfield.symm.trans hf)
          rw [List.getElem?_set_self (List.getElem?_eq_some_iff.mp hf).1]
          simp only [destroyCase, destroyListCase_eq] at hcase
          split at hcase
          · cases hcase
            exact ⟨_, rfl⟩
          · split_ifs at hcase
            cases hcase
            exact ⟨_, rfl⟩
        · rw [List.getElem?_set_ne hi]
          exact ⟨l, hf⟩
      · simp only [Option.map_some, hcase]
        exact ih

theorem setStep_after (hc : cls.children[e.position]? = some c)
    (hf : fs[c.field]? = some (.list l)) (v : Option IdmefValue) :
    (setStep m e idmefListAppend none v cls fs).2 = afterAppend m e cls c fs v ∧
      ∃ l', (afterAppend m e cls c fs v)[c.field]? = some (.list l') := by
  rcases v with _ | v
  · exact ⟨rfl, destroyFrom_list hf⟩
  · have hset (l' : List Obj) : (fs.set c.field (.list l'))[c.field]? = some (.list l') :=
      List.getElem?_set_self (List.getElem?_eq_some_iff.mp hf).1
    rw [afterAppend, listChild_eq hc hf, setListChild_eq hc hf]
    refine ⟨?_, _, hset _⟩
    simp [setStep, idmefClassNewChild, hc, hf, newChildCase, newListed, Except.map]

/-- The key of what was made cannot be set. -/
def afterKey (e : IdmefPathElement) (fs : List Field) : SetRet × List Field :=
  if e.index = indexKey ∧ e.key.isSome then (.error .stray, fs) else (.ok (), fs)

theorem appendEach_decided (hc : cls.children[e.position]? = some c) (fs₀ : List Field)
    (vs : List (Option IdmefValue)) (hf : fs[c.field]? = some (.list l)) :
    Decided (appendEach (setStep m e idmefListAppend none) (fun _ => afterKey e) cls vs fs) fs₀
      (AppendThen m e cls c (fun _ _ => False) (fun _ => True) vs fs)
      (AppendThen m e cls c (fun v => FailsLast m e idmefListAppend v cls) (fun _ => False) vs fs)
      (AppendThen m e cls c (fun v fs' =>
        FailsLast m e idmefListAppend v cls fs' ∧ afterAppend m e cls c fs' v = fs₀)
        (fun _ => False) vs fs)
      (AppendThen m e cls c (fun _ _ => False) (fun fs' => fs' = fs₀) vs fs) := by
  induction vs generalizing fs l with
  | nil => constructor <;> simp [appendEach, AppendThen]
  | cons v vs ih =>
    have hlast := setStep_last m e idmefListAppend v cls fs
    obtain ⟨hafter, l', hl'⟩ := @setStep_after m e cls c fs l hc hf v
    simp only [AppendThen, appendEach, ← hlast.can, ← hlast.fails, ← hafter]
    rw [← hafter] at hl'
    have hrest := ih hl'
    rcases hstep : setStep m e idmefListAppend none v cls fs with ⟨(err | _) | ⟨⟩, fs'⟩
    · constructor <;> simp
    · constructor <;> simp
    · rw [hstep] at hrest
      by_cases hkey : e.setsKey
      · have hstray : afterKey e fs' = (.error .stray, fs') := if_pos hkey
        simp only [hstray]
        constructor <;> simp [hkey]
      · have hok : afterKey e fs' = (.ok (), fs') := if_neg hkey
        simp only [hok]
        simpa [hkey] using hrest

theorem setUndefinedLast_eq : setUndefinedLast m e value cls fs =
    match keptElements m e (listChild cls fs e.position) with
    | none => (.error .stray, fs)
    | some l => appendEach (setStep m e idmefListAppend none) (fun _ => afterKey e) cls
        (IdmefValue.entries value) (setListChild cls fs e.position l) := rfl

theorem replace_meets (hc : cls.children[e.position]? = some c) (hlist : c.isList) :
    Setter.Meets (setUndefinedLast m e) cls (replaceGoals m e) := by
  intro value fs hfs
  obtain ⟨l, hf, -⟩ := listChild_type hc hlist hfs
  simp only [replaceGoals, Replaces, atList_iff hc hf, setUndefinedLast_eq, listChild_eq hc hf,
    setListChild_eq hc hf]
  rcases hkept : keptElements m e l with _ | kept
  · constructor <;> simp
  · simp only [Option.some.injEq, exists_eq_left']
    exact appendEach_decided hc fs _ (List.getElem?_set_self (List.getElem?_eq_some_iff.mp hf).1)

theorem valid_cons {es : List IdmefPathElement} (h : ValidElements cls (e :: es)) :
    ∃ c, cls.children[e.position]? = some c ∧ (c.isList ∨ e.index = indexForbidden) ∧
      (es ≠ [] → ∃ cls', c.cls = some cls' ∧ ValidElements cls' es) := by
  rw [ValidElements] at h
  split at h
  · exact h.elim
  · rename_i c hc
    refine ⟨c, hc, h.1, fun hne => ?_⟩
    rcases hcls : c.cls with _ | cls' <;> simp only [hcls] at h
    · exact absurd h.2 hne
    · exact ⟨cls', rfl, h.2⟩

theorem isList_of_index (h : c.isList ∨ e.index = indexForbidden)
    (hindex : e.index = indexUndefined ∨ e.index = indexKey) : c.isList := by
  rcases h with h | h
  · exact h
  · rcases hindex with hindex | hindex <;> rw [h] at hindex <;> cases hindex

/-- What a set does along a path is told by the path, the value and the object. -/
theorem pathSet_meets (m : SetContext) (es : List IdmefPathElement) (hes : ValidElements cls es) :
    Setter.Meets (pathSet m es) cls (setGoals m es) := by
  induction es using pathSet.induct generalizing cls with
  | case1 => exact fun value fs _ => by constructor <;> simp [pathSet, setGoals]
  | case2 e h =>
    obtain ⟨c, hc, hlist, -⟩ := valid_cons hes
    simp only [pathSet, setGoals, if_pos h]
    exact replace_meets hc (isList_of_index hlist h)
  | case3 e h =>
    simp only [pathSet, setGoals, if_neg h]
    exact fun value fs _ => setStep_last m e e.index value cls fs
  | case4 e e' es h ih =>
    obtain ⟨c, hc, hlist, hrest⟩ := valid_cons hes
    obtain ⟨cls', hcls, hes'⟩ := hrest (List.cons_ne_nil e' es)
    simp only [pathSet, setGoals, if_pos h]
    exact each_meets hc hcls (isList_of_index hlist h) (ih hes')
  | case5 e e' es h ih =>
    obtain ⟨c, hc, -, hrest⟩ := valid_cons hes
    obtain ⟨cls', hcls, hes'⟩ := hrest (List.cons_ne_nil e' es)
    simp only [pathSet, setGoals, if_neg h]
    exact through_meets hc hcls (ih hes')

/-- A set that returns an error has left the object as it was: nothing was made, replaced or marked
set, and the objects before and after compare equal. -/
def LeavesAlone (m : SetContext) (path : IdmefPath) (object : Obj) (value : Option IdmefValue) :
    Prop :=
  ∀ err, (idmefPathSet m path object value).1 = .error (.code err) →
    (idmefPathSet m path object value).2 = object ∧
      idmefCompare object (idmefPathSet m path object value).2 = 0

/-- The set of a value does not fail, or it fails where nothing was made or changed. -/
def Settles (m : SetContext) (path : IdmefPath) (value : Option IdmefValue) : Obj → Prop
  | .prim _ _ => True
  | .struct cls _ fs => path.elements ≠ [] → cls = path.topClass →
      ¬ (setGoals m path.elements).fails value cls fs ∨
        (setGoals m path.elements).stops value cls fs

theorem idmefPathSet_cases (m : SetContext) (path : IdmefPath) (object : Obj)
    (value : Option IdmefValue) :
    idmefPathSet m path object value = (.error (.code .generic), object) ∧
        Settles m path value object ∨
      ∃ rc fs, object = .struct path.topClass rc fs ∧ path.elements ≠ [] ∧
        idmefPathSet m path object value =
          ((pathSet m path.elements value path.topClass fs).1,
            .struct path.topClass rc (pathSet m path.elements value path.topClass fs).2) := by
  unfold idmefPathSet
  rcases object with ⟨rc, p⟩ | ⟨cls, rc, fs⟩
  · refine .inl ⟨?_, trivial⟩
    rcases path.elements <;> rfl
  · rcases hes : path.elements with _ | ⟨e, es⟩
    · exact .inl ⟨rfl, fun h => absurd hes h⟩
    · by_cases hcls : cls = path.topClass
      · subst hcls
        exact .inr ⟨rc, fs, rfl, by simp, by simp⟩
      · exact .inl ⟨by simp [hcls], fun _ h => absurd h hcls⟩

/-- When a set that fails leaves the object alone. -/
theorem failed_set_iff (m : SetContext) (path : IdmefPath) (object : Obj)
    (value : Option IdmefValue) (t : ObjType) (hobject : HasType t object) :
    LeavesAlone m path object value ↔ Settles m path value object := by
  rcases idmefPathSet_cases m path object value with
    ⟨hset, hsettles⟩ | ⟨rc, fs, rfl, hne, hset⟩
  · refine iff_of_true (fun err _ => ?_) hsettles
    rw [hset]
    exact ⟨rfl, idmefCompare_self object⟩
  · have hfs : FieldsHaveType path.topClass.fields fs := by
      cases t with
      | prim t => simp only [HasType] at hobject
      | struct cls =>
        simp only [HasType] at hobject
        exact hobject.2.2
    have hdecided := pathSet_meets m path.elements path.valid value fs hfs
    simp only [Settles, ← hdecided.fails, ← hdecided.stops]
    constructor
    · intro halone _ _
      by_cases hfails : ∃ err, (pathSet m path.elements value path.topClass fs).1 =
          .error (.code err)
      · obtain ⟨err, herr⟩ := hfails
        have hsame := (halone err (by rw [hset, herr])).1
        rw [hset] at hsame
        injection hsame with _ _ hsame
        exact .inr ⟨err, Prod.ext herr hsame⟩
      · exact .inl hfails
    · intro hsettles err herr
      rw [hset] at herr ⊢
      rcases hsettles hne trivial with hfails | ⟨err', h⟩
      · exact absurd ⟨err, herr⟩ hfails
      · rw [h]
        exact ⟨rfl, idmefCompare_self _⟩

end

section

def spoofedPath : IdmefPath where
  topClass := .message
  elements := [⟨indexForbidden, none, 1⟩, ⟨indexUndefined, none, 6⟩, ⟨indexForbidden, none, 1⟩]
  valid := ⟨.inr rfl, .inl rfl, .inr rfl, rfl⟩

def sourcesAlert : Obj :=
  .struct .message 1 [.ptr (some (.prim 1 (.string preludeStringNew))),
    .union 1 (some (.struct .alert 1 ((newFields ⟨0, 0, 0⟩ .alert).set 6
      (.list [idmefNew ⟨0, 0, 0⟩ .source, idmefNew ⟨0, 0, 0⟩ .source]))))]

theorem sourcesAlert_hasType : HasType (.struct .message) sourcesAlert := by
  refine ⟨by decide, rfl, ⟨by decide, rfl⟩, ⟨by decide, by decide, rfl, ?_⟩, trivial⟩
  repeat' constructor

theorem maybe_refused : Refuses plainSetContext.toCastContext
    (.scalar (.string ⟨some (ascii "maybe")⟩)) .enum (some .sourceSpoofed) := by
  refine ⟨?_, ?_⟩
  · rintro ⟨v, hv, h⟩
    cases hv
    rcases h with h | ⟨text, cls, htext, hcls, hname⟩
    · cases h
    · cases htext
      cases hcls
      have hnone : ¬ ∃ name ∈ IdmefEnumId.names .sourceSpoofed,
          strcasecmp (ascii "maybe") (ascii name) := by decide
      exact hnone hname
  · rintro ⟨v, -, hnumber, -⟩
    exact not_isNumber (.inr (.inl rfl)) hnumber

/-- The first of two texts is what the first source has already, and the second one is unknown. -/
theorem failed_set_two_sources :
    (idmefPathSet plainSetContext spoofedPath sourcesAlert
      (some (.list [some (.scalar (.string ⟨some (ascii "unknown")⟩)),
        some (.scalar (.string ⟨some (ascii "maybe")⟩))]))).1 =
        .error (.code .idmefUnknownEnumString) ∧
      LeavesAlone plainSetContext spoofedPath sourcesAlert
        (some (.list [some (.scalar (.string ⟨some (ascii "unknown")⟩)),
          some (.scalar (.string ⟨some (ascii "maybe")⟩))])) :=
  ⟨rfl, (failed_set_iff _ _ _ _ _ sourcesAlert_hasType).mpr (by
    refine fun _ _ => .inr ⟨rfl, ⟨6, .structList .source false, none⟩, _, rfl, rfl, [_], _, [],
      rfl, List.forall_mem_singleton.mpr ?_, ?_⟩
    · exact ⟨rfl, ⟨_, rfl, rfl⟩, fun h => by cases h⟩
    · exact ⟨rfl, maybe_refused, fun h => by cases h⟩)⟩

def secondActionPath : IdmefPath where
  topClass := .message
  elements := [⟨indexForbidden, none, 1⟩, ⟨indexForbidden, none, 8⟩, ⟨1, none, 1⟩,
    ⟨indexForbidden, none, 1⟩]
  valid := ⟨.inr rfl, .inr rfl, .inl rfl, .inr rfl, rfl⟩

/-- The set of a second action in a new message makes an alert and its assessment, and fails. -/
theorem failed_set_leaves_alert :
    ¬ ∀ err, (idmefPathSet plainSetContext secondActionPath (idmefNew idmefTimeNew .message)
        (some (.scalar (.string ⟨some (ascii "drop")⟩)))).1 = .error (.code err) →
      idmefCompare (idmefNew idmefTimeNew .message)
        (idmefPathSet plainSetContext secondActionPath (idmefNew idmefTimeNew .message)
          (some (.scalar (.string ⟨some (ascii "drop")⟩)))).2 = 0 := by
  intro h
  have hcompare := h .idmefTreeIndexUndefined rfl
  change idmefCompare (.struct .message 1 [.ptr (some (.prim 1 (.string preludeStringNew))),
      .union 0 none]) (.struct .message 1 [.ptr (some (.prim 1 (.string preludeStringNew))),
      .union 1 (some _)]) = 0 at hcompare
  simp [idmefCompare, IdmefClassId.fields, compareFields, compareField, compareOpt,
    Prim.compare_self] at hcompare

end

end LibPrelude
