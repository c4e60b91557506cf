import LibPrelude.Idmef.Copy
import LibPrelude.Idmef.PathWalk

/-! # Setting the elements with a key

A step into a keyed list stands for the elements with a key. The set that goes on below
such a step changes no other element and gives the key to what it makes, unless a value
cannot be stored in a new element. The set that ends there takes links for elements when
it deletes, and it makes no element without doing so again.
-/

namespace LibPrelude

section

variable {m : SetContext} {next : Setter} {e : IdmefPathElement} {key : List UInt8}
  {value v : Option IdmefValue} {cls : IdmefClassId} {c : Child} {fs : List Field}
  {l os : List Obj} {o new : Obj} {j : ℕ}

/-- What a set does below an object of a class keeps the fields, and it succeeds for the values that
can be stored there and fails for all others. -/
structure Setter.Stores (next : Setter) (cls : IdmefClassId) (storable : Option IdmefValue → Prop) :
    Prop where
  length : ∀ value fs, (next value cls fs).2.length = fs.length
  meets : ∃ stops holds, next.Meets cls
    ⟨fun v _ _ => storable v, fun v _ _ => ¬ storable v, stops, holds⟩

theorem Setter.Stores.ends {storable : Option IdmefValue → Prop} (h : next.Stores cls storable)
    (value : Option IdmefValue) (hfs : FieldsHaveType cls.fields fs) :
    ((next value cls fs).1 = .ok () ↔ storable value) ∧
      (next value cls fs).1 ≠ .error .stray := by
  obtain ⟨stops, holds, hmeets⟩ := h.meets
  have hdecided := hmeets value fs hfs
  refine ⟨hdecided.can, fun hstray => ?_⟩
  have hnot : ¬ storable value := by
    intro hcan
    rw [hdecided.can.mpr hcan] at hstray
    cases hstray
  obtain ⟨err, herr⟩ := hdecided.fails.mpr hnot
  rw [hstray] at herr
  cases herr

/-- The loop over a list changes no element without the key. -/
theorem setMatching_frame (next : Setter) (e : IdmefPathElement) (value : Option IdmefValue)
    (hkey : e.key = some key) (j : ℕ) (os : List Obj) :
    List.Forall₂ (fun o o' => ¬ hasIndexKey key o → o' = o) os
      (setMatching next e value j os).2 := by
  have hrefl (os : List Obj) : List.Forall₂ (fun o o' => ¬ hasIndexKey key o → o' = o) os os :=
    List.forall₂_same.mpr fun _ _ _ => rfl
  induction os generalizing j with
  | nil => exact .nil
  | cons o os ih =>
    rw [setMatching]
    simp only [hkey, Option.any_some]
    split
    · exact .cons (fun _ => rfl) (ih j)
    · rename_i hhas
      have hhas : hasIndexKey key o := by simpa using hhas
      rcases IdmefValue.nth value j with _ | v
      · exact hrefl _
      · simp only
        rcases hr : (next.inObject v o).1 with err | _
        · exact .cons (fun hn => absurd hhas hn) (hrefl os)
        · exact .cons (fun hn => absurd hhas hn) (ih _)

theorem standsFor_eq (hkey : e.key = some key) : e.standsFor = hasIndexKey key := by
  funext o
  simp [IdmefPathElement.standsFor, hkey]

/-- How the loop over a list ends: at the end of the list, where the values are used up, or with an
error of a value that cannot be stored. -/
theorem setMatching_result {storable : Option IdmefValue → Prop}
    (hstores : next.Stores cls storable) (hkey : e.key = some key)
    (hos : ∀ o ∈ os, HasType (.struct cls) o) :
    match (setMatching next e value 0 os).1 with
    | .ok j => (∀ p ∈ assigned value 0 (os.filter (hasIndexKey key)), storable p.1) ∧
        (IdmefValue.entries value).drop j =
          (IdmefValue.entries value).drop (os.filter (hasIndexKey key)).length
    | .error (.ok ()) =>
      (IdmefValue.entries value).drop (os.filter (hasIndexKey key)).length = []
    | .error (.error err) => err ≠ .stray ∧
        ¬ ∀ p ∈ assigned value 0 (os.filter (hasIndexKey key)), storable p.1 := by
  obtain ⟨stops, holds, hmeets⟩ := hstores.meets
  have hdecided := @setMatching_decided next _ e cls os hmeets value 0 hos
  have hused := setMatching_used next e value 0 os
  rw [standsFor_eq hkey] at hdecided hused
  have hcan : (∀ p ∈ assigned value 0 (os.filter (hasIndexKey key)), SetGoal.forPair
      (fun v _ _ => storable v) p) ↔
        ∀ p ∈ assigned value 0 (os.filter (hasIndexKey key)), storable p.1 := by
    refine forall₂_congr fun p hp => ?_
    have ho := hos p.2 (List.mem_of_mem_filter (assigned_mem hp))
    rcases p with ⟨v, ⟨rc, p⟩ | ⟨cls', rc, fs⟩⟩
    · simp only [HasType] at ho
    · exact Iff.rfl
  have hfails : ∀ p ∈ assigned value 0 (os.filter (hasIndexKey key)),
      ¬ SetGoal.forPair (fun v _ _ => storable v) p →
        SetGoal.forPair (fun v _ _ => ¬ storable v) p := by
    intro p hp hnot
    have ho := hos p.2 (List.mem_of_mem_filter (assigned_mem hp))
    rcases p with ⟨v, ⟨rc, p⟩ | ⟨cls', rc, fs⟩⟩
    · simp only [HasType] at ho
    · exact hnot
  rcases hr : (setMatching next e value 0 os).1 with (err | ⟨⟩) | j <;> rw [hr] at hdecided hused
  · have hnot : ¬ ∀ p ∈ assigned value 0 (os.filter (hasIndexKey key)), storable p.1 := by
      intro hall
      cases hdecided.can.mpr (hcan.mpr hall)
    refine ⟨fun herr => ?_, hnot⟩
    obtain ⟨err', herr'⟩ := hdecided.fails.mpr (firstOf_of_not (mt hcan.mp hnot) hfails)
    rw [walkRet, herr] at herr'
    cases herr'
  · rwa [Nat.zero_add] at hused
  · rw [Nat.zero_add] at hused
    exact ⟨hcan.mp (hdecided.can.mp rfl), hused⟩

theorem hasIndexKey_set {rc : ℕ} (h : fs ≠ []) :
    hasIndexKey key (setIndexKey (some key) (.struct cls rc fs)) := by
  obtain ⟨f, fs, rfl⟩ := List.exists_cons_of_ne_nil h
  simp [setIndexKey, hasIndexKey, strcmp]

theorem newFields_ne_nil (now : IdmefTime) (cls : IdmefClassId) : newFields now cls ≠ [] := by
  cases cls <;> simp [newFields, IdmefClassId.fields]

/-- The elements that are made for values get the key just if each value can be stored, or if the
one that is left when a value cannot be has the key. -/
theorem appendEach_keyed {cls' : IdmefClassId} {storable : Option IdmefValue → Prop} {blank : Prop}
    (hstores : next.Stores cls' storable) (hkey : e.key = some key)
    (hc : cls.children[e.position]? = some c) (hcls : c.cls = some cls')
    (hleft : ∀ v, ¬ storable v →
      (hasIndexKey key (.struct cls' 1 (next v cls' (newFields m.now cls')).2) ↔ blank))
    (vs : List (Option IdmefValue)) (fs : List Field) (l : List Obj)
    (hf : fs[c.field]? = some (.list l)) :
    (appendEach (setStep m e idmefListAppend (some next)) (setLastKey e) cls vs fs).1 ≠
        .error .stray ∧
      ∃ created, (appendEach (setStep m e idmefListAppend (some next)) (setLastKey e)
          cls vs fs).2[c.field]? = some (.list (l ++ created)) ∧
        ((∀ o ∈ created, hasIndexKey key o) ↔ (∀ v ∈ vs, storable v) ∨ blank) := by
  induction vs generalizing fs l with
  | nil => exact ⟨by simp [appendEach], [], by simpa [appendEach] using hf, by simp⟩
  | cons v vs ih =>
    have hlt : c.field < fs.length := (List.getElem?_eq_some_iff.mp hf).1
    have hset (l' : List Obj) : (fs.set c.field (.list l'))[c.field]? = some (.list l') :=
      List.getElem?_set_self hlt
    have htype := newFields_type m.now cls'
    obtain ⟨hok, hstray⟩ := hstores.ends v htype
    rw [appendEach, setStep_append hc hf, newObject_eq m.now hcls, Setter.inObject]
    have hlength := hstores.length v (newFields m.now cls')
    have hleft := hleft v
    rcases hnext : next v cls' (newFields m.now cls') with ⟨err | ⟨⟩, fs'⟩ <;>
      simp only [hnext] at hstray hok hlength hleft ⊢
    · have hnot : ¬ storable v := fun h => by cases hok.mpr h
      refine ⟨hstray, [.struct cls' 1 fs'], hset _, ?_⟩
      simp [hnot, hleft hnot]
    · have hne : fs' ≠ [] := by
        rintro rfl
        exact newFields_ne_nil m.now cls' (List.length_eq_zero_iff.mp hlength.symm)
      rw [setLastKey_eq hc (hset _), List.set_set, hkey]
      obtain ⟨hret, created, hcreated, hiff⟩ := ih _ _ (hset _)
      refine ⟨hret, setIndexKey (some key) (.struct cls' 1 fs') :: created, ?_, ?_⟩
      · simpa using hcreated
      · rw [List.forall_mem_cons, hiff, List.forall_mem_cons,
          and_iff_right (hok.mp trivial)]
        exact and_iff_right (hasIndexKey_set hne)

/-- The elements with another key are kept, and the ones that are made have the key. -/
def KeyedSet (key : List UInt8) (before after : List Obj) (ret : SetRet) : Prop :=
  ret ≠ .error .stray ∧ ∃ changed created, after = changed ++ created ∧
    List.Forall₂ (fun o o' => ¬ hasIndexKey key o → o' = o) before changed ∧
    ∀ o ∈ created, hasIndexKey key o

/-- Unless a value for an element with the key cannot be stored, all values left over can be, or the
element that is made for one that cannot has the key by itself. -/
def LeftoverKeyed (storable : Option IdmefValue → Prop) (blank : Prop) (key : List UInt8)
    (value : Option IdmefValue) (before : List Obj) : Prop :=
  (∀ p ∈ assigned value 0 (before.filter (hasIndexKey key)), storable p.1) →
    (∀ v ∈ (IdmefValue.entries value).drop (before.filter (hasIndexKey key)).length, storable v) ∨
      blank

theorem setUndefinedNotLast_iff {cls' : IdmefClassId} {storable : Option IdmefValue → Prop}
    {blank : Prop} (hstores : next.Stores cls' storable) (hkey : e.key = some key)
    (hc : cls.children[e.position]? = some c) (hcls : c.cls = some cls')
    (hleft : ∀ v, ¬ storable v →
      (hasIndexKey key (.struct cls' 1 (next v cls' (newFields m.now cls')).2) ↔ blank))
    (hf : fs[c.field]? = some (.list l)) (hl : ∀ o ∈ l, HasType (.struct cls') o) :
    KeyedSet key l (listChild cls (setUndefinedNotLast m e next value cls fs).2 e.position)
        (setUndefinedNotLast m e next value cls fs).1 ↔
      LeftoverKeyed storable blank key value l := by
  have hlt : c.field < fs.length := (List.getElem?_eq_some_iff.mp hf).1
  have hset (l' : List Obj) : (fs.set c.field (.list l'))[c.field]? = some (.list l') :=
    List.getElem?_set_self hlt
  have hframe := setMatching_frame next e value hkey 0 l
  have hresult := @setMatching_result next e key value cls' l storable hstores hkey hl
  obtain ⟨hret, created, hcreated, hiff⟩ : (setUndefinedNotLast m e next value cls fs).1 ≠
      .error .stray ∧ ∃ created, (setUndefinedNotLast m e next value cls fs).2[c.field]? =
        some (.list ((setMatching next e value 0 l).2 ++ created)) ∧
        ((∀ o ∈ created, hasIndexKey key o) ↔ LeftoverKeyed storable blank key value l) := by
    simp only [setUndefinedNotLast, listChild_eq hc hf, setListChild_eq hc hf]
    rcases hend : (setMatching next e value 0 l).1 with (err | ⟨⟩) | j <;> rw [hend] at hresult
    · exact ⟨fun herr => hresult.1 (by cases herr; rfl), [], by simpa using hset _,
        iff_of_true (by simp) fun hall => absurd hall hresult.2⟩
    · refine ⟨by simp, [], by simpa using hset _, iff_of_true (by simp) fun _ => .inl ?_⟩
      rw [hresult]
      exact List.forall_mem_nil _
    · simp only
      obtain ⟨hret, created, hcreated, hiff⟩ := appendEach_keyed hstores hkey hc hcls hleft
        ((IdmefValue.entries value).drop j) _ _ (hset (setMatching next e value 0 l).2)
      refine ⟨hret, created, hcreated, hiff.trans ?_⟩
      rw [hresult.2]
      exact ⟨fun h _ => h, fun h => h hresult.1⟩
  rw [listChild_eq hc hcreated, ← hiff]
  constructor
  · rintro ⟨-, changed, created', heq, hchanged, hkeyed⟩
    have hlength := hframe.length_eq.symm.trans hchanged.length_eq
    rwa [(List.append_inj heq hlength).2]
  · exact fun hkeyed => ⟨hret, _, created, rfl, hframe, hkeyed⟩

theorem deleteListedChild_sublist {test : ℕ → Option Bool} {i : ℕ}
    (h : deleteListedChild test i os = some l) : l.Sublist os := by
  induction os generalizing i l with
  | nil =>
    cases h
    exact .slnil
  | cons o os ih =>
    rw [deleteListedChild] at h
    split at h
    · cases h
    · exact (ih h).cons o
    · obtain ⟨l', hl', rfl⟩ := Option.map_eq_some_iff.mp h
      exact (ih hl').cons_cons o

/-- What is deleted are the elements with the key just if every test says what it should. -/
theorem deleteListedChild_iff {test : ℕ → Option Bool} (i : ℕ) (os : List Obj) :
    deleteListedChild test i os = some (os.filter fun o => ¬ hasIndexKey key o) ↔
      ∀ n o, os[n]? = some o → test (i + n) = some (hasIndexKey key o) := by
  induction os generalizing i with
  | nil => simp [deleteListedChild]
  | cons o os ih =>
    have hsplit : (∀ n o', (o :: os)[n]? = some o' → test (i + n) = some (hasIndexKey key o')) ↔
        test i = some (hasIndexKey key o) ∧
          ∀ n o', os[n]? = some o' → test (i + 1 + n) = some (hasIndexKey key o') := by
      constructor
      · intro h
        exact ⟨h 0 o rfl, fun n o' ho' => by
          have := h (n + 1) o' ho'
          rwa [show i + (n + 1) = i + 1 + n by omega] at this⟩
      · rintro ⟨hfirst, hrest⟩ n o' ho'
        cases n with
        | zero =>
          cases ho'
          exact hfirst
        | succ n =>
          rw [show i + (n + 1) = i + 1 + n by omega]
          exact hrest n o' ho'
    rw [hsplit, ← ih (i + 1), deleteListedChild]
    rcases htest : test i with _ | _ | _
    · simp
    · by_cases hhas : hasIndexKey key o
      · simp only [hhas, Option.map_eq_some_iff, List.filter_cons, not_true_eq_false]
        refine iff_of_false ?_ (by simp)
        rintro ⟨l, -, hl⟩
        have hmem : o ∈ os.filter fun o => ¬ hasIndexKey key o := by
          rw [if_neg (by simp)] at hl
          exact hl ▸ List.mem_cons_self
        simp [hhas] at hmem
      · simp [hhas]
    · by_cases hhas : hasIndexKey key o
      · simp [hhas]
      · refine iff_of_false (fun h => ?_) (by simp [hhas])
        have hsub := (deleteListedChild_sublist h).filter fun o => ¬ hasIndexKey key o
        have hlength := hsub.length_le
        simp [hhas] at hlength

/-- Exactly the elements with the key are gone, and so many with the key are made. -/
def KeyedReplaced (key : List UInt8) (before after : List Obj) (n : ℕ) (ret : SetRet) : Prop :=
  ret = .ok () ∧ ∃ created, after = (before.filter fun o => ¬ hasIndexKey key o) ++ created ∧
    created.length = n ∧ ∀ o ∈ created, hasIndexKey key o

/-- Every link has the key that its element has, when it is taken for an element. -/
def LinksAgree (m : SetContext) (key : List UInt8) (before : List Obj) : Prop :=
  ∀ n o, before[n]? = some o → m.linkHasKey before n key = some (hasIndexKey key o)

theorem setUndefinedLast_iff (hindex : e.index = indexKey) (hkey : e.key = some key)
    (hc : cls.children[e.position]? = some c) (hf : fs[c.field]? = some (.list l)) :
    KeyedReplaced key l (listChild cls (setUndefinedLast m e value cls fs).2 e.position)
        (IdmefValue.entries value).length (setUndefinedLast m e value cls fs).1 ↔
      LinksAgree m key l ∧ IdmefValue.entries value = [] := by
  have hlt : c.field < fs.length := (List.getElem?_eq_some_iff.mp hf).1
  have hset (l' : List Obj) : (fs.set c.field (.list l'))[c.field]? = some (.list l') :=
    List.getElem?_set_self hlt
  have hagree : LinksAgree m key l ↔ deleteListedChild (fun i => m.linkHasKey l i key) 0 l =
      some (l.filter fun o => ¬ hasIndexKey key o) := by
    simp only [deleteListedChild_iff, Nat.zero_add, LinksAgree]
  rw [hagree]
  simp only [setUndefinedLast, listChild_eq hc hf, hkey, hindex, Option.isSome_some, and_self,
    if_true]
  rcases hdelete : deleteListedChild (fun i => m.linkHasKey l i key) 0 l with _ | l'
  · exact iff_of_false (fun h => by cases h.1) (by simp)
  simp only [setListChild_eq hc hf]
  rcases hentries : IdmefValue.entries value with _ | ⟨v, vs⟩
  · simp only [appendEach, listChild_eq hc (hset l'), and_true, Option.some.injEq]
    constructor
    · rintro ⟨-, created, rfl, hlength, -⟩
      rw [List.length_eq_zero_iff.mp hlength, List.append_nil]
    · rintro rfl
      exact ⟨rfl, [], (List.append_nil _).symm, rfl, by simp⟩
  · refine iff_of_false (fun h => ?_) (by simp)
    have hret := h.1
    rw [appendEach] at hret
    split at hret <;> cases hret

/-- The list that two steps lead to. -/
def keyedList (r e : IdmefPathElement) : Obj → List Obj
  | .struct cls _ fs =>
    match idmefClassGetChild cls fs r.position with
    | .ok (.object (.struct cls' _ fs')) => listChild cls' fs' e.position
    | _ => []
  | _ => []

/-- A path into the keyed list of a message, up to the elements with a key or further on. -/
structure KeyedPath (path : IdmefPath) (r e : IdmefPathElement) (tail : List IdmefPathElement)
    (key : List UInt8) (c₁ c : Child) (cls : IdmefClassId) : Prop where
  topClass : path.topClass = .message
  elements : path.elements = r :: e :: tail
  index : e.index = indexKey
  key : e.key = some key
  root : IdmefClassId.message.children[r.position]? = some c₁
  rootClass : c₁.cls = some cls
  child : cls.children[e.position]? = some c
  keyed : c.isKeyedList

theorem message_child {position : ℕ} (hc : IdmefClassId.message.children[position]? = some c)
    (hcls : c.cls = some cls) : ∃ members mem, c.field = 1 ∧ c.type = .union members ∧
      c.member = some mem ∧ mem.cls = cls ∧ mem.value ≠ 0 ∧
      IdmefClassId.message.fields[1]? = some ⟨"message", .union members⟩ ∧
      members.find? (fun m => m.value = mem.value) = some mem := by
  match position with
  | 0 =>
    cases hc
    cases hcls
  | 1 =>
    cases hc
    cases hcls
    exact ⟨_, _, rfl, rfl, rfl, rfl, by decide, rfl, rfl⟩
  | 2 =>
    cases hc
    cases hcls
    exact ⟨_, _, rfl, rfl, rfl, rfl, by decide, rfl, rfl⟩
  | n + 3 => cases hc

theorem keyed_type (h : c.isKeyedList) : ∃ cls', c.type = .structList cls' true := by
  unfold Child.isKeyedList at h
  split at h
  · rename_i htype
    exact ⟨_, htype.trans (by rw [h])⟩
  · cases h

theorem keyed_class {position : ℕ} (hc : cls.children[position]? = some c) (hk : c.isKeyedList) :
    c.cls = some .additionalData := by
  have hall : cls.children.all fun c => ¬ c.isKeyedList ∨ c.cls = some .additionalData := by
    cases cls <;> decide
  have := of_decide_eq_true (List.all_eq_true.mp hall c (List.mem_of_getElem? hc))
  exact this.resolve_left (not_not_intro hk)

theorem exists_list {position : ℕ} (hc : cls.children[position]? = some c) (hk : c.isKeyedList)
    (hf : FieldsHaveType cls.fields fs) : ∃ l, fs[c.field]? = some (.list l) ∧
      ∀ o ∈ l, HasType (.struct .additionalData) o := by
  obtain ⟨d, hd, hcd⟩ := children_mem (List.mem_of_getElem? hc)
  obtain ⟨cls', htype⟩ := keyed_type hk
  obtain rfl : cls' = .additionalData := by
    have hcls := keyed_class hc hk
    rw [Child.cls, htype] at hcls
    exact Option.some.inj hcls
  obtain ⟨f, hf, hft⟩ := fieldsHaveType_getElem hf hd
  rw [← children_type hcd, htype] at hft
  cases f <;> simp only [FieldHasType] at hft
  exact ⟨_, hf, fun o ho => listHasType_mem hft ho⟩

theorem new_list {position : ℕ} (now : IdmefTime) (hc : cls.children[position]? = some c)
    (hk : c.isKeyedList) : (newFields now cls)[c.field]? = some (.list []) := by
  obtain ⟨d, hd, hcd⟩ := children_mem (List.mem_of_getElem? hc)
  obtain ⟨cls', htype⟩ := keyed_type hk
  rw [newFields, List.getElem?_map, hd, Option.map_some, newField, ← children_type hcd, htype]

variable {path : IdmefPath} {r : IdmefPathElement} {tail : List IdmefPathElement} {c₁ : Child}
  {rc : ℕ} {msg : Obj}

theorem union_type {members : List Member} {f : Field} (h : FieldHasType (.union members) f) :
    ∃ var o, f = .union var o ∧ (o = none → var = 0) ∧ ∀ o', o = some o' → ∀ mem,
      members.find? (fun m => m.value = var) = some mem → HasType (.struct mem.cls) o' := by
  rcases f with ⟨isSet, val⟩ | o | l | ⟨var, _ | o⟩ <;> simp only [FieldHasType] at h
  · exact ⟨var, none, rfl, fun _ => h, by rintro _ ⟨⟩⟩
  · refine ⟨var, some o, rfl, by rintro ⟨⟩, ?_⟩
    rintro _ ⟨⟩ mem hfind
    simp only [hfind] at h
    exact h.2

theorem newChild_message (hc : IdmefClassId.message.children[r.position]? = some c₁)
    (hcls : c₁.cls = some cls) (hk : c.isKeyedList)
    (hchild : cls.children[e.position]? = some c)
    (hf : FieldsHaveType IdmefClassId.message.fields fs) :
    ∃ rc₀ fs₀ put, idmefClassNewChild m.now .message fs r.position r.index =
        .ok (c₁, .object (.struct cls rc₀ fs₀) put) ∧ FieldsHaveType cls.fields fs₀ ∧
      fs₀[c.field]? = some (.list (keyedList r e (.struct .message rc fs))) ∧
      ∀ rc₁ fs₁, keyedList r e (.struct .message rc₁
        (fs.set c₁.field (put (.struct cls rc₀ fs₁)))) = listChild cls fs₁ e.position := by
  obtain ⟨members, mem, hfield, htype, hmember, rfl, hzero, hd, hfind⟩ := message_child hc hcls
  obtain ⟨f, hf₁, hft⟩ := fieldsHaveType_getElem hf hd
  obtain ⟨var, o, rfl, hnone, hsome⟩ := union_type hft
  rw [← hfield] at hf₁
  have hlt : c₁.field < fs.length := (List.getElem?_eq_some_iff.mp hf₁).1
  have hput (rc₀ rc₁ : ℕ) (fs₁ : List Field) : keyedList r e (.struct .message rc₁
      (fs.set c₁.field (.union mem.value (some (.struct mem.cls rc₀ fs₁))))) =
        listChild mem.cls fs₁ e.position := by
    simp [keyedList, idmefClassGetChild, hc, hlt, getChildCase, hmember]
  have hnew : newObject m.now c₁ = .struct mem.cls 1 (newFields m.now mem.cls) :=
    newObject_eq m.now hcls
  by_cases hvar : mem.value = var
  · rcases o with _ | o
    · exact absurd (hvar.trans (hnone rfl)) hzero
    · subst hvar
      have ho := hsome o rfl mem hfind
      rcases o with ⟨rc₀, p⟩ | ⟨cls₀, rc₀, fs₀⟩
      · simp only [HasType] at ho
      · simp only [HasType] at ho
        obtain ⟨-, rfl, hfs₀⟩ := ho
        obtain ⟨l, hl, -⟩ := exists_list hchild hk hfs₀
        refine ⟨rc₀, fs₀, fun o => .union mem.value (some o), ?_, hfs₀, ?_,
          fun rc₁ => hput rc₀ rc₁⟩
        · simp [idmefClassNewChild, hc, hf₁, newChildCase, hmember, Except.map]
        · simp [keyedList, idmefClassGetChild, hc, hf₁, getChildCase, hmember,
            listChild_eq hchild hl, hl]
  · refine ⟨1, newFields m.now mem.cls, fun o => .union mem.value (some o), ?_,
      newFields_type m.now mem.cls, ?_, fun rc₁ => hput 1 rc₁⟩
    · simp [idmefClassNewChild, hc, hf₁, newChildCase, hmember, hvar, hnew, Except.map]
    · simp [keyedList, idmefClassGetChild, hc, hf₁, getChildCase, hmember, hvar,
        new_list m.now hchild hk]

theorem idmefPathSet_keyed (hp : KeyedPath path r e tail key c₁ c cls)
    (hmsg : HasType (.struct .message) msg) :
    ∃ fs₀, FieldsHaveType cls.fields fs₀ ∧ fs₀[c.field]? = some (.list (keyedList r e msg)) ∧
      (idmefPathSet m path msg value).1 = (pathSet m (e :: tail) value cls fs₀).1 ∧
      keyedList r e (idmefPathSet m path msg value).2 =
        listChild cls (pathSet m (e :: tail) value cls fs₀).2 e.position := by
  rcases msg with ⟨rc, p⟩ | ⟨cls', rc, fs⟩
  · simp only [HasType] at hmsg
  simp only [HasType] at hmsg
  obtain ⟨-, rfl, hfs⟩ := hmsg
  obtain ⟨rc₀, fs₀, put, hnew, hfs₀, hlist, hput⟩ :=
    @newChild_message m e cls c fs r c₁ rc hp.root hp.rootClass hp.keyed hp.child hfs
  have hindex : ¬ (r.index = indexUndefined ∨ r.index = indexKey) := by
    have hvalid := path.valid
    obtain ⟨_, _, -, htype, -⟩ := message_child hp.root hp.rootClass
    rw [hp.topClass, hp.elements] at hvalid
    simp only [ValidElements, hp.root] at hvalid
    have hforbidden : r.index = indexForbidden := by
      simpa [Child.isList, htype] using hvalid.1
    rw [hforbidden]
    decide
  refine ⟨fs₀, hfs₀, hlist, ?_⟩
  have hstep : pathSet m (r :: e :: tail) value .message fs =
      ((pathSet m (e :: tail) value cls fs₀).1,
        fs.set c₁.field (put (.struct cls rc₀ (pathSet m (e :: tail) value cls fs₀).2))) := by
    rw [pathSet, if_neg hindex, setStep, if_neg (by simp), hnew]
    rfl
  have hset : idmefPathSet m path (.struct .message rc fs) value =
      ((pathSet m (r :: e :: tail) value .message fs).1,
        .struct .message rc (pathSet m (r :: e :: tail) value .message fs).2) := by
    simp [idmefPathSet, hp.elements, hp.topClass]
  rw [hset, hstep]
  exact ⟨rfl, hput rc _⟩

/-- What a path through the elements with a key designates are the values in these elements. -/
def collected (key : List UInt8) (tail : List IdmefPathElement) (l : List Obj) :
    Except ErrorCode (Option IdmefValue) :=
  ((l.filter (hasIndexKey key)).mapM (idmefPathGetInternal tail)).map fun
    | [] => none
    | v :: vs => some (.list (v :: vs))

theorem idmefPathGet_keyed (hp : KeyedPath path r e tail key c₁ c cls)
    (hmsg : HasType (.struct .message) msg) :
    idmefPathGet path msg = collected key tail (keyedList r e msg) := by
  have hempty : collected key tail [] = .ok none := rfl
  rcases msg with ⟨rc, p⟩ | ⟨cls', rc, fs⟩
  · simp only [HasType] at hmsg
  simp only [HasType] at hmsg
  obtain ⟨-, rfl, hfs⟩ := hmsg
  obtain ⟨members, mem, hfield, htype, hmember, rfl, -, hd, hfind⟩ :=
    message_child hp.root hp.rootClass
  obtain ⟨f, hf, hft⟩ := fieldsHaveType_getElem hfs hd
  obtain ⟨var, o, rfl, -, hsome⟩ := union_type hft
  rw [← hfield] at hf
  have hget : idmefClassGetChild .message fs r.position = .ok (getChildCase c₁ (.union var o)) := by
    simp [idmefClassGetChild, hp.root, hf]
  have hpath : idmefPathGet path (.struct .message rc fs) =
      idmefPathGetInternal (r :: e :: tail) (.struct .message rc fs) := by
    simp [idmefPathGet, hp.elements, hp.topClass, Obj.cls?]
  rw [hpath, idmefPathGetInternal, keyedList]
  simp only [hget, getChildCase, hmember, Option.map_some, Option.some.injEq]
  by_cases hvar : mem.value = var
  · rcases o with _ | o
    · simp [hvar, hempty]
    · subst hvar
      have ho := hsome o rfl mem hfind
      rcases o with ⟨rc₀, p⟩ | ⟨cls₀, rc₀, fs₀⟩
      · simp only [HasType] at ho
      simp only [HasType] at ho
      obtain ⟨-, rfl, hfs₀⟩ := ho
      obtain ⟨l, hl, -⟩ := exists_list hp.child hp.keyed hfs₀
      have hlist : idmefClassGetChild mem.cls fs₀ e.position = .ok (.list l) := by
        simp [idmefClassGetChild, hp.child, hl, getChildCase]
      simp only [if_true, Option.elim_some, idmefPathGetInternal, hlist, listChild_eq hp.child hl]
      rw [if_pos (by simp [IdmefPathElement.isMultiple, hp.index]), keyedElements, hp.key,
        collected]
      simp only
      rcases (l.filter (hasIndexKey key)).mapM (idmefPathGetInternal tail) with err | vs
      · rfl
      · cases vs <;> rfl
  · simp [hvar, hempty]

theorem tail_leaf (hp : KeyedPath path r e tail key c₁ c cls) (ht : tail ≠ []) :
    ∃ leaf c', tail = [leaf] ∧ leaf.index = indexForbidden ∧
      IdmefClassId.additionalData.children[leaf.position]? = some c' := by
  have hleaf : IdmefClassId.additionalData.children.all fun c => c.cls = none ∧ ¬ c.isList := by
    decide
  have hvalid := path.valid
  rw [hp.topClass, hp.elements] at hvalid
  simp only [ValidElements, hp.root, hp.rootClass, hp.child,
    keyed_class hp.child hp.keyed] at hvalid
  obtain ⟨leaf, rest, rfl⟩ := List.exists_cons_of_ne_nil ht
  have hvalid := hvalid.2.2
  simp only [ValidElements] at hvalid
  split at hvalid
  · exact hvalid.elim
  · rename_i c' hc'
    obtain ⟨hcls', hlist⟩ := of_decide_eq_true
      (List.all_eq_true.mp hleaf c' (List.mem_of_getElem? hc'))
    simp only [hcls'] at hvalid
    obtain ⟨hindex, rfl⟩ := hvalid
    exact ⟨leaf, c', rfl, hindex.resolve_left hlist, hc'⟩

/-- The value that a child of additional data is set to is absent, or it is one of the type of the
child or can be cast to it. -/
def Storable (m : SetContext) (position : ℕ) : Option IdmefValue → Prop
  | none => True
  | some v => ∃ c, IdmefClassId.additionalData.children[position]? = some c ∧
      Converts m.toCastContext v c.valueType c.enumId

/-- The child is the key itself, and the key is empty. -/
def BlankKey (position : ℕ) (key : List UInt8) : Prop :=
  position = 0 ∧ PreludeString.cString key = []

theorem additionalData_fields (h : FieldsHaveType IdmefClassId.additionalData.fields fs) :
    ∃ meaning isSet val data, fs = [.ptr meaning, .scalar isSet val, .ptr data] ∧
      OptHasType (.prim .string) meaning ∧ OptHasType (.prim .data) data := by
  simp only [IdmefClassId.fields, FieldDesc.str, FieldDesc.enum] at h
  rcases fs with _ | ⟨f, _ | ⟨g, _ | ⟨k, _ | ⟨_, _⟩⟩⟩⟩ <;>
    simp only [FieldsHaveType, and_false] at h
  obtain ⟨hf, hg, hk, -⟩ := h
  cases f <;> simp only [FieldHasType] at hf
  cases g <;> simp only [FieldHasType] at hg
  cases k <;> simp only [FieldHasType] at hk
  exact ⟨_, _, _, _, rfl, hf, hk⟩

theorem length_destroyFrom (n : ℤ) (fs : List Field) (cs : List Child) :
    (destroyFrom n fs cs).2.length = fs.length := by
  induction cs with
  | nil => rfl
  | cons c cs ih =>
    rw [destroyFrom]
    split
    · simp
    · exact ih

theorem length_storeLeaf (m : SetContext) (v : IdmefValue) (cls : IdmefClassId) (c : Child)
    (fs : List Field) : (storeLeaf m v cls c fs).2.length = fs.length := by
  have hdatatype : (withDatatype v cls c fs).length = fs.length := by
    rcases withDatatype_cases v cls c fs with ⟨-, h⟩ | ⟨-, -, -, val, type, -, h⟩ <;>
      simp [h]
  rw [storeLeaf]
  split <;> simp [hdatatype]

theorem length_setStep (m : SetContext) (e : IdmefPathElement) (index : ℤ)
    (next : Option Setter) (value : Option IdmefValue) (cls : IdmefClassId) (fs : List Field) :
    (setStep m e index next value cls fs).2.length = fs.length := by
  unfold setStep
  split_ifs
  · exact length_destroyFrom _ _ _
  · split
    · rfl
    · split
      · exact (length_storeLeaf m _ _ _ _).trans (List.length_set)
      · exact List.length_set
    · exact List.length_set

theorem fits_prim {t : PrimType} {o : Option Obj} (h : OptHasType (.prim t) o) :
    LeafFits t.valueType (.ptr (some (o.getD (.prim 1 t.new)))) := by
  rcases o with _ | ⟨rc, p⟩ | ⟨cls, rc, fs⟩
  · cases t <;> trivial
  · simp only [OptHasType, HasType] at h
    obtain ⟨-, rfl⟩ := h
    cases p <;> trivial
  · simp only [OptHasType, HasType] at h

theorem not_isNumber {type : IdmefValueTypeId}
    (h : type = .string ∨ type = .enum ∨ type = .data) : ¬ type.isNumber := by
  rcases h with rfl | rfl | rfl <;> simp [IdmefValueTypeId.isNumber, IdmefValueTypeId.integerType]

theorem leaf_child {position : ℕ} (n : ℤ)
    (hc : IdmefClassId.additionalData.children[position]? = some c)
    (hfs : FieldsHaveType IdmefClassId.additionalData.fields fs) :
    (∃ f, idmefClassNewChild m.now .additionalData fs position n = .ok (c, .leaf f) ∧
      LeafFits c.valueType f) ∧ ¬ c.valueType.isNumber ∧
      ¬ FallsOut n fs (IdmefClassId.additionalData.children.drop position) := by
  obtain ⟨meaning, isSet, val, data, rfl, hmeaning, hdata⟩ := additionalData_fields hfs
  rcases position with _ | _ | _ | n
  · cases hc
    exact ⟨⟨_, rfl, fits_prim hmeaning⟩, not_isNumber (.inl rfl), not_false⟩
  · cases hc
    exact ⟨⟨_, rfl, .inr (.inr rfl)⟩, not_isNumber (.inr (.inl rfl)), not_false⟩
  · cases hc
    exact ⟨⟨_, rfl, fits_prim hdata⟩, not_isNumber (.inr (.inr rfl)), not_false⟩
  · cases hc

theorem leaf_goals {leaf : IdmefPathElement}
    (hc : IdmefClassId.additionalData.children[leaf.position]? = some c)
    (hfs : FieldsHaveType IdmefClassId.additionalData.fields fs) :
    (CanSetLast m leaf leaf.index value .additionalData fs ↔ Storable m leaf.position value) ∧
      (FailsLast m leaf leaf.index value .additionalData fs ↔
        ¬ Storable m leaf.position value) := by
  obtain ⟨⟨f, hnew, hfits⟩, hnumber, hout⟩ := @leaf_child m c fs leaf.position leaf.index hc hfs
  rcases value with _ | v
  · exact ⟨iff_of_true hout trivial,
      iff_of_false (@leaf_child m c fs leaf.position leaf.index hc hfs).2.2 (not_not_intro trivial)⟩
  · have hnull : ¬ ∃ v', v = .scalar v' ∧ ReadsNull v' c.valueType := by
      rintro ⟨v', -, h, -⟩
      exact hnumber h
    simp only [CanSetLast, FailsLast, AtChild, hnew, Storable, hc, Option.some.injEq,
      exists_eq_left', Refuses, hnull, hfits, and_true, not_false_eq_true, and_self]

theorem pathSet_leaf {leaf : IdmefPathElement} (hindex : leaf.index = indexForbidden) :
    pathSet m [leaf] = setStep m leaf leaf.index none := by
  rw [pathSet, if_neg]
  rw [hindex]
  decide

theorem leaf_stores {leaf : IdmefPathElement} (hindex : leaf.index = indexForbidden)
    (hc : IdmefClassId.additionalData.children[leaf.position]? = some c) :
    (pathSet m [leaf]).Stores .additionalData (Storable m leaf.position) := by
  rw [pathSet_leaf hindex]
  refine ⟨fun value fs => length_setStep m leaf leaf.index none value .additionalData fs,
    StopsLast m leaf leaf.index, HoldsLast m leaf leaf.index, fun value fs hfs => ?_⟩
  have hdecided := setStep_last m leaf leaf.index value .additionalData fs
  obtain ⟨hcan, hfails⟩ := @leaf_goals m value c fs leaf hc hfs
  exact ⟨hdecided.can.trans hcan, hdecided.fails.trans hfails, hdecided.stops, hdecided.holds⟩

theorem hasIndexKey_head {rc : ℕ} : hasIndexKey key (.struct cls rc fs) ↔
    ∃ rc' s, fs[0]? = some (.ptr (some (.prim rc' (.string s)))) ∧ strcmp (s.buf.getD []) key := by
  rcases fs with _ | ⟨⟨isSet, val⟩ | (_ | ⟨rc', p | p | p⟩ | ⟨cls', rc', fs'⟩) | l | ⟨var, o⟩, fs⟩
    <;> simp [hasIndexKey]

theorem withDatatype_head (v : IdmefValue) (cls : IdmefClassId) (c : Child) (fs : List Field) :
    (withDatatype v cls c fs)[0]? = fs[0]? := by
  rcases withDatatype_cases v cls c fs with ⟨-, h⟩ | ⟨-, -, -, val, type, -, h⟩
  · rw [h]
  · rw [h, List.getElem?_set_ne Nat.one_ne_zero]

/-- The key of a new object of additional data that a value cannot be stored in: there is none, but
it is made when it is what the value is for. -/
theorem leaf_left {leaf : IdmefPathElement} (hindex : leaf.index = indexForbidden)
    (hc : IdmefClassId.additionalData.children[leaf.position]? = some c)
    (hnot : ¬ Storable m leaf.position value) :
    hasIndexKey key (.struct .additionalData 1
      (pathSet m [leaf] value .additionalData (newFields m.now .additionalData)).2) ↔
        BlankKey leaf.position key := by
  rcases value with _ | v
  · exact absurd trivial hnot
  have hends := @valueAs_ends m.toCastContext c.valueType v c.enumId
  rcases hvalue : valueAs m.toCastContext v c.valueType c.enumId with err | w <;>
    rw [hvalue] at hends
  · have hstored {f : Field} {fs : List Field}
        (hnew : idmefClassNewChild m.now .additionalData fs leaf.position leaf.index =
          .ok (c, .leaf f)) : (setStep m leaf leaf.index none (some v) .additionalData fs).2[0]? =
            if c.field = 0 then some f else fs[0]? := by
      obtain ⟨-, f', hf', -⟩ := newChild_eq hnew
      have hlt : c.field < fs.length := (List.getElem?_eq_some_iff.mp hf').1
      simp only [setStep, Option.isNone_some, Bool.false_eq_true, false_and, if_false, hnew,
        storeLeaf_eq hc hlt, idmefValueCopyInternal, hvalue]
      rcases Nat.eq_zero_or_pos c.field with hzero | hpos
      · rw [if_pos hzero, hzero, List.getElem?_set_self]
        rw [hzero] at hlt
        rcases withDatatype_cases v .additionalData c (fs.set 0 f) with
          ⟨-, h⟩ | ⟨-, -, -, val, type, -, h⟩ <;> simpa [h] using hlt
      · rw [if_neg hpos.ne', List.getElem?_set_ne hpos.ne', withDatatype_head,
          List.getElem?_set_ne hpos.ne']
    rw [pathSet_leaf hindex, hasIndexKey_head]
    generalize hposition : leaf.position = position at hc hstored
    rcases position with _ | _ | _ | n
    · cases hc
      rw [hstored rfl]
      simp [BlankKey, newObject, Child.cls, FieldDesc.str, PrimType.new, strcmp,
        preludeStringNew, PreludeString.cString]
    · cases hc
      rw [hstored rfl]
      simp [BlankKey, newFields, IdmefClassId.fields, newField, FieldDesc.str]
    · cases hc
      rw [hstored rfl]
      simp [BlankKey, newFields, IdmefClassId.fields, newField, FieldDesc.str]
    · cases hc
  · exact absurd ⟨c, hc, hends.2⟩ hnot

/-- Getting and setting through the elements with a key do what they should. -/
def KeyedListWorks (m : SetContext) (path : IdmefPath) (r e : IdmefPathElement)
    (tail : List IdmefPathElement) (key : List UInt8) (msg : Obj) (value : Option IdmefValue) :
    Prop :=
  idmefPathGet path msg = collected key tail (keyedList r e msg) ∧
    let res := idmefPathSet m path msg value
    if tail = [] then
      KeyedReplaced key (keyedList r e msg) (keyedList r e res.2) (IdmefValue.entries value).length
        res.1
    else KeyedSet key (keyedList r e msg) (keyedList r e res.2) res.1

/-- Where the path ends at the list, nothing is to be made and no link is taken for an element with
another key, and else the values left over can be stored or leave the key by themselves. -/
def KeysAgree (m : SetContext) (tail : List IdmefPathElement) (key : List UInt8)
    (value : Option IdmefValue) (before : List Obj) : Prop :=
  match tail with
  | [] => LinksAgree m key before ∧ IdmefValue.entries value = []
  | leaf :: _ =>
    LeftoverKeyed (Storable m leaf.position) (BlankKey leaf.position key) key value before

/-- When a keyed list works. -/
theorem keyed_list_iff (m : SetContext) (path : IdmefPath) (r e : IdmefPathElement)
    (tail : List IdmefPathElement) (key : List UInt8) (c₁ c : Child) (cls : IdmefClassId)
    (msg : Obj) (value : Option IdmefValue) (hp : KeyedPath path r e tail key c₁ c cls)
    (hmsg : HasType (.struct .message) msg) :
    KeyedListWorks m path r e tail key msg value ↔
      KeysAgree m tail key value (keyedList r e msg) := by
  obtain ⟨fs₀, hfs₀, hlist, hret, hafter⟩ :=
    @idmefPathSet_keyed m e key value cls c path r tail c₁ msg hp hmsg
  have hindex : e.index = indexUndefined ∨ e.index = indexKey := .inr hp.index
  simp only [KeyedListWorks, idmefPathGet_keyed hp hmsg, true_and, hret, hafter]
  by_cases htail : tail = []
  · subst htail
    rw [if_pos rfl, pathSet, if_pos hindex]
    exact setUndefinedLast_iff hp.index hp.key hp.child hlist
  · obtain ⟨leaf, c', rfl, hforbidden, hc'⟩ := tail_leaf hp htail
    obtain ⟨l, hl, htyped⟩ := exists_list hp.child hp.keyed hfs₀
    obtain rfl : l = keyedList r e msg := Field.list.inj (Option.some.inj (hl.symm.trans hlist))
    rw [if_neg htail, pathSet, if_pos hindex]
    exact setUndefinedNotLast_iff (leaf_stores hforbidden hc') hp.key hp.child
      (keyed_class hp.child hp.keyed) (fun v hv => leaf_left hforbidden hc' hv) hlist htyped

end

section

def additionalDataPath : IdmefPath where
  topClass := .message
  elements := [⟨indexForbidden, none, 1⟩, ⟨indexKey, some (ascii "k"), 9⟩]
  valid := ⟨.inr rfl, .inl rfl, trivial⟩

def keyedDataPath : IdmefPath where
  topClass := .message
  elements := [⟨indexForbidden, none, 1⟩, ⟨indexKey, some (ascii "k"), 9⟩,
    ⟨indexForbidden, none, 2⟩]
  valid := ⟨.inr rfl, .inl rfl, .inr rfl, rfl⟩

def textData (key : String) : Obj :=
  .struct .additionalData 1 [.ptr (some (.prim 1 (.string ⟨some (ascii key)⟩))),
    .scalar true 0, .ptr (some (.prim 1 (.data (.charString (ascii "old")))))]

def dataAlert : Obj :=
  .struct .message 1 [.ptr (some (.prim 1 (.string preludeStringNew))),
    .union 1 (some (.struct .alert 1 ((newFields ⟨0, 0, 0⟩ .alert).set 9
      (.list [textData "k", textData "j", textData "k"]))))]

theorem keyedDataPath_keyed : KeyedPath keyedDataPath ⟨indexForbidden, none, 1⟩
    ⟨indexKey, some (ascii "k"), 9⟩ [⟨indexForbidden, none, 2⟩] (ascii "k")
    ⟨1, (IdmefClassId.message.fields[1]).type, some ⟨1, "alert", .alert⟩⟩
    ⟨9, .structList .additionalData true, none⟩ .alert :=
  ⟨rfl, rfl, rfl, rfl, rfl, rfl, rfl, rfl⟩

theorem dataAlert_hasType : HasType (.struct .message) dataAlert := by
  refine ⟨by decide, rfl, ⟨by decide, rfl⟩, ⟨by decide, by decide, rfl, ?_⟩, trivial⟩
  repeat' constructor

/-- Of three texts, two are stored in the elements with the key, and an element with the key is made
for the third. -/
theorem keyed_list_three_texts : KeyedListWorks plainSetContext keyedDataPath
    ⟨indexForbidden, none, 1⟩ ⟨indexKey, some (ascii "k"), 9⟩ [⟨indexForbidden, none, 2⟩]
    (ascii "k") dataAlert (some (.list [some (.scalar (.string ⟨some (ascii "a")⟩)),
      some (.scalar (.string ⟨some (ascii "b")⟩)), some (.scalar (.string ⟨some (ascii "c")⟩))])) :=
  (keyed_list_iff _ _ _ _ _ _ _ _ _ _ _ keyedDataPath_keyed dataAlert_hasType).mpr (by
    have htext (s : String) :
        Storable plainSetContext 2 (some (.scalar (.string ⟨some (ascii s)⟩))) :=
      ⟨_, rfl, _, rfl, .inr (by simp [Castable, Child.valueType, PrimType.valueType, DataCastable])⟩
    refine fun _ => .inl fun v hv => ?_
    obtain rfl : v = some (.scalar (.string ⟨some (ascii "c")⟩)) := List.mem_singleton.mp hv
    exact htext "c")

/-- The key of an additional data object that is made is written through its link. -/
theorem keyed_list_link : ¬ KeyedListWorks plainSetContext additionalDataPath
    ⟨indexForbidden, none, 1⟩ ⟨indexKey, some (ascii "k"), 9⟩ [] (ascii "k")
    (idmefNew idmefTimeNew .message)
    (some (.scalar (.class .additionalData (idmefNew idmefTimeNew .additionalData)))) := by
  rintro ⟨-, h⟩
  have hstray : (idmefPathSet plainSetContext additionalDataPath (idmefNew idmefTimeNew .message)
      (some (.scalar (.class .additionalData (idmefNew idmefTimeNew .additionalData))))).1 =
        .error .stray := rfl
  rw [if_pos rfl, KeyedReplaced, hstray] at h
  cases h.1

end

end LibPrelude
