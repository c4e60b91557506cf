import LibPrelude.Idmef.PathStep

/-! # Walks over the elements of a list

A step for all elements of a list, or for those with a key, goes on in one after the other
until the values are used up or one of them cannot be set. What such a walk does is told
by what the rest of the path does in each element.
-/

namespace LibPrelude

section

variable {α : Type} {p q : α → Prop} {x : α} {l : List α}

/-- An element of a list has the second property, and those before it have the first. -/
def FirstOf (p q : α → Prop) (l : List α) : Prop :=
  ∃ before x after, l = before ++ x :: after ∧ (∀ y ∈ before, p y) ∧ q x

@[simp] theorem firstOf_nil : ¬ FirstOf p q [] := by
  rintro ⟨before, x, after, h, -⟩
  cases before <;> cases h

theorem firstOf_cons : FirstOf p q (x :: l) ↔ q x ∨ p x ∧ FirstOf p q l := by
  constructor
  · rintro ⟨_ | ⟨y, before⟩, z, after, h, hbefore, hz⟩
    · cases h
      exact .inl hz
    · cases h
      obtain ⟨hx, hbefore⟩ := List.forall_mem_cons.mp hbefore
      exact .inr ⟨hx, before, z, after, rfl, hbefore, hz⟩
  · rintro (hx | ⟨hx, before, z, after, rfl, hbefore, hz⟩)
    · exact ⟨[], x, l, rfl, List.forall_mem_nil _, hx⟩
    · exact ⟨x :: before, z, after, rfl, List.forall_mem_cons.mpr ⟨hx, hbefore⟩, hz⟩

theorem firstOf_of_not (h : ¬ ∀ x ∈ l, p x) (hq : ∀ x ∈ l, ¬ p x → q x) : FirstOf p q l := by
  induction l with
  | nil => exact absurd (List.forall_mem_nil p) h
  | cons x l ih =>
    obtain ⟨hx, hl⟩ := List.forall_mem_cons.mp hq
    rw [firstOf_cons]
    by_cases hp : p x
    · exact .inr ⟨hp, ih (fun hall => h (List.forall_mem_cons.mpr ⟨hp, hall⟩)) hl⟩
    · exact .inl (hx hp)

end

def IdmefPathElement.standsFor (e : IdmefPathElement) (o : Obj) : Bool :=
  !(e.key.any fun key => ¬ hasIndexKey key o)

/-- The values that go into elements of a list, when so many are used. -/
def assigned (value : Option IdmefValue) (j : ℕ) : List Obj → List (Option IdmefValue × Obj)
  | [] => []
  | o :: os =>
    match IdmefValue.nth value j with
    | none => []
    | some v => (v, o) :: assigned value (IdmefValue.used value j) os

theorem assigned_mem {value : Option IdmefValue} {j : ℕ} {os : List Obj}
    {p : Option IdmefValue × Obj} (h : p ∈ assigned value j os) : p.2 ∈ os := by
  induction os generalizing j with
  | nil => cases h
  | cons o os ih =>
    rw [assigned] at h
    split at h
    · cases h
    · rcases List.mem_cons.mp h with rfl | h
      · exact List.mem_cons_self
      · exact List.mem_cons_of_mem o (ih h)

/-- What is asked for a set to succeed, for it to fail, and for the one or the other to leave what
is there as it is. -/
structure SetGoals where
  can : SetGoal
  fails : SetGoal
  stops : SetGoal
  holds : SetGoal

def SetGoal.inObject (goal : SetGoal) (value : Option IdmefValue) : Obj → Prop
  | .prim _ _ => False
  | .struct cls _ fs => goal value cls fs

abbrev SetGoal.forPair (goal : SetGoal) (p : Option IdmefValue × Obj) : Prop :=
  goal.inObject p.1 p.2

/-- What a set does below an object of a class is told by its goals. -/
def Setter.Meets (next : Setter) (cls : IdmefClassId) (goals : SetGoals) : Prop :=
  ∀ value fs, FieldsHaveType cls.fields fs → Decided (next value cls fs) fs
    (goals.can value cls fs) (goals.fails value cls fs) (goals.stops value cls fs)
    (goals.holds value cls fs)

section

variable {m : SetContext} {next : Setter} {goals : SetGoals} {e : IdmefPathElement}
  {value v : Option IdmefValue} {cls cls' : IdmefClassId} {c : Child} {fs : List Field}
  {l os : List Obj} {o : Obj} {j : ℕ}

theorem Decided.map {α β : Type} {r : SetRet × α} {before : α} {can fails stops holds : Prop}
    {g : α → β} (hg : Function.Injective g) (h : Decided r before can fails stops holds) :
    Decided (r.1, g r.2) (g before) can fails stops holds := by
  obtain ⟨ret, after⟩ := r
  refine ⟨h.can, h.fails, ?_, ?_⟩
  · simpa [hg.eq_iff] using h.stops
  · simpa [hg.eq_iff] using h.holds

theorem Setter.Meets.inObject (h : next.Meets cls goals) (value : Option IdmefValue)
    (ho : HasType (.struct cls) o) :
    Decided (next.inObject value o) o (goals.can.inObject value o) (goals.fails.inObject value o)
      (goals.stops.inObject value o) (goals.holds.inObject value o) := by
  rcases o with ⟨rc, p⟩ | ⟨cls', rc, fs⟩
  · simp only [HasType] at ho
  · simp only [HasType] at ho
    obtain ⟨-, rfl, hfs⟩ := ho
    have hinj : Function.Injective (Obj.struct cls' rc) := by
      rintro fs fs' ⟨⟩
      rfl
    exact (h value fs hfs).map hinj

theorem Decided.cons {r : SetRet × Obj} {rest : SetRet × List Obj}
    {can fails stops holds can' fails' stops' holds' : Prop}
    (h : Decided r o can fails stops holds) (hrest : Decided rest os can' fails' stops' holds') :
    Decided (match r.1 with
      | .error err => (.error err, r.2 :: os)
      | .ok () => (rest.1, r.2 :: rest.2)) (o :: os) (can ∧ can') (fails ∨ can ∧ fails')
      (stops ∨ holds ∧ stops') (holds ∧ holds') := by
  obtain ⟨hcan, hfails, hstops, hholds⟩ := h
  obtain ⟨hcan', hfails', hstops', hholds'⟩ := hrest
  rw [← hcan, ← hfails, ← hstops, ← hholds, ← hcan', ← hfails', ← hstops', ← hholds']
  rcases r with ⟨(err | _) | ⟨⟩, o'⟩ <;> rcases rest with ⟨(err' | _) | ⟨⟩, os'⟩ <;>
    constructor <;> simp

def walkRet : Except SetRet ℕ → SetRet
  | .ok _ => .ok ()
  | .error ret => ret

theorem setMatching_decided (h : next.Meets cls goals) (value : Option IdmefValue) (j : ℕ)
    (hos : ∀ o ∈ os, HasType (.struct cls) o) :
    Decided (walkRet (setMatching next e value j os).1, (setMatching next e value j os).2) os
      (∀ p ∈ assigned value j (os.filter e.standsFor), goals.can.forPair p)
      (FirstOf goals.can.forPair goals.fails.forPair (assigned value j (os.filter e.standsFor)))
      (FirstOf goals.holds.forPair goals.stops.forPair (assigned value j (os.filter e.standsFor)))
      (∀ p ∈ assigned value j (os.filter e.standsFor), goals.holds.forPair p) := by
  have hnothing (os : List Obj) : Decided ((.ok (), os) : SetRet × List Obj) os
      (∀ p ∈ ([] : List (Option IdmefValue × Obj)), goals.can.forPair p)
      (FirstOf goals.can.forPair goals.fails.forPair [])
      (FirstOf goals.holds.forPair goals.stops.forPair [])
      (∀ p ∈ ([] : List (Option IdmefValue × Obj)), goals.holds.forPair p) := by
    constructor <;> simp
  induction os generalizing j with
  | nil => exact hnothing []
  | cons o os ih =>
    obtain ⟨ho, hos⟩ := List.forall_mem_cons.mp hos
    rw [setMatching]
    by_cases hfor : e.standsFor o
    · rw [if_neg (by simpa [IdmefPathElement.standsFor] using hfor),
        List.filter_cons_of_pos hfor]
      rcases hnth : IdmefValue.nth value j with _ | v
      · have hassigned : assigned value j (o :: os.filter e.standsFor) = [] := by
          simp [assigned, hnth]
        rw [hassigned]
        exact hnothing (o :: os)
      · have hassigned : assigned value j (o :: os.filter e.standsFor) =
            (v, o) :: assigned value (IdmefValue.used value j) (os.filter e.standsFor) := by
          simp [assigned, hnth]
        have hcons := (h.inObject v ho).cons (ih (IdmefValue.used value j) hos)
        simp only [hassigned, firstOf_cons, List.forall_mem_cons]
        rcases hr : (next.inObject v o).1 with err | ⟨⟩ <;> rw [hr] at hcons <;> exact hcons
    · rw [if_pos (by simpa [IdmefPathElement.standsFor] using hfor),
        List.filter_cons_of_neg hfor]
      exact (ih j hos).map List.cons_injective

theorem drop_entries_used (value : Option IdmefValue) (j n : ℕ) :
    (IdmefValue.entries value).drop (IdmefValue.used value j + n) =
      (IdmefValue.entries value).drop (j + (n + 1)) := by
  rcases value with _ | v | vs
  · simp [IdmefValue.entries]
  · simp [IdmefValue.entries, IdmefValue.used, ← Nat.add_assoc]
  · simp only [IdmefValue.used]
    congr 1
    omega

theorem drop_entries_of_nth (h : IdmefValue.nth value j = none) (n : ℕ) :
    (IdmefValue.entries value).drop (j + n) = [] := by
  rcases value with _ | v | vs
  · cases h
  · cases h
  · have hlen : vs.length ≤ j := List.getElem?_eq_none_iff.mp h
    exact List.drop_eq_nil_of_le (by simp only [IdmefValue.entries]; omega)

/-- The values that a walk leaves over: those behind the ones that go into the elements. -/
theorem setMatching_used (next : Setter) (e : IdmefPathElement) (value : Option IdmefValue)
    (j : ℕ) (os : List Obj) :
    match (setMatching next e value j os).1 with
    | .ok j' => (IdmefValue.entries value).drop j' =
        (IdmefValue.entries value).drop (j + (os.filter e.standsFor).length)
    | .error (.ok ()) =>
      (IdmefValue.entries value).drop (j + (os.filter e.standsFor).length) = []
    | .error (.error _) => True := by
  induction os generalizing j with
  | nil => rfl
  | cons o os ih =>
    rw [setMatching]
    by_cases hfor : e.standsFor o
    · rw [List.filter_cons_of_pos hfor,
        if_neg (by simpa [IdmefPathElement.standsFor] using hfor)]
      rcases hnth : IdmefValue.nth value j with _ | v
      · exact drop_entries_of_nth hnth _
      · simp only
        rcases (next.inObject v o).1 with err | ⟨⟩
        · trivial
        · have hrest := ih (IdmefValue.used value j)
          rwa [drop_entries_used] at hrest
    · rw [List.filter_cons_of_neg hfor,
        if_pos (by simpa [IdmefPathElement.standsFor] using hfor)]
      exact ih j

theorem listChild_eq (hc : cls.children[e.position]? = some c)
    (hf : fs[c.field]? = some (.list l)) :
    listChild cls fs e.position = l := by
  simp [listChild, idmefClassGetChild, hc, hf, getChildCase]

theorem setListChild_eq (hc : cls.children[e.position]? = some c)
    (hf : fs[c.field]? = some (.list l)) (l' : List Obj) :
    setListChild cls fs e.position l' = fs.set c.field (.list l') := by
  simp [setListChild, hc, hf]

theorem setStep_append (hc : cls.children[e.position]? = some c)
    (hf : fs[c.field]? = some (.list l)) :
    setStep m e idmefListAppend (some next) v cls fs =
      ((next.inObject v (newObject m.now c)).1,
        fs.set c.field (.list (l ++ [(next.inObject v (newObject m.now c)).2]))) := by
  simp [setStep, idmefClassNewChild, hc, hf, newChildCase, newListed, Except.map]

theorem setLastKey_eq (hc : cls.children[e.position]? = some c)
    (hf : fs[c.field]? = some (.list (l ++ [o]))) :
    setLastKey e cls fs = (.ok (), fs.set c.field (.list (l ++ [setIndexKey e.key o]))) := by
  simp [setLastKey, listChild_eq hc hf, setListChild_eq hc hf]

theorem newObject_eq (now : IdmefTime) (h : c.cls = some cls') :
    newObject now c = .struct cls' 1 (newFields now cls') := by
  rw [newObject, h]
  rfl

end

end LibPrelude
