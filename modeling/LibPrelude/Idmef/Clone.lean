import LibPrelude.Idmef.Copy
import LibPrelude.Idmef.ValueType

/-! # Clones of values

A list of values keeps the number of slots it may fill and has one slot more. Cloning a list
returns an error at the first element that is there, whether its clone succeeded or not; a clone
that comes to an end has as many slots as elements and one more, but the limit of the original.
-/

namespace LibPrelude

/-- A value with the slots of its lists: the elements, how many there may be, and how many slots
are allocated. -/
inductive StoredValue where
  | scalar (v : ValueType)
  | list (elems : List (Option StoredValue)) (listMax allocated : ℕ)

/-- The slots by which lists grow. -/
def chunkSize : ℕ := 16

def idmefValueNewList : StoredValue := .list [] (chunkSize - 1) chunkSize

/-- The limit of a list and its slots once there is room for one element more. -/
def makeRoom (count listMax allocated : ℕ) : ℕ × ℕ :=
  if count = listMax then (listMax + chunkSize, listMax + 1 + chunkSize) else (listMax, allocated)

/-- A list with one element more, or nothing when the element is written past the slots. -/
def idmefValueListAdd (item : Option StoredValue) : StoredValue → Option StoredValue
  | .scalar v => some (.scalar v)
  | .list elems listMax allocated =>
    let room := makeRoom elems.length listMax allocated
    if elems.length < room.2 then some (.list (elems ++ [item]) room.1 room.2) else none

def idmefValueTypeClone (now : IdmefTime) : ValueType → ValueType
  | .class cls o => .class cls (idmefClone now o)
  | v => v

mutual

def idmefValueClone (now : IdmefTime) : StoredValue → Except ErrorCode StoredValue
  | .scalar v => .ok (.scalar (idmefValueTypeClone now v))
  | .list elems listMax _ =>
    (idmefValueListClone now elems).map fun elems' => .list elems' listMax (elems.length + 1)

/-- The loop over the elements of a list, which it leaves at the first that is there. -/
def idmefValueListClone (now : IdmefTime) :
    List (Option StoredValue) → Except ErrorCode (List (Option StoredValue))
  | [] => .ok []
  | none :: vs => (idmefValueListClone now vs).map (none :: ·)
  | some v :: _ =>
    match idmefValueClone now v with
    | .error _ => .error .generic
    | .ok _ => .error .generic

end

/-- Two values of the same type that are the same, or compare equal when they are objects. -/
def ValueType.Equal : ValueType → ValueType → Prop
  | .class cls o, .class cls' o' => cls = cls' ∧ idmefCompare o o' = 0
  | v, w => v = w

mutual

/-- Two values of the same shape with equal scalars. -/
def StoredValue.Same : StoredValue → StoredValue → Prop
  | .scalar v, .scalar w => v.Equal w
  | .list l _ _, .list l' _ _ => SameElements l l'
  | _, _ => False

def SameElements : List (Option StoredValue) → List (Option StoredValue) → Prop
  | [], [] => True
  | none :: vs, none :: ws => SameElements vs ws
  | some v :: vs, some w :: ws => v.Same w ∧ SameElements vs ws
  | _, _ => False

end

mutual

/-- No list has more elements than it may have, and there are slots for these and one more. -/
def StoredValue.Bounded : StoredValue → Prop
  | .scalar _ => True
  | .list l listMax allocated => l.length ≤ listMax ∧ listMax < allocated ∧ BoundedElements l

def BoundedElements : List (Option StoredValue) → Prop
  | [] => True
  | none :: vs => BoundedElements vs
  | some v :: vs => v.Bounded ∧ BoundedElements vs

end

/-- Elements are added in turn, each within the slots. -/
def AddsWithin : List (Option StoredValue) → StoredValue → Prop
  | [], _ => True
  | item :: items, val => ∃ val', idmefValueListAdd item val = some val' ∧ AddsWithin items val'

def Cloned (val : StoredValue) : Except ErrorCode StoredValue → Prop
  | .error _ => False
  | .ok dst => val.Same dst ∧ dst.Bounded ∧
      ∀ items, (∀ v, some v ∈ items → v.Bounded) → AddsWithin items dst

/-- Scalars but for objects without a required child, and lists of absent values that are full. -/
def Clonable : StoredValue → Prop
  | .scalar (.class _ o) => Whole o
  | .scalar _ => True
  | .list elems listMax _ => (∀ v ∈ elems, v = none) ∧ listMax = elems.length

variable {now : IdmefTime} {val val' : StoredValue} {item : Option StoredValue}
  {l l' items : List (Option StoredValue)}

theorem boundedElements_append_singleton : BoundedElements (l ++ [item]) ↔
    BoundedElements l ∧ ∀ v, item = some v → v.Bounded := by
  induction l with
  | nil => cases item <;> simp [BoundedElements]
  | cons v vs ih => cases v <;> simp [BoundedElements, ih, and_assoc]

theorem makeRoom_bounds {count listMax allocated : ℕ} (hle : count ≤ listMax)
    (hlt : listMax < allocated) : count + 1 ≤ (makeRoom count listMax allocated).1 ∧
      (makeRoom count listMax allocated).1 < (makeRoom count listMax allocated).2 := by
  unfold makeRoom chunkSize
  split_ifs with hfull
  · exact ⟨by omega, by omega⟩
  · exact ⟨by omega, hlt⟩

theorem Bounded.add (h : val.Bounded) (hitem : ∀ v, item = some v → v.Bounded) :
    ∃ val', idmefValueListAdd item val = some val' ∧ val'.Bounded := by
  cases val with
  | scalar v => exact ⟨_, rfl, trivial⟩
  | list l listMax allocated =>
    obtain ⟨hle, hlt, hl⟩ := h
    have hroom := makeRoom_bounds hle hlt
    refine ⟨_, if_pos (by omega), ?_, hroom.2, boundedElements_append_singleton.mpr ⟨hl, hitem⟩⟩
    rw [List.length_append, List.length_singleton]
    exact hroom.1

theorem Bounded.addsWithin (h : val.Bounded) (hitems : ∀ v, some v ∈ items → v.Bounded) :
    AddsWithin items val := by
  induction items generalizing val with
  | nil => trivial
  | cons item items ih =>
    obtain ⟨val', hadd, hb⟩ := Bounded.add h fun v hv => hitems v (hv ▸ List.mem_cons_self)
    exact ⟨val', hadd, ih hb fun v hv => hitems v (List.mem_cons_of_mem _ hv)⟩

/-- Only lists of absent values are cloned to the end. -/
theorem listClone_eq_ok :
    idmefValueListClone now l = .ok l' ↔ (∀ v ∈ l, v = none) ∧ l' = l := by
  induction l generalizing l' with
  | nil => simp [idmefValueListClone, eq_comm]
  | cons v vs ih =>
    cases v with
    | none =>
      rw [idmefValueListClone, List.forall_mem_cons]
      cases h : idmefValueListClone now vs with
      | error e =>
        have hne : ¬ ∀ v ∈ vs, v = none := fun hv => by cases h.symm.trans (ih.mpr ⟨hv, rfl⟩)
        simp [Except.map, hne]
      | ok ws =>
        obtain ⟨hv, rfl⟩ := ih.mp h
        rw [Except.map, Except.ok.injEq, eq_comm]
        exact ⟨fun h => ⟨⟨rfl, hv⟩, h⟩, And.right⟩
    | some v =>
      rw [idmefValueListClone]
      cases idmefValueClone now v <;> simp

theorem sameElements_absent (h : ∀ v ∈ l, v = none) : SameElements l l ∧ BoundedElements l := by
  induction l with
  | nil => exact ⟨trivial, trivial⟩
  | cons v vs ih =>
    obtain ⟨rfl, hvs⟩ := List.forall_mem_cons.mp h
    exact ih hvs

theorem cloned_scalar_iff {v : ValueType}
    (h : ∀ cls o, v = .class cls o → HasType (.struct cls) o) :
    v.Equal (idmefValueTypeClone now v) ↔ Clonable (.scalar v) := by
  cases v with
  | «class» cls o =>
    rw [idmefValueTypeClone, ValueType.Equal, Clonable, ← idmefCompare_clone o _ (h cls o rfl)]
    exact and_iff_right rfl
  | _ => exact iff_of_true rfl trivial

/-- A value is cloned as it should be when it is a scalar, or a full list of absent values. -/
theorem clone_iff (now : IdmefTime) (val : StoredValue)
    (h : ∀ cls o, val = .scalar (.class cls o) → HasType (.struct cls) o) :
    Cloned val (idmefValueClone now val) ↔ Clonable val := by
  cases val with
  | scalar v =>
    rw [idmefValueClone, Cloned, StoredValue.Same,
      cloned_scalar_iff fun cls o hv => h cls o (by rw [hv])]
    exact and_iff_left ⟨trivial, fun items hitems => Bounded.addsWithin trivial hitems⟩
  | list l listMax allocated =>
    rw [idmefValueClone, Clonable]
    constructor
    · intro hc
      cases hl : idmefValueListClone now l with
      | error e =>
        rw [hl] at hc
        exact hc.elim
      | ok l' =>
        rw [hl] at hc
        obtain ⟨hnone, rfl⟩ := listClone_eq_ok.mp hl
        obtain ⟨-, ⟨hle, hlt, -⟩, -⟩ := hc
        exact ⟨hnone, by omega⟩
    · rintro ⟨hnone, rfl⟩
      obtain ⟨hsame, hb⟩ := sameElements_absent hnone
      rw [listClone_eq_ok.mpr ⟨hnone, rfl⟩]
      have hbounded : (StoredValue.list l l.length (l.length + 1)).Bounded :=
        ⟨le_rfl, Nat.lt_succ_self _, hb⟩
      exact ⟨hsame, hbounded, fun items hitems => Bounded.addsWithin hbounded hitems⟩

/-- A reference with a name, and a full list of two absent values, are cloned as they should. -/
theorem clone_reference_and_absent :
    Cloned (.scalar (.class .reference (namedReference (some [97]))))
      (idmefValueClone ⟨0, 0, 0⟩ (.scalar (.class .reference (namedReference (some [97]))))) ∧
    Cloned (.list [none, none] 2 16) (idmefValueClone ⟨0, 0, 0⟩ (.list [none, none] 2 16)) := by
  constructor
  · refine (clone_iff ⟨0, 0, 0⟩ _ fun cls o hv => ?_).mpr ?_
    · cases hv
      exact namedReference_type _
    · simp [Clonable, namedReference, Whole, WholeFields, IdmefClassId.fields, WholeField,
        FieldDesc.str, FieldDesc.requiredStr, FieldDesc.enum, FieldType.required]
  · refine (clone_iff ⟨0, 0, 0⟩ _ fun cls o hv => ?_).mpr ⟨by simp, rfl⟩
    cases hv

/-- A list of one integer is not cloned. -/
theorem clone_one_element : ¬ Cloned (.list [some (.scalar (.integer .int32 1))] 15 16)
    (idmefValueClone ⟨0, 0, 0⟩ (.list [some (.scalar (.integer .int32 1))] 15 16)) :=
  id

end LibPrelude
