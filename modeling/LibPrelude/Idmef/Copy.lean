import LibPrelude.Idmef.Object

/-! # Copies and clones compare equal

A copy equals its source unless the destination keeps something of its own: a
required field that the source lacks, a required string where the source holds an
empty one, or a listed object that is referenced from elsewhere. A clone starts
from a new object, which leaves the first reason only.
-/

namespace LibPrelude

variable {now : IdmefTime}

def FieldType.isUnion : FieldType → Bool
  | .union _ => true
  | _ => false

namespace FieldHasType

variable {type : FieldType}

/-- The fields of one type are all scalars, all pointers, all lists or all unions. -/
theorem of_scalar {isSet : Bool} {val : ℤ} (h : FieldHasType type (.scalar isSet val)) {f : Field}
    (hf : FieldHasType type f) : ∃ isSet' val', f = .scalar isSet' val' := by
  cases type <;> cases f <;> simp_all [FieldHasType]

theorem of_ptr {o : Option Obj} (h : FieldHasType type (.ptr o)) :
    ∃ t, OptHasType t o ∧ ∀ f, FieldHasType type f → ∃ o', f = .ptr o' ∧ OptHasType t o' := by
  cases type <;> first | exact h.elim | refine ⟨_, h, fun f hf => ?_⟩
  all_goals
    cases f <;> first | exact hf.elim | exact ⟨_, rfl, hf⟩

theorem of_list {l : List Obj} (h : FieldHasType type (.list l)) :
    ∃ t, ListHasType t l ∧ ∀ f, FieldHasType type f → ∃ l', f = .list l' ∧ ListHasType t l' := by
  cases type <;> first | exact h.elim | refine ⟨_, h, fun f hf => ?_⟩
  all_goals
    cases f <;> first | exact hf.elim | exact ⟨_, rfl, hf⟩

theorem of_union {var : ℕ} {o : Option Obj} (h : FieldHasType type (.union var o)) {f : Field}
    (hf : FieldHasType type f) : ∃ var' o', f = .union var' o' := by
  cases type <;> cases f <;> cases o <;> simp_all [FieldHasType]

theorem of_member {var : ℕ} {o : Obj} (h : FieldHasType type (.union var (some o))) :
    ∃ cls, type.isUnion ∧ var ≠ 0 ∧ HasType (.struct cls) o := by
  cases type with
  | union members =>
    rw [FieldHasType] at h
    split at h
    · exact h.elim
    · exact ⟨_, rfl, h⟩
  | _ => exact h.elim

end FieldHasType

/-- Copied onto the second object, the first one leaves nothing of it. -/
def Prim.Covers : Prim → Prim → Prop
  | .string src, .string dst => preludeStringIsEmpty src → preludeStringIsEmpty dst
  | _, _ => True

theorem Prim.compare_copy {src dst : Prim} (h : src.type = dst.type) :
    src.compare (src.copy dst) = 0 ↔ src.Covers dst := by
  cases src <;> cases dst <;> simp [Prim.type] at h
  · simpa [Prim.copy, Prim.compare, Prim.Covers] using preludeStringCompare_copy _ _
  · simp [Prim.copy, Prim.compare, Prim.Covers]
  · simp [Prim.copy, Prim.compare, Prim.Covers]

theorem Prim.compare_self (v : Prim) : v.compare v = 0 := by
  cases v <;> simp [Prim.compare]

mutual

/-- No required field is missing, at any depth. -/
def Whole : Obj → Prop
  | .prim _ _ => True
  | .struct cls _ fs => WholeFields cls.fields fs

def WholeFields : List FieldDesc → List Field → Prop
  | d :: ds, f :: fs => WholeField d.type f ∧ WholeFields ds fs
  | _, _ => True

def WholeField (type : FieldType) : Field → Prop
  | .scalar _ _ => True
  | .ptr none => type.required = false
  | .ptr (some o) => Whole o
  | .list l => WholeList l
  | .union _ none => True
  | .union _ (some o) => Whole o

def WholeList : List Obj → Prop
  | [] => True
  | o :: os => Whole o ∧ WholeList os

end

mutual

/-- Copied onto the second object, the first one leaves nothing of it. -/
def Covers : Obj → Obj → Prop
  | .prim _ src, .prim _ dst => src.Covers dst
  | .struct cls _ src, .struct _ _ dst => FieldsCover cls.fields src dst
  | _, _ => True

def FieldsCover : List FieldDesc → List Field → List Field → Prop
  | d :: ds, src :: srcs, dst :: dsts => FieldCovers d.type src dst ∧ FieldsCover ds srcs dsts
  | _, _, _ => True

def FieldCovers (type : FieldType) : Field → Field → Prop
  | .ptr none, .ptr dst => type.required → dst = none
  | .ptr (some src), .ptr dst =>
    if type.required then ∀ o ∈ dst, Covers src o else Whole src
  | .list src, .list dst => (∀ o ∈ dst, o.refcount ≤ 1) ∧ WholeList src
  | .union _ (some src), .union _ _ => Whole src
  | _, _ => True

end

def Prim.Fresh : Prim → Prop
  | .string s => preludeStringIsEmpty s
  | _ => True

mutual

def Fresh : Obj → Prop
  | .prim _ v => v.Fresh
  | .struct cls _ fs => FreshFields cls.fields fs

def FreshFields : List FieldDesc → List Field → Prop
  | d :: ds, f :: fs => FreshField d.type f ∧ FreshFields ds fs
  | _, _ => True

def FreshField (type : FieldType) : Field → Prop
  | .ptr none => type.required = false
  | .ptr (some o) => Fresh o
  | .list l => l = []
  | _ => True

end

theorem newPrim_type (now : IdmefTime) (cls : IdmefClassId) (name : String) (t : PrimType) :
    (newPrim now cls name t).type = t := by
  unfold newPrim
  split_ifs with h
  · exact h.1.symm
  · cases t <;> rfl

theorem newPrim_fresh (now : IdmefTime) (cls : IdmefClassId) (name : String) (t : PrimType) :
    (newPrim now cls name t).Fresh := by
  unfold newPrim
  split_ifs with h
  · trivial
  · cases t <;> simp [PrimType.new, Prim.Fresh, preludeStringNew, preludeStringIsEmpty,
      PreludeString.index]

theorem newFields_type (now : IdmefTime) (cls : IdmefClassId) :
    FieldsHaveType cls.fields (newFields now cls) := by
  cases cls <;> simp [newFields, IdmefClassId.fields, newField, newNested, FieldsHaveType,
    FieldHasType, OptHasType, ListHasType, HasType, newPrim_type, FieldDesc.str,
    FieldDesc.requiredStr, FieldDesc.time, FieldDesc.requiredTime, FieldDesc.optionalInt,
    FieldDesc.enum, FieldDesc.struct, FieldDesc.requiredStruct, FieldDesc.listed,
    FieldDesc.listedStr]

theorem newFields_fresh (now : IdmefTime) (cls : IdmefClassId) :
    FreshFields cls.fields (newFields now cls) := by
  cases cls <;> simp [newFields, IdmefClassId.fields, newField, newNested, FreshFields,
    FreshField, Fresh, newPrim_fresh, FieldType.required, FieldDesc.str,
    FieldDesc.requiredStr, FieldDesc.time, FieldDesc.requiredTime, FieldDesc.optionalInt,
    FieldDesc.enum, FieldDesc.struct, FieldDesc.requiredStruct, FieldDesc.listed,
    FieldDesc.listedStr]

mutual

/-- Copying onto an object without content succeeds, and leaves nothing of it but for what is
missing in the source. -/
theorem idmefCopy_fresh : ∀ (src dst : Obj) (t : ObjType), HasType t src → HasType t dst →
    Fresh dst → (idmefCopy now src dst).1 = .ok () ∧ (Covers src dst ↔ Whole src)
  | .prim _ src, .prim _ dst, .prim t, hs, hd, hf => by
    refine ⟨rfl, ?_⟩
    cases src <;> cases dst <;> simp_all [Covers, Whole, Prim.Covers, Fresh, Prim.Fresh]
  | .struct _ _ src, .struct _ _ dst, .struct cls, hs, hd, hf => by
    obtain ⟨-, rfl, hs⟩ := hs
    obtain ⟨-, rfl, hd⟩ := hd
    exact copyFields_fresh src _ dst hs hd hf
  | .prim _ _, .struct _ _ _, .prim _, _, hd, _ => hd.elim
  | .struct _ _ _, .prim _ _, .struct _, _, hd, _ => hd.elim
  | .struct _ _ _, _, .prim _, hs, _, _ => hs.elim
  | .prim _ _, _, .struct _, hs, _, _ => hs.elim

theorem copyFields_fresh : ∀ (srcs : List Field) (ds : List FieldDesc) (dsts : List Field),
    FieldsHaveType ds srcs → FieldsHaveType ds dsts → FreshFields ds dsts →
    (copyFields now ds srcs dsts).1 = .ok () ∧ (FieldsCover ds srcs dsts ↔ WholeFields ds srcs)
  | [], ds, dsts, _, _, _ => by
    cases ds <;> simp [copyFields, FieldsCover, WholeFields]
  | src :: srcs, d :: ds, dst :: dsts, hs, hd, hf => by
    obtain ⟨hok, hiff⟩ := copyField_fresh src d.type dst hs.1 hd.1 hf.1
    obtain ⟨hoks, hiffs⟩ := copyFields_fresh srcs ds dsts hs.2 hd.2 hf.2
    rw [FieldsCover, WholeFields, hiff, hiffs]
    refine ⟨?_, Iff.rfl⟩
    rw [copyFields]
    rcases hc : copyField now d.type src dst with ⟨_ | _, dst'⟩
    · rw [hc] at hok
      cases hok
    · exact hoks
  | _ :: _, [], _, hs, _, _ => hs.elim
  | _ :: _, _ :: _, [], _, hd, _ => hd.elim

theorem copyField_fresh : ∀ (src : Field) (type : FieldType) (dst : Field),
    FieldHasType type src → FieldHasType type dst → FreshField type dst →
    (copyField now type src dst).1 = .ok () ∧ (FieldCovers type src dst ↔ WholeField type src)
  | .scalar _ _, type, dst, hs, hd, hf => by
    obtain ⟨_, _, rfl⟩ := hs.of_scalar hd
    simp [copyField, FieldCovers, WholeField]
  | .ptr none, type, dst, hs, hd, hf => by
    obtain ⟨t, -, hall⟩ := hs.of_ptr
    obtain ⟨dst, rfl, -⟩ := hall _ hd
    cases dst with
    | none => simp_all [copyField, FieldCovers, WholeField, FreshField]
    | some dst => simp [copyField, FieldCovers, WholeField]
  | .ptr (some src), type, dst, hs, hd, hf => by
    obtain ⟨t, ht, hall⟩ := hs.of_ptr
    obtain ⟨dst, rfl, hdt⟩ := hall _ hd
    by_cases hr : type.required
    · cases dst with
      | none =>
        rw [FreshField, hr] at hf
        cases hf
      | some dst =>
        have h := idmefCopy_fresh src dst t ht hdt hf
        simpa [copyField, FieldCovers, WholeField, hr] using h
    · simp [copyField, FieldCovers, WholeField, hr]
  | .list _, type, dst, hs, hd, hf => by
    obtain ⟨t, -, hall⟩ := hs.of_list
    obtain ⟨dst, rfl, -⟩ := hall _ hd
    have hl : dst = [] := hf
    simp [copyField, FieldCovers, WholeField, hl]
  | .union _ none, type, dst, hs, hd, hf => by
    obtain ⟨_, _, rfl⟩ := hs.of_union hd
    simp [copyField, FieldCovers, WholeField]
  | .union _ (some src), type, dst, hs, hd, hf => by
    obtain ⟨_, _, rfl⟩ := hs.of_union hd
    simp [copyField, FieldCovers, WholeField]

end

/-- The result of comparing a union is not looked at before the next field is compared. -/
def UnionLast : List FieldDesc → Prop
  | [] => True
  | d :: ds => (d.type.isUnion → ds = []) ∧ UnionLast ds

theorem fields_unionLast (cls : IdmefClassId) : UnionLast cls.fields := by
  cases cls <;> simp [UnionLast, IdmefClassId.fields, FieldType.isUnion, FieldDesc.str,
    FieldDesc.requiredStr, FieldDesc.time, FieldDesc.requiredTime, FieldDesc.optionalInt,
    FieldDesc.enum, FieldDesc.struct, FieldDesc.requiredStruct, FieldDesc.listed,
    FieldDesc.listedStr]

/-- The outcome of comparing a field which is equal when `P` holds. -/
def Verdict (type : FieldType) (P : Prop) : Except ℤ ℤ → Prop
  | .ok ret => (ret = 0 ↔ P) ∧ (ret ≠ 0 → type.isUnion)
  | .error ret => ret ≠ 0 ∧ ¬ P

theorem Verdict.of_ret {type : FieldType} {P : Prop} {ret : ℤ} (h : ret = 0 ↔ P) :
    Verdict type P (if ret ≠ 0 then .error ret else .ok ret) := by
  split_ifs with hr
  · exact ⟨hr, fun hp => hr (h.mpr hp)⟩
  · exact ⟨h, fun hn => absurd hn hr⟩

theorem floatCompare_self (a : Int32) : floatCompare a a = 0 := by
  simp [floatCompare]

mutual

theorem idmefCompare_self : ∀ o : Obj, idmefCompare o o = 0
  | .prim _ v => by
    rw [idmefCompare]
    exact Prim.compare_self v
  | .struct cls _ fs => by
    rw [idmefCompare]
    exact compareFields_self cls.fields fs

theorem compareFields_self : ∀ (ds : List FieldDesc) (fs : List Field),
    compareFields ds fs fs 0 = 0
  | d :: ds, f :: fs => by
    rw [compareFields, compareField_self d.type f]
    exact compareFields_self ds fs
  | [], _ => by simp [compareFields]
  | _ :: _, [] => by simp [compareFields]

theorem compareField_self (type : FieldType) : ∀ f : Field, compareField type f f 0 = .ok 0
  | .scalar isSet val => by
    rw [compareField]
    cases type <;> simp [compareScalar, floatCompare_self]
  | .ptr none => by simp [compareField, compareOpt]
  | .ptr (some o) => by simp [compareField, compareOpt, idmefCompare_self o]
  | .list l => by simp [compareField, compareList_self l]
  | .union var none => by simp [compareField, compareOpt]
  | .union var (some o) => by simp [compareField, compareOpt, idmefCompare_self o]

theorem compareList_self : ∀ l : List Obj, compareList l l = 0
  | [] => by rw [compareList]
  | o :: os => by simp [compareList, idmefCompare_self o, compareList_self os]

end

theorem compareScalar_copy (type : FieldType) (isSet isSet' : Bool) (val : ℤ) :
    compareScalar type isSet (if type.optional then isSet else isSet') val val 0 = .ok 0 := by
  cases type <;> simp [compareScalar, FieldType.optional, floatCompare_self]

theorem compareList_length {as bs : List Obj} (h : compareList as bs = 0) :
    as.length = bs.length := by
  induction as generalizing bs with
  | nil => cases bs <;> simp_all [compareList]
  | cons a as ih =>
    cases bs with
    | nil => simp [compareList] at h
    | cons b bs =>
      rw [compareList] at h
      split_ifs at h with hr
      · exact absurd h hr
      · simp [ih h]

theorem length_cloneList (os : List Obj) : (cloneList now os).length = os.length := by
  induction os with
  | nil => rfl
  | cons o os ih => simp [cloneList, ih]

/-- What the destination kept of its list makes it longer than the source. -/
theorem compareList_append {src kept : List Obj} :
    compareList src (kept ++ cloneList now src) = 0 ↔
      kept = [] ∧ compareList src (cloneList now src) = 0 := by
  constructor
  · intro h
    have hl := compareList_length h
    rw [List.length_append, length_cloneList] at hl
    have hk : kept = [] := List.eq_nil_of_length_eq_zero (by omega)
    rw [hk, List.nil_append] at h
    exact ⟨hk, h⟩
  · rintro ⟨rfl, h⟩
    exact h

theorem filterMap_destroyListed {l : List Obj} :
    l.filterMap destroyListed = [] ↔ ∀ o ∈ l, o.refcount ≤ 1 := by
  simp [destroyListed, List.filterMap_eq_nil_iff]

mutual

theorem idmefCompare_copy : ∀ (src dst dst' : Obj) (t : ObjType), HasType t src → HasType t dst →
    idmefCopy now src dst = (.ok (), dst') → (idmefCompare src dst' = 0 ↔ Covers src dst)
  | .prim _ src, .prim _ dst, _, .prim t, hs, hd, h => by
    obtain ⟨-, rfl⟩ := Prod.mk.inj h
    rw [idmefCompare, Covers]
    exact Prim.compare_copy (hs.2.trans hd.2.symm)
  | .struct _ _ src, .struct _ _ dst, _, .struct cls, hs, hd, h => by
    obtain ⟨-, rfl, hs⟩ := hs
    obtain ⟨-, rfl, hd⟩ := hd
    obtain ⟨hok, rfl⟩ := Prod.mk.inj h
    rw [idmefCompare, Covers]
    exact compareFields_copy src _ dst _ (fields_unionLast _) hs hd (Prod.ext hok rfl)
  | .prim _ _, .struct _ _ _, _, .prim _, _, hd, _ => hd.elim
  | .struct _ _ _, .prim _ _, _, .struct _, _, hd, _ => hd.elim
  | .struct _ _ _, _, _, .prim _, hs, _, _ => hs.elim
  | .prim _ _, _, _, .struct _, hs, _, _ => hs.elim

theorem compareFields_copy : ∀ (srcs : List Field) (ds : List FieldDesc) (dsts dsts' : List Field),
    UnionLast ds → FieldsHaveType ds srcs → FieldsHaveType ds dsts →
    copyFields now ds srcs dsts = (.ok (), dsts') →
    (compareFields ds srcs dsts' 0 = 0 ↔ FieldsCover ds srcs dsts)
  | [], ds, dsts, _, _, _, _, _ => by
    cases ds <;> simp [compareFields, FieldsCover]
  | src :: srcs, d :: ds, dst :: dsts, dsts', hu, hs, hd, h => by
    rw [copyFields] at h
    rcases hc : copyField now d.type src dst with ⟨_ | _, dst'⟩
    · rw [hc] at h
      cases h
    · rw [hc] at h
      obtain ⟨hok, rfl⟩ := Prod.mk.inj h
      have hv := compareField_copy src d.type dst dst' hs.1 hd.1 hc
      have hrest := compareFields_copy srcs ds dsts _ hu.2 hs.2 hd.2 (Prod.ext hok rfl)
      rw [compareFields, FieldsCover]
      rcases hf : compareField d.type src dst' 0 with ret | ret
      · rw [hf] at hv
        exact iff_of_false hv.1 fun hp => hv.2 hp.1
      · rw [hf] at hv
        by_cases hr : ret = 0
        · subst hr
          rw [hrest, and_iff_right (hv.1.mp rfl)]
        · obtain rfl := hu.1 (hv.2 hr)
          simp [compareFields, hr, mt hv.1.mpr hr]
  | _ :: _, [], _, _, _, hs, _, _ => hs.elim
  | _ :: _, _ :: _, [], _, _, _, hd, _ => hd.elim

theorem compareField_copy : ∀ (src : Field) (type : FieldType) (dst dst' : Field),
    FieldHasType type src → FieldHasType type dst → copyField now type src dst = (.ok (), dst') →
    Verdict type (FieldCovers type src dst) (compareField type src dst' 0)
  | .scalar _ _, type, dst, dst', hs, hd, h => by
    obtain ⟨_, _, rfl⟩ := hs.of_scalar hd
    obtain ⟨-, rfl⟩ := Prod.mk.inj h
    simp [compareField, compareScalar_copy, Verdict, FieldCovers]
  | .ptr none, type, dst, dst', hs, hd, h => by
    obtain ⟨t, -, hall⟩ := hs.of_ptr
    obtain ⟨dst, rfl, -⟩ := hall _ hd
    obtain ⟨-, rfl⟩ := Prod.mk.inj h
    rw [compareField]
    refine Verdict.of_ret ?_
    cases dst <;> by_cases hr : type.required <;> simp [FieldCovers, compareOpt, hr]
  | .ptr (some src), type, dst, dst', hs, hd, h => by
    obtain ⟨t, ht, hall⟩ := hs.of_ptr
    obtain ⟨dst, rfl, hdt⟩ := hall _ hd
    simp only [copyField] at h
    by_cases hr : type.required
    · rw [if_pos hr] at h
      cases dst with
      | none => cases h
      | some dst =>
        obtain ⟨hok, rfl⟩ := Prod.mk.inj h
        rw [compareField]
        refine Verdict.of_ret ?_
        have hrec := idmefCompare_copy src dst _ t ht hdt (Prod.ext hok rfl)
        simpa [FieldCovers, compareOpt, hr] using hrec
    · rw [if_neg hr] at h
      obtain ⟨-, rfl⟩ := Prod.mk.inj h
      rw [compareField]
      refine Verdict.of_ret ?_
      simpa [FieldCovers, compareOpt, hr] using idmefCompare_clone src t ht
  | .list src, type, dst, dst', hs, hd, h => by
    obtain ⟨t, ht, hall⟩ := hs.of_list
    obtain ⟨dst, rfl, -⟩ := hall _ hd
    obtain ⟨-, rfl⟩ := Prod.mk.inj h
    rw [compareField]
    refine Verdict.of_ret ?_
    rw [compareList_append, filterMap_destroyListed, compareList_clone src t ht, FieldCovers]
  | .union var none, type, dst, dst', hs, hd, h => by
    obtain ⟨_, _, rfl⟩ := hs.of_union hd
    obtain ⟨-, rfl⟩ := Prod.mk.inj h
    by_cases hv : var = 0 <;> simp [compareField, compareOpt, Verdict, FieldCovers, hv]
  | .union var (some src), type, dst, dst', hs, hd, h => by
    obtain ⟨_, _, rfl⟩ := hs.of_union hd
    obtain ⟨-, rfl⟩ := Prod.mk.inj h
    obtain ⟨cls, hu, hv, ht⟩ := hs.of_member
    have hrec := idmefCompare_clone src _ ht
    simp [compareField, compareOpt, Verdict, FieldCovers, hv, hrec, hu]

theorem idmefCompare_clone : ∀ (o : Obj) (t : ObjType), HasType t o →
    (idmefCompare o (idmefClone now o) = 0 ↔ Whole o)
  | .prim _ v, .prim t, _ => by
    simp [idmefClone, idmefCompare, Prim.compare_self, Whole]
  | .struct cls _ fs, .struct _, h => by
    obtain ⟨-, rfl, h⟩ := h
    have hnew := newFields_type now cls
    obtain ⟨hok, hiff⟩ := @copyFields_fresh now fs _ _ h hnew (newFields_fresh now cls)
    rw [idmefClone, idmefCompare, Whole, ← hiff]
    exact compareFields_copy fs _ _ _ (fields_unionLast _) h hnew (Prod.ext hok rfl)
  | .struct _ _ _, .prim _, h => h.elim
  | .prim _ _, .struct _, h => h.elim

theorem compareList_clone : ∀ (os : List Obj) (t : ObjType), ListHasType t os →
    (compareList os (cloneList now os) = 0 ↔ WholeList os)
  | [], _, _ => by simp [cloneList, compareList, WholeList]
  | o :: os, t, h => by
    have hhead := idmefCompare_clone o t h.1
    have htail := compareList_clone os t h.2
    rw [cloneList, compareList, WholeList, ← hhead, ← htail]
    split_ifs with hr
    · simp [hr]
    · simp [not_not.mp hr]

end

/-- A string, whatever the buffer of an empty one. -/
def Prim.content : Prim → Prim
  | .string s => .string (if preludeStringIsEmpty s then preludeStringNew else s)
  | v => v

mutual

/-- An object without its reference counts and the flags that do not belong to values. -/
def content : Obj → Obj
  | .prim _ v => .prim 1 v.content
  | .struct cls _ fs => .struct cls 1 (contentFields cls.fields fs)

def contentFields : List FieldDesc → List Field → List Field
  | d :: ds, f :: fs => contentField d.type f :: contentFields ds fs
  | _, fs => fs

def contentField (type : FieldType) : Field → Field
  | .scalar isSet val => .scalar (type.optional && isSet) val
  | .ptr none => .ptr none
  | .ptr (some o) => .ptr (some (content o))
  | .list l => .list (contentList l)
  | .union var none => .union var none
  | .union var (some o) => .union var (some (content o))

def contentList : List Obj → List Obj
  | [] => []
  | o :: os => content o :: contentList os

end

theorem Prim.content_copy {src dst : Prim} (h : src.type = dst.type) (hc : src.Covers dst) :
    (src.copy dst).content = src.content := by
  cases src <;> cases dst <;> simp [Prim.type] at h
  · rename_i src dst
    simp only [Prim.copy, Prim.content, preludeStringCopy, preludeStringCopyDup]
    by_cases he : preludeStringIsEmpty src
    · have hd : preludeStringIsEmpty dst := hc he
      simp [he, hd]
    · simp [he]
  · rfl
  · rfl

mutual

theorem content_copy : ∀ (src dst dst' : Obj) (t : ObjType), HasType t src → HasType t dst →
    idmefCopy now src dst = (.ok (), dst') → Covers src dst → content dst' = content src
  | .prim _ src, .prim _ dst, _, .prim t, hs, hd, h, hc => by
    obtain ⟨-, rfl⟩ := Prod.mk.inj h
    rw [content, content, Prim.content_copy (hs.2.trans hd.2.symm) hc]
  | .struct _ _ src, .struct _ _ dst, _, .struct cls, hs, hd, h, hc => by
    obtain ⟨-, rfl, hs⟩ := hs
    obtain ⟨-, rfl, hd⟩ := hd
    obtain ⟨hok, rfl⟩ := Prod.mk.inj h
    rw [content, content, contentFields_copy src _ dst _ hs hd (Prod.ext hok rfl) hc]
  | .prim _ _, .struct _ _ _, _, .prim _, _, hd, _, _ => hd.elim
  | .struct _ _ _, .prim _ _, _, .struct _, _, hd, _, _ => hd.elim
  | .struct _ _ _, _, _, .prim _, hs, _, _, _ => hs.elim
  | .prim _ _, _, _, .struct _, hs, _, _, _ => hs.elim

theorem contentFields_copy : ∀ (srcs : List Field) (ds : List FieldDesc) (dsts dsts' : List Field),
    FieldsHaveType ds srcs → FieldsHaveType ds dsts →
    copyFields now ds srcs dsts = (.ok (), dsts') → FieldsCover ds srcs dsts →
    contentFields ds dsts' = contentFields ds srcs
  | [], [], [], dsts', _, _, h, _ => by
    obtain ⟨-, rfl⟩ := Prod.mk.inj h
    rfl
  | src :: srcs, d :: ds, dst :: dsts, dsts', hs, hd, h, hc => by
    rw [copyFields] at h
    rcases hf : copyField now d.type src dst with ⟨_ | _, dst'⟩
    · rw [hf] at h
      cases h
    · rw [hf] at h
      obtain ⟨hok, rfl⟩ := Prod.mk.inj h
      rw [contentFields, contentFields,
        contentField_copy src d.type dst dst' hs.1 hd.1 hf hc.1,
        contentFields_copy srcs ds dsts _ hs.2 hd.2 (Prod.ext hok rfl) hc.2]
  | [], _ :: _, _, _, hs, _, _, _ => hs.elim
  | [], [], _ :: _, _, _, hd, _, _ => hd.elim
  | _ :: _, [], _, _, hs, _, _, _ => hs.elim
  | _ :: _, _ :: _, [], _, _, hd, _, _ => hd.elim

theorem contentField_copy : ∀ (src : Field) (type : FieldType) (dst dst' : Field),
    FieldHasType type src → FieldHasType type dst → copyField now type src dst = (.ok (), dst') →
    FieldCovers type src dst → contentField type dst' = contentField type src
  | .scalar _ _, type, dst, dst', hs, hd, h, _ => by
    obtain ⟨_, _, rfl⟩ := hs.of_scalar hd
    obtain ⟨-, rfl⟩ := Prod.mk.inj h
    by_cases ho : type.optional <;> simp [contentField, ho]
  | .ptr none, type, dst, dst', hs, hd, h, hc => by
    obtain ⟨t, -, hall⟩ := hs.of_ptr
    obtain ⟨dst, rfl, -⟩ := hall _ hd
    obtain ⟨-, rfl⟩ := Prod.mk.inj h
    by_cases hr : type.required
    · rw [hc hr, ite_self]
    · rw [if_neg hr]
  | .ptr (some src), type, dst, dst', hs, hd, h, hc => by
    obtain ⟨t, ht, hall⟩ := hs.of_ptr
    obtain ⟨dst, rfl, hdt⟩ := hall _ hd
    simp only [copyField] at h
    rw [FieldCovers] at hc
    by_cases hr : type.required
    · rw [if_pos hr] at h hc
      cases dst with
      | none => cases h
      | some dst =>
        obtain ⟨hok, rfl⟩ := Prod.mk.inj h
        rw [contentField, contentField,
          content_copy src dst _ t ht hdt (Prod.ext hok rfl) (hc dst rfl)]
    · rw [if_neg hr] at h hc
      obtain ⟨-, rfl⟩ := Prod.mk.inj h
      rw [contentField, contentField, content_clone src t ht hc]
  | .list src, type, dst, dst', hs, hd, h, hc => by
    obtain ⟨t, ht, hall⟩ := hs.of_list
    obtain ⟨dst, rfl, -⟩ := hall _ hd
    obtain ⟨-, rfl⟩ := Prod.mk.inj h
    rw [contentField, contentField, filterMap_destroyListed.mpr hc.1, List.nil_append,
      contentList_clone src t ht hc.2]
  | .union var none, type, dst, dst', hs, hd, h, _ => by
    obtain ⟨_, _, rfl⟩ := hs.of_union hd
    obtain ⟨-, rfl⟩ := Prod.mk.inj h
    rfl
  | .union var (some src), type, dst, dst', hs, hd, h, hc => by
    obtain ⟨_, _, rfl⟩ := hs.of_union hd
    obtain ⟨-, rfl⟩ := Prod.mk.inj h
    obtain ⟨cls, -, -, ht⟩ := hs.of_member
    rw [contentField, contentField, content_clone src _ ht hc]

theorem content_clone : ∀ (o : Obj) (t : ObjType), HasType t o → Whole o →
    content (idmefClone now o) = content o
  | .prim _ v, _, _, _ => rfl
  | .struct cls _ fs, .struct _, h, hw => by
    obtain ⟨-, rfl, h⟩ := h
    have hnew := newFields_type now cls
    obtain ⟨hok, hiff⟩ := @copyFields_fresh now fs _ _ h hnew (newFields_fresh now cls)
    rw [idmefClone, content, content,
      contentFields_copy fs _ _ _ h hnew (Prod.ext hok rfl) (hiff.mpr hw)]
  | .struct _ _ _, .prim _, h, _ => h.elim

theorem contentList_clone : ∀ (os : List Obj) (t : ObjType), ListHasType t os → WholeList os →
    contentList (cloneList now os) = contentList os
  | [], _, _, _ => rfl
  | o :: os, t, h, hw => by
    rw [cloneList, contentList, contentList, content_clone o t h.1 hw.1,
      contentList_clone os t h.2 hw.2]

end

/-- What a clone and a successful copy have of their source. -/
theorem clone_and_copy_compare (now : IdmefTime) (cls : IdmefClassId) (x y : Obj)
    (hx : HasType (.struct cls) x) (hy : HasType (.struct cls) y) :
    (idmefCompare x (idmefClone now x) = 0 ↔ Whole x) ∧
    (Whole x → content (idmefClone now x) = content x) ∧
    ∀ y', idmefCopy now x y = (.ok (), y') →
      (idmefCompare x y' = 0 ↔ Covers x y) ∧ (Covers x y → content y' = content x) :=
  ⟨idmefCompare_clone x _ hx, content_clone x _ hx, fun _ h =>
    ⟨idmefCompare_copy x y _ _ hx hy h, content_copy x y _ _ hx hy h⟩⟩

def namedReference (name : Option (List UInt8)) : Obj :=
  .struct .reference 1
    [.scalar false 0, .ptr (some (.prim 1 (.string ⟨name⟩))),
      .ptr (some (.prim 1 (.string ⟨none⟩))), .ptr none]

theorem namedReference_type (name : Option (List UInt8)) :
    HasType (.struct .reference) (namedReference name) := by
  simp [namedReference, HasType, FieldsHaveType, IdmefClassId.fields, FieldHasType, OptHasType,
    FieldDesc.str, FieldDesc.requiredStr, FieldDesc.enum, Prim.type]

def namedClassification (names : List (List UInt8)) : Obj :=
  .struct .classification 1 [.ptr none, .ptr (some (.prim 1 (.string ⟨some [97]⟩))),
    .list (names.map fun name => namedReference (some name))]

theorem namedClassification_type (names : List (List UInt8)) :
    HasType (.struct .classification) (namedClassification names) := by
  have hlist : ListHasType (.struct .reference)
      (names.map fun name => namedReference (some name)) := by
    induction names with
    | nil => trivial
    | cons name names ih => exact ⟨namedReference_type _, ih⟩
  exact ⟨one_pos, rfl, trivial, ⟨one_pos, rfl⟩, hlist, trivial⟩

/-- Two references are cloned, and copied over a single other one. -/
theorem clone_and_copy_compare_references :
    idmefCompare (namedClassification [[97], [98]])
      (idmefClone ⟨0, 0, 0⟩ (namedClassification [[97], [98]])) = 0 ∧
    ∃ y', idmefCopy ⟨0, 0, 0⟩ (namedClassification [[97], [98]]) (namedClassification [[99]]) =
        (.ok (), y') ∧
      idmefCompare (namedClassification [[97], [98]]) y' = 0 ∧
      content y' = content (namedClassification [[97], [98]]) := by
  obtain ⟨hclone, -, hcopy⟩ := clone_and_copy_compare ⟨0, 0, 0⟩ .classification
    (namedClassification [[97], [98]]) (namedClassification [[99]])
    (namedClassification_type _) (namedClassification_type _)
  have hwhole : Whole (namedClassification [[97], [98]]) := by
    simp [namedClassification, namedReference, Whole, WholeFields, IdmefClassId.fields,
      WholeField, WholeList, FieldDesc.str, FieldDesc.requiredStr, FieldDesc.enum,
      FieldDesc.listed, FieldType.required]
  have hcovers : Covers (namedClassification [[97], [98]]) (namedClassification [[99]]) := by
    refine ⟨fun _ => rfl, ?_, ⟨?_, hwhole.2.2.1⟩, trivial⟩
    · rintro o ⟨⟩
      simp [Covers, Prim.Covers]
    · simp [namedReference, Obj.refcount]
  have hdone := hcopy _ rfl
  exact ⟨hclone.mpr hwhole, _, rfl, hdone.1.mpr hcovers, hdone.2 hcovers⟩

/-- A name is not overwritten by an empty one. -/
theorem copy_keeps_name :
    ∃ y', idmefCopy ⟨0, 0, 0⟩ (namedReference none) (namedReference (some [98])) = (.ok (), y') ∧
      idmefCompare (namedReference none) y' ≠ 0 :=
  ⟨(idmefCopy ⟨0, 0, 0⟩ (namedReference none) (namedReference (some [98]))).2, rfl,
    by decide +kernel⟩

end LibPrelude
