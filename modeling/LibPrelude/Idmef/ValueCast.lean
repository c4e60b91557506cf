import LibPrelude.Idmef.Cast
import LibPrelude.Idmef.ValueWrite

/-! # Casts of values

A value is cast to another type by the type it is to have, where that is data, a time or
a string, and else by the type it has. A list has no other type, and an object is cast to
a string only.
-/

namespace LibPrelude

/-- What casts depend on: what reading a text does, the local time and floats. -/
structure CastContext extends Platform where
  localTime : LocalTime
  gmtOffsetFromTime : ℤ → Int32
  floats : Floats

/-- Why a function does not succeed: with an error, or since memory of another type is read, none at
all or memory behind a null pointer, or an assertion ends the process. -/
inductive SetFailure where
  | code (e : ErrorCode)
  | stray
  deriving DecidableEq

abbrev CastRet := Except SetFailure ValueType

def IdmefValue.type : IdmefValue → IdmefValueTypeId
  | scalar v => v.id
  | list _ => .list

section

variable (m : CastContext)

def integerData (v : ℤ) : IdmefData := .immediate .int (represent m.order 8 v)

def floatOrIntegerData (src : UInt64) (single : UInt32) : IdmefData :=
  match m.floats.integer .int64 src with
  | some v => integerData m v
  | none => .immediate .float (represent m.order 4 single.toNat)

def castToData : ValueType → CastRet
  | .string s =>
    match s.buf with
    | none => .error (.code .assertion)
    | some text => .ok (.data (.charString (text ++ [0])))
  | .integer _ v => .ok (.data (integerData m v))
  | .time t => .ok (.data (.time t))
  | .float bits => .ok (.data (floatOrIntegerData m (m.floats.widen bits) bits))
  | .double bits => .ok (.data (floatOrIntegerData m bits (m.floats.narrow bits)))
  | _ => .error (.code .generic)

def idmefTimeNewFromTime (val : ℤ) : IdmefTime := ⟨storedSec val, 0, m.gmtOffsetFromTime val⟩

/-- Integers of fewer than 32 bits are no times. -/
def castToTime : ValueType → CastRet
  | .string s =>
    match s.buf with
    | none => .error (.code .assertion)
    | some text =>
      match idmefTimeSetFromString m.localTime (PreludeString.cString text) with
      | none => .error (.code .generic)
      | some t => .ok (.time t)
  | .integer t v =>
    if t.size < 4 then .error (.code .generic)
    else .ok (.time (idmefTimeNewFromTime m (Int.bmod v (2 ^ 64))))
  | _ => .error (.code .generic)

def castToString (v : ValueType) : CastRet :=
  match idmefValueTypeWrite m.order m.floats v preludeStringNew with
  | .ok out => .ok (.string out)
  | .error e => .error (.code e)

def idmefValueSetEnumFromString (cls : Option IdmefEnumId) (s : PreludeString) : CastRet :=
  match s.buf, cls with
  | none, _ => .error (.code .assertion)
  | some _, none => .error (.code .idmefUnknownEnumString)
  | some buf, some cls =>
    match idmefClassEnumToNumeric cls buf with
    | .ok v => .ok (.enum v cls)
    | .error e => .error (.code e)

/-- A string without a content is a null pointer for the function that reads. -/
def castFromString (s : PreludeString) (ntype : IdmefValueTypeId) : CastRet :=
  match ntype, s.buf with
  | .unknown, _ | .list, _ | .class, _ => .error (.code .idmefValueTypeReadUnavailable)
  | _, none => .error .stray
  | ntype, some text =>
    match idmefValueTypeRead m.toPlatform ntype (PreludeString.cString text) with
    | .ok v => .ok v
    | .error e => .error (.code e)

/-- The cast of a number that is a double or, in C, becomes one. -/
def realCast (src : UInt64) (single : UInt32) (ntype : IdmefValueTypeId) : CastRet :=
  match ntype.integerType with
  | some t =>
    match m.floats.integer t src with
    | some v => .ok (.integer t v)
    | none => .error (.code .generic)
  | none =>
    if ntype = .float ∧ m.floats.tolerated src (m.floats.widen single) then .ok (.float single)
    else if ntype = .double ∧ m.floats.tolerated src src then .ok (.double src)
    else .error (.code .generic)

def integerCast (itype : IntegerType) (src : ℤ) (ntype : IdmefValueTypeId) : CastRet :=
  match ntype.integerType with
  | some t =>
    match valueCastCheck itype src t with
    | (.ok (), v) => .ok v
    | (.error e, _) => .error (.code e)
  | none => realCast m (m.floats.doubleOf src) (m.floats.floatOf src) ntype

def idmefValueCast (value : IdmefValue) (ntype : IdmefValueTypeId) (id : Option IdmefEnumId) :
    CastRet :=
  match value with
  | .list _ =>
    .error (.code (if ntype = .string then .idmefValueTypeWriteUnavailable else .generic))
  | .scalar v =>
    if ntype = .data then castToData m v
    else if ntype = .time then castToTime m v
    else if ntype = .string then castToString m v
    else
      match v with
      | .string s =>
        if ntype = .enum then idmefValueSetEnumFromString id s else castFromString m s ntype
      | .integer t n => integerCast m t n ntype
      | .float bits => realCast m (m.floats.widen bits) bits ntype
      | .double bits => realCast m bits (m.floats.narrow bits) ntype
      | _ => .error (.code .generic)

/-- The value as one of a type: it is cast unless it is of the type already. -/
def valueAs (value : IdmefValue) (type : IdmefValueTypeId) (id : Option IdmefEnumId) : CastRet :=
  match value with
  | .scalar v => if v.id = type then .ok v else idmefValueCast m (.scalar v) type id
  | .list l => idmefValueCast m (.list l) type id

/-- The values that are data in another form: strings with a content, integers, times, floats. -/
def DataCastable : ValueType → Prop
  | .string s => s.buf ≠ none
  | .data _ | .enum _ _ | .class _ _ => False
  | _ => True

/-- The values that are times: texts of times, and integers of at least 32 bits. -/
def TimeCastable : ValueType → Prop
  | .string s => ∃ text, s.buf = some text ∧
      idmefTimeSetFromString m.localTime (PreludeString.cString text) ≠ none
  | .integer t _ => 4 ≤ t.size
  | _ => False

/-- The values that have a text: all but enumeration values without a name and objects that hold
one, or a listed string without a content. -/
def StringCastable : ValueType → Prop
  | .enum value cls => idmefClassEnumToString cls value ≠ none
  | .class _ o => ∃ out, classToString m.order m.floats o preludeStringNew = .ok out
  | _ => True

/-- The types that a text is read as. -/
def IdmefValueTypeId.isNumber (ntype : IdmefValueTypeId) : Prop :=
  ntype.integerType ≠ none ∨ ntype = .float ∨ ntype = .double

/-- A number is one of another type when it stays the same or, as a float, is close. -/
def RealCastable (src : UInt64) (single : UInt32) (ntype : IdmefValueTypeId) : Prop :=
  match ntype.integerType with
  | some t => m.floats.integer t src ≠ none
  | none => ntype = .float ∧ m.floats.tolerated src (m.floats.widen single) ∨
      ntype = .double ∧ m.floats.tolerated src src

/-- The values that a cast to a type, or to an enumeration, is for. -/
def Castable (v : ValueType) (ntype : IdmefValueTypeId) (id : Option IdmefEnumId) : Prop :=
  if ntype = .data then DataCastable v
  else if ntype = .time then TimeCastable m v
  else if ntype = .string then StringCastable m v
  else
    match v with
    | .string s =>
      if ntype = .enum then ∃ text cls, s.buf = some text ∧ id = some cls ∧
        ∃ name ∈ cls.names, strcasecmp text (ascii name)
      else ntype.isNumber ∧ ∃ text n, s.buf = some text ∧
        idmefValueTypeRead m.toPlatform ntype (PreludeString.cString text) = .ok n
    | .integer t n =>
      match ntype.integerType with
      | some t' => castchk t t' n
      | none => RealCastable m (m.floats.doubleOf n) (m.floats.floatOf n) ntype
    | .float bits => RealCastable m (m.floats.widen bits) bits ntype
    | .double bits => RealCastable m bits (m.floats.narrow bits) ntype
    | _ => False

/-- A string without a content is read as a number. -/
def ReadsNull (v : ValueType) (ntype : IdmefValueTypeId) : Prop :=
  ntype.isNumber ∧ ∃ s, v = .string s ∧ s.buf = none

/-- A value is one of a type or can be cast to it. -/
def Converts (value : IdmefValue) (type : IdmefValueTypeId) (id : Option IdmefEnumId) : Prop :=
  ∃ v, value = .scalar v ∧ (v.id = type ∨ Castable m v type id)

/-- A value is neither of a type nor can be cast to it, and is no string without a content that is
read as a number. -/
def Refuses (value : IdmefValue) (type : IdmefValueTypeId) (id : Option IdmefEnumId) : Prop :=
  ¬ Converts m value type id ∧ ¬ ∃ v, value = .scalar v ∧ ReadsNull v type

end

/-- A cast gives a value of the type in the one case, strays in the other and else fails. -/
def CastRet.Ends (r : CastRet) (ntype : IdmefValueTypeId) (casts strays : Prop) : Prop :=
  match r with
  | .ok v => v.id = ntype ∧ casts
  | .error (.code _) => ¬ casts ∧ ¬ strays
  | .error .stray => ¬ casts ∧ strays

section

variable (m : CastContext) {ntype : IdmefValueTypeId}

theorem castToData_ends (v : ValueType) : (castToData m v).Ends .data (DataCastable v) False := by
  cases v with
  | string s => rcases hs : s.buf with _ | text <;>
      simp [castToData, DataCastable, hs, CastRet.Ends, ValueType.id]
  | _ => simp [castToData, DataCastable, CastRet.Ends, ValueType.id]

theorem castToTime_ends (v : ValueType) : (castToTime m v).Ends .time (TimeCastable m v) False := by
  cases v with
  | string s =>
    rcases hs : s.buf with _ | text
    · simp [castToTime, TimeCastable, hs, CastRet.Ends]
    · rcases ht : idmefTimeSetFromString m.localTime (PreludeString.cString text) <;>
        simp [castToTime, TimeCastable, hs, ht, CastRet.Ends, ValueType.id]
  | integer t v =>
    by_cases h : t.size < 4
    · simp [castToTime, TimeCastable, h, CastRet.Ends]
    · simp [castToTime, TimeCastable, h, CastRet.Ends, ValueType.id, Nat.le_of_not_lt h]
  | _ => simp [castToTime, TimeCastable, CastRet.Ends]

theorem castToString_ends (v : ValueType) :
    (castToString m v).Ends .string (StringCastable m v) False := by
  rw [castToString]
  cases v with
  | data d =>
    obtain ⟨out, h⟩ := @idmefDataToString_ok m.order m.floats d preludeStringNew
    simp [idmefValueTypeWrite, leafWrite, h, StringCastable, CastRet.Ends, ValueType.id]
  | «enum» value cls =>
    rcases h : idmefClassEnumToString cls value <;>
      simp [idmefValueTypeWrite, leafWrite, h, StringCastable, CastRet.Ends, ValueType.id]
  | «class» cls o =>
    rcases h : classToString m.order m.floats o preludeStringNew <;>
      simp [idmefValueTypeWrite, h, StringCastable, CastRet.Ends, ValueType.id]
  | _ => simp [idmefValueTypeWrite, leafWrite, StringCastable, CastRet.Ends, ValueType.id]

theorem realCast_ends (src : UInt64) (single : UInt32) :
    (realCast m src single ntype).Ends ntype (RealCastable m src single ntype) False := by
  rw [realCast, RealCastable]
  rcases ht : ntype.integerType with _ | t
  · simp only
    split_ifs with hfloat hdouble
    · exact ⟨hfloat.1.symm, .inl hfloat⟩
    · exact ⟨hdouble.1.symm, .inr hdouble⟩
    · exact ⟨not_or.mpr ⟨hfloat, hdouble⟩, not_false⟩
  · rcases hv : m.floats.integer t src with _ | v
    · simp [CastRet.Ends, hv]
    · simp [CastRet.Ends, hv, ValueType.id, integerType_id ht]

theorem integerCast_ends (itype : IntegerType) (n : ℤ) :
    (integerCast m itype n ntype).Ends ntype (match ntype.integerType with
      | some t => castchk itype t n
      | none => RealCastable m (m.floats.doubleOf n) (m.floats.floatOf n) ntype) False := by
  rw [integerCast]
  rcases ht : ntype.integerType with _ | t
  · exact realCast_ends m _ _
  · simp only [valueCastCheck]
    split_ifs with hchk
    · exact ⟨integerType_id ht, hchk⟩
    · exact ⟨hchk, not_false⟩

theorem enumFromString_ends (id : Option IdmefEnumId) (s : PreludeString) :
    (idmefValueSetEnumFromString id s).Ends .enum (∃ text cls, s.buf = some text ∧
      id = some cls ∧ ∃ name ∈ cls.names, strcasecmp text (ascii name)) False := by
  unfold idmefValueSetEnumFromString
  rcases s.buf with _ | text
  · simp [CastRet.Ends]
  rcases id with _ | cls
  · simp [CastRet.Ends]
  simp only [idmefClassEnumToNumeric]
  rcases h : cls.names.findIdx? fun name => strcasecmp text (ascii name) with _ | i
  · have hnone := List.findIdx?_eq_none_iff.mp h
    simpa [CastRet.Ends] using hnone
  · obtain ⟨hi, hname, -⟩ := List.findIdx?_eq_some_iff_getElem.mp h
    exact ⟨rfl, text, cls, rfl, rfl, _, List.getElem_mem hi, hname⟩

theorem castFromString_ends (s : PreludeString) (hdata : ntype ≠ .data) (htime : ntype ≠ .time)
    (hstring : ntype ≠ .string) (henum : ntype ≠ .enum) :
    (castFromString m s ntype).Ends ntype (ntype.isNumber ∧ ∃ text n, s.buf = some text ∧
      idmefValueTypeRead m.toPlatform ntype (PreludeString.cString text) = .ok n)
      (ntype.isNumber ∧ s.buf = none) := by
  by_cases hnumber : ntype.isNumber
  · rcases hs : s.buf with _ | text
    · cases ntype <;> simp_all [castFromString, CastRet.Ends, IdmefValueTypeId.isNumber,
        IdmefValueTypeId.integerType]
    · have hread : castFromString m s ntype =
          (match idmefValueTypeRead m.toPlatform ntype (PreludeString.cString text) with
          | .ok v => .ok v
          | .error e => .error (.code e)) := by
        cases ntype <;> simp_all [castFromString, IdmefValueTypeId.isNumber,
          IdmefValueTypeId.integerType]
      rw [hread]
      rcases hr : idmefValueTypeRead m.toPlatform ntype (PreludeString.cString text) with e | v
      · simp [CastRet.Ends, hr]
      · exact ⟨idmefValueTypeRead_id hr, hnumber, text, v, rfl, hr⟩
  · have hunavailable : castFromString m s ntype =
        .error (.code .idmefValueTypeReadUnavailable) := by
      cases ntype <;> simp_all [castFromString, IdmefValueTypeId.isNumber,
        IdmefValueTypeId.integerType]
    simp [hunavailable, CastRet.Ends, hnumber]

theorem idmefValueCast_ends (v : ValueType) (id : Option IdmefEnumId) :
    (idmefValueCast m (.scalar v) ntype id).Ends ntype (Castable m v ntype id)
      (ReadsNull v ntype) := by
  have hnumber {t : IdmefValueTypeId} (ht : t = .data ∨ t = .time ∨ t = .string ∨ t = .enum) :
      ¬ ReadsNull v t := by
    rintro ⟨h, -⟩
    rcases ht with rfl | rfl | rfl | rfl <;>
      simp [IdmefValueTypeId.isNumber, IdmefValueTypeId.integerType] at h
  by_cases hdata : ntype = .data
  · subst hdata
    simpa [idmefValueCast, Castable, hnumber] using castToData_ends m v
  by_cases htime : ntype = .time
  · subst htime
    simpa [idmefValueCast, Castable, hnumber] using castToTime_ends m v
  by_cases hstring : ntype = .string
  · subst hstring
    simpa [idmefValueCast, Castable, hnumber] using castToString_ends m v
  have hnull (h : ∀ s, v ≠ .string s) : ¬ ReadsNull v ntype := by
    rintro ⟨-, s, hs, -⟩
    exact h s hs
  simp only [idmefValueCast, Castable, if_neg hdata, if_neg htime, if_neg hstring]
  cases v with
  | string s =>
    by_cases henum : ntype = .enum
    · subst henum
      simpa [hnumber] using enumFromString_ends id s
    · simpa [henum, ReadsNull] using castFromString_ends m s hdata htime hstring henum
  | integer t n => simpa [hnull] using integerCast_ends m t n
  | float bits => simpa [hnull] using realCast_ends m _ bits
  | double bits => simpa [hnull] using realCast_ends m bits _
  | _ => exact ⟨not_false, hnull (by simp)⟩

theorem valueAs_ends (value : IdmefValue) (id : Option IdmefEnumId) :
    (valueAs m value ntype id).Ends ntype (Converts m value ntype id)
      (∃ v, value = .scalar v ∧ ReadsNull v ntype) := by
  rcases value with v | l
  · by_cases hid : v.id = ntype
    · rw [valueAs, if_pos hid]
      exact ⟨hid, v, rfl, .inl hid⟩
    · have hends := @idmefValueCast_ends m ntype v id
      have hconverts : Converts m (.scalar v) ntype id ↔ Castable m v ntype id := by
        simp [Converts, hid]
      have hnull : (∃ v', IdmefValue.scalar v = .scalar v' ∧ ReadsNull v' ntype) ↔
          ReadsNull v ntype := by simp
      rwa [valueAs, if_neg hid, hconverts, hnull]
  · simp [valueAs, idmefValueCast, CastRet.Ends, Converts]

/-- A cast to a class is refused, so that only an object is one. -/
theorem converts_class {value : IdmefValue} {id : Option IdmefEnumId} :
    Converts m value .class id ↔ ∃ cls o, value = .scalar (.class cls o) := by
  constructor
  · rintro ⟨v, rfl, hid | hcast⟩
    · cases v <;> first | cases hid | skip
      case integer t n => cases t <;> cases hid
      exact ⟨_, _, rfl⟩
    · cases v <;> simp [Castable, RealCastable, IdmefValueTypeId.isNumber,
        IdmefValueTypeId.integerType] at hcast
  · rintro ⟨cls, o, rfl⟩
    exact ⟨_, rfl, .inl rfl⟩

end

end LibPrelude
