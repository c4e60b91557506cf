import LibPrelude.Idmef.Integers
import LibPrelude.Idmef.TimeOrder

/-! # The order of data

Data are compared by their lengths, then by their types, then by their contents. Data of
the same length and different types come before each other, and so do a time and a time
that is missing. Integers are compared by their bytes.
-/

namespace LibPrelude

open Bytes

/-- The types of data but for times. -/
inductive StoredType where
  | unknown
  | char
  | byte
  | uint32
  | int
  | float
  | charString
  | byteString
  deriving DecidableEq, Repr

/-- A data object as it is compared: a time, which may be missing, or bytes of some type. -/
inductive DataObject where
  | time (t : Option IdmefTime)
  | stored (type : StoredType) (bytes : List UInt8)
  deriving DecidableEq, Repr

namespace DataObject

def len : DataObject → ℕ
  | time _ => 1
  | stored _ bytes => bytes.length

def sameType : DataObject → DataObject → Bool
  | time _, time _ => true
  | stored type _, stored type' _ => type = type'
  | _, _ => false

end DataObject

def DataObject.dataCompare (data1 data2 : DataObject) : ℤ :=
  if data1.len ≠ data2.len then if data1.len > data2.len then 1 else -1
  else if ¬ data1.sameType data2 then -1
  else
    match data1, data2 with
    | .time t1, .time t2 => idmefTimeCompare t1 t2
    | .stored _ b1, .stored _ b2 => signOf (memcmp b1 b2)
    | _, _ => -1

def IdmefData.object : IdmefData → DataObject
  | unknown => .stored .unknown []
  | immediate .char bytes => .stored .char bytes
  | immediate .byte bytes => .stored .byte bytes
  | immediate .uint32 bytes => .stored .uint32 bytes
  | immediate .int bytes => .stored .int bytes
  | immediate .float bytes => .stored .float bytes
  | charString bytes => .stored .charString bytes
  | byteString bytes => .stored .byteString bytes
  | time t => .time (some t)

/-- An integer in a data object: eight bytes, or the first four of them when it was set as one of
32 bits. -/
inductive IntegerData (order : ByteOrder) : ℤ → DataObject → Prop
  | int {v : ℤ} : IntegerType.int64.InRange v →
      IntegerData order v (.stored .int (represent order 8 v))
  | uint32 {v : ℤ} : IntegerType.uint32.InRange v →
      IntegerData order v (.stored .int ((represent order 8 v).take 4))

/-- What a consistent order says of three data objects. -/
structure ConsistentOrder (order : ByteOrder) (a b c : DataObject) : Prop where
  equal : a.dataCompare b = 0 ↔ a = b
  opposite : (b.dataCompare a).sign = -(a.dataCompare b).sign
  trans : a.dataCompare b ≤ 0 → b.dataCompare c ≤ 0 → a.dataCompare c ≤ 0
  numeric : ∀ v w, IntegerData order v a → IntegerData order w b →
    (a.dataCompare b).sign = (v - w).sign

/-- The order of two integers is that of their bytes in so many bytes. -/
def IntegersAgree (order : ByteOrder) (m n : ℕ) (v w : ℤ) : Prop :=
  if m ≠ n then v ≠ w ∧ (m < n ↔ v < w)
  else if m = 8 then BytesAgree order .int64 v w
  else
    match order with
    | .little => BytesAgree .little .uint32 v w
    | .big => v = w

/-- Data of one length have one type, times are missing together and tell clocks apart, and
integers are in the order of their bytes. -/
structure ComparableData (order : ByteOrder) (a b : DataObject) : Prop where
  types : a.len = b.len → a.sameType b
  missing : ∀ s t, a = .time s → b = .time t → (s.isSome ↔ t.isSome)
  clocks : ∀ s t, a = .time (some s) → b = .time (some t) → s.shifted = t.shifted →
    s.usec = t.usec → s = t
  integers : ∀ v w, IntegerData order v a → IntegerData order w b →
    IntegersAgree order a.len b.len v w

section

variable {order : ByteOrder} {a b c : DataObject} {s t u : IdmefTime} {v w : ℤ} {n k : ℕ}

/-- The comparison of objects is the one of what they hold. -/
theorem dataCompare_object (d e : IdmefData) :
    d.object.dataCompare e.object = idmefDataCompare (some d) (some e) := by
  rcases d with _ | ⟨ty, _⟩ | _ | _ | _ <;> rcases e with _ | ⟨ty', _⟩ | _ | _ | _ <;>
    (try cases ty) <;> (try cases ty') <;>
    simp [DataObject.dataCompare, IdmefData.object, idmefDataCompare, DataObject.len, IdmefData.len,
      DataObject.sameType, signOf]

/-- Data of the same type and length; a time is there in both or in neither. -/
def DataObject.Alike : DataObject → DataObject → Prop
  | .time s, .time t => s.isSome ↔ t.isSome
  | .stored type bytes, .stored type' bytes' => type = type' ∧ bytes.length = bytes'.length
  | _, _ => False

/-- The order of the contents of data that are alike. -/
def DataObject.contentOrder : DataObject → DataObject → Ordering
  | .time (some s), .time (some t) => s.order t
  | .stored _ bytes, .stored _ bytes' => memcmp bytes bytes'
  | _, _ => .eq

open DataObject

theorem DataObject.Alike.symm (h : a.Alike b) : b.Alike a := by
  rcases a with _ | ⟨type, bytes⟩ <;> rcases b with _ | ⟨type', bytes'⟩
  · exact Iff.symm h
  · exact h
  · exact h
  · exact ⟨h.1.symm, h.2.symm⟩

theorem DataObject.Alike.trans (h : a.Alike b) (h' : b.Alike c) : a.Alike c := by
  rcases a with _ | ⟨type, bytes⟩ <;> rcases b with _ | ⟨type', bytes'⟩ <;>
    rcases c with _ | ⟨type'', bytes''⟩ <;> first | exact h.elim | exact h'.elim | skip
  · exact Iff.trans h h'
  · exact ⟨h.1.trans h'.1, h.2.trans h'.2⟩

theorem alike_iff : a.Alike b ↔
    a.len = b.len ∧ a.sameType b ∧ ∀ s t, a = .time s → b = .time t → (s.isSome ↔ t.isSome) := by
  rcases a with x | ⟨type, bytes⟩ <;> rcases b with y | ⟨type', bytes'⟩ <;>
    simp [Alike, len, sameType, and_comm]

theorem dataCompare_cases (a b : DataObject) :
    a.len < b.len ∧ a.dataCompare b = -1 ∨ b.len < a.len ∧ a.dataCompare b = 1 ∨
      a.len = b.len ∧ ¬ a.Alike b ∧ a.dataCompare b = -1 ∨
      a.len = b.len ∧ a.Alike b ∧ a.dataCompare b = signOf (a.contentOrder b) := by
  rcases lt_trichotomy a.len b.len with hlen | hlen | hlen
  · refine .inl ⟨hlen, ?_⟩
    unfold DataObject.dataCompare
    rw [if_pos hlen.ne, if_neg hlen.not_gt]
  · refine .inr (.inr ?_)
    unfold DataObject.dataCompare
    rw [if_neg (not_not.mpr hlen)]
    rcases a with (_ | s) | ⟨type, bytes⟩ <;> rcases b with (_ | t) | ⟨type', bytes'⟩
    · exact .inr ⟨rfl, Iff.rfl, rfl⟩
    · exact .inl ⟨rfl, by simp [Alike], rfl⟩
    · exact .inl ⟨hlen, id, rfl⟩
    · exact .inl ⟨rfl, by simp [Alike], rfl⟩
    · exact .inr ⟨rfl, Iff.rfl, idmefTimeCompare_eq s t⟩
    · exact .inl ⟨hlen, id, rfl⟩
    · exact .inl ⟨hlen, id, rfl⟩
    · exact .inl ⟨hlen, id, rfl⟩
    · by_cases htype : type = type'
      · exact .inr ⟨hlen, ⟨htype, hlen⟩, by simp [sameType, htype, contentOrder]⟩
      · exact .inl ⟨hlen, fun h => htype h.1, by simp [sameType, htype]⟩
  · refine .inr (.inl ⟨hlen, ?_⟩)
    unfold DataObject.dataCompare
    rw [if_pos hlen.ne', if_pos hlen]

theorem contentOrder_swap (a b : DataObject) :
    (a.contentOrder b).swap = b.contentOrder a := by
  rcases a with (_ | s) | ⟨type, bytes⟩ <;> rcases b with (_ | t) | ⟨type', bytes'⟩ <;>
    first | rfl | skip
  · exact order_swap s t
  · exact memcmp_swap bytes bytes'

theorem memcmp_eq_iff {as bs : List UInt8} (h : as.length = bs.length) :
    memcmp as bs = .eq ↔ as = bs := by
  rw [memcmp_eq_compare_ofBe h, compare_eq_iff_eq]
  constructor
  · intro heq
    rw [← beBytes_ofBe as, ← beBytes_ofBe bs, heq, h]
  · rintro rfl
    rfl

theorem memcmp_ne_gt_iff {as bs : List UInt8} (h : as.length = bs.length) :
    memcmp as bs ≠ .gt ↔ ofBe as ≤ ofBe bs := by
  rw [memcmp_eq_compare_ofBe h, ne_eq, compare_gt_iff_gt, not_lt]

theorem order_ne_gt_iff : s.order t ≠ .gt ↔ s.shifted.toNat < t.shifted.toNat ∨
    s.shifted.toNat = t.shifted.toNat ∧ s.usec.toNat ≤ t.usec.toNat := by
  rw [IdmefTime.order, ne_eq, Ordering.then_eq_gt, compare_gt_iff_gt, compare_eq_iff_eq,
    compare_gt_iff_gt]
  omega

theorem contentOrder_trans (hab : a.Alike b) (hbc : b.Alike c) (h : a.contentOrder b ≠ .gt)
    (h' : b.contentOrder c ≠ .gt) : a.contentOrder c ≠ .gt := by
  rcases a with s | ⟨type, bytes⟩ <;> rcases b with t | ⟨type', bytes'⟩ <;>
    rcases c with u | ⟨type'', bytes''⟩ <;> first | exact hab.elim | exact hbc.elim | skip
  · rcases s with _ | s
    · simp [contentOrder]
    · obtain ⟨t, rfl⟩ := Option.isSome_iff_exists.mp (hab.mp rfl)
      obtain ⟨u, rfl⟩ := Option.isSome_iff_exists.mp (hbc.mp rfl)
      simp only [contentOrder, order_ne_gt_iff] at h h' ⊢
      omega
  · simp only [contentOrder, memcmp_ne_gt_iff hab.2, memcmp_ne_gt_iff hbc.2,
      memcmp_ne_gt_iff (hab.2.trans hbc.2)] at h h' ⊢
    exact h.trans h'

theorem signOf_swap (o : Ordering) : signOf o.swap = -signOf o := by cases o <;> rfl

theorem sign_signOf (o : Ordering) : (signOf o).sign = signOf o := by cases o <;> rfl

theorem signOf_nonpos {o : Ordering} : signOf o ≤ 0 ↔ o ≠ .gt := by cases o <;> decide

/-- Data are found to be equal as their contents are, if times that clocks tell alike are. -/
theorem dataCompare_eq_zero (hclocks : ∀ s t, a = .time (some s) → b = .time (some t) →
    s.shifted = t.shifted → s.usec = t.usec → s = t) : a.dataCompare b = 0 ↔ a = b := by
  constructor
  · intro h
    rcases dataCompare_cases a b with ⟨-, hcmp⟩ | ⟨-, hcmp⟩ | ⟨-, -, hcmp⟩ | ⟨-, halike, hcmp⟩ <;>
      rw [hcmp] at h
    · cases h
    · cases h
    · cases h
    · have heq := signOf_eq_zero.mp h
      rcases a with (_ | s) | ⟨type, bytes⟩ <;> rcases b with (_ | t) | ⟨type', bytes'⟩ <;>
        first | exact halike.elim | skip
      · rfl
      · simp [Alike] at halike
      · simp [Alike] at halike
      · rw [contentOrder, IdmefTime.order, Ordering.then_eq_eq, compare_eq_iff_eq,
          compare_eq_iff_eq, UInt32.toNat_inj, UInt32.toNat_inj] at heq
        rw [hclocks s t rfl rfl heq.1 heq.2]
      · obtain ⟨rfl, hlen⟩ := halike
        rw [(memcmp_eq_iff hlen).mp heq]
  · rintro rfl
    rcases a with (_ | s) | ⟨type, bytes⟩
    · rfl
    · simp [DataObject.dataCompare, sameType]
    · simp [DataObject.dataCompare, sameType, signOf]

theorem dataCompare_swap (h : a.len = b.len → a.Alike b) :
    (b.dataCompare a).sign = -(a.dataCompare b).sign := by
  rcases dataCompare_cases a b with ⟨hlen, hcmp⟩ | ⟨hlen, hcmp⟩ | ⟨hlen, hnot, -⟩ |
    ⟨hlen, halike, hcmp⟩ <;>
    rcases dataCompare_cases b a with ⟨hlen', hcmp'⟩ | ⟨hlen', hcmp'⟩ | ⟨hlen', hnot', hcmp'⟩ |
      ⟨hlen', halike', hcmp'⟩ <;> first | omega | exact absurd (h hlen) hnot | skip
  · rw [hcmp, hcmp']
    rfl
  · rw [hcmp, hcmp']
    rfl
  · exact absurd halike.symm hnot'
  · rw [hcmp, hcmp', ← contentOrder_swap, signOf_swap, Int.sign_neg]

theorem dataCompare_trans (h : a.len = b.len → a.Alike b) (hab : a.dataCompare b ≤ 0)
    (hbc : b.dataCompare c ≤ 0) : a.dataCompare c ≤ 0 := by
  rcases dataCompare_cases a b with ⟨hlen, hcmp⟩ | ⟨hlen, hcmp⟩ | ⟨hlen, hnot, -⟩ |
    ⟨hlen, halike, hcmp⟩ <;>
    rcases dataCompare_cases b c with ⟨hlen', hcmp'⟩ | ⟨hlen', hcmp'⟩ | ⟨hlen', hnot', hcmp'⟩ |
      ⟨hlen', halike', hcmp'⟩ <;>
    rcases dataCompare_cases a c with ⟨hlen'', hcmp''⟩ | ⟨hlen'', hcmp''⟩ |
      ⟨hlen'', hnot'', hcmp''⟩ | ⟨hlen'', halike'', hcmp''⟩ <;>
    first | omega | exact absurd (h hlen) hnot | skip
  · exact absurd (halike.symm.trans halike'') hnot'
  · rw [hcmp, signOf_nonpos] at hab
    rw [hcmp', signOf_nonpos] at hbc
    rw [hcmp'', signOf_nonpos]
    exact contentOrder_trans halike halike' hab hbc

theorem sign_sub (v w : ℤ) : (v - w).sign = signOf (compare v w) := by
  rcases lt_trichotomy v w with h | h | h
  · rw [compare_lt_iff_lt.mpr h, Int.sign_eq_neg_one_of_neg (by omega)]
    rfl
  · rw [compare_eq_iff_eq.mpr h, h, sub_self]
    rfl
  · rw [compare_gt_iff_gt.mpr h, Int.sign_eq_one_of_pos (by omega)]
    rfl

theorem take_leBytes (n : ℕ) {k m : ℕ} (h : k ≤ m) : (leBytes m n).take k = leBytes k n := by
  rw [leBytes_eq_map, leBytes_eq_map, ← List.map_take, List.take_range, Nat.min_eq_left h]

theorem take_represent_little (h : IntegerType.uint32.InRange v) :
    (represent .little 8 v).take 4 = represent .little 4 v := by
  have h : 0 ≤ v ∧ v < 2 ^ 32 := h
  simp only [represent]
  rw [take_leBytes _ (by omega)]
  congr 2
  omega

theorem take_represent_big (h : IntegerType.uint32.InRange v) :
    (represent .big 8 v).take 4 = [0, 0, 0, 0] := by
  have h : 0 ≤ v ∧ v < 2 ^ 32 := h
  have hzero (k : ℕ) : (v % 256 ^ 8).toNat / 256 ^ (4 + k) = 0 := by
    refine Nat.div_eq_of_lt ?_
    have : 256 ^ 4 ≤ 256 ^ (4 + k) := Nat.pow_le_pow_right (by omega) (by omega)
    omega
  have h₇ := hzero 3
  have h₆ := hzero 2
  have h₅ := hzero 1
  have h₄ := hzero 0
  simp only [Nat.reduceAdd] at h₇ h₆ h₅ h₄
  simp only [represent, beBytes, List.take_succ_cons, List.take_zero, h₇, h₆, h₅, h₄]
  rfl

theorem dataCompare_stored (ty : StoredType) {bytes bytes' : List UInt8}
    (h : bytes.length = bytes'.length) :
    (stored ty bytes).dataCompare (stored ty bytes') = signOf (memcmp bytes bytes') := by
  simp [DataObject.dataCompare, len, sameType, h]

theorem integersAgree_iff (ha : IntegerData order v a) (hb : IntegerData order w b) :
    (a.dataCompare b).sign = (v - w).sign ↔ IntegersAgree order a.len b.len v w := by
  rw [sign_sub]
  have hinj (o o' : Ordering) : signOf o = signOf o' ↔ o = o' := ⟨signOf_inj, congrArg signOf⟩
  cases ha with
  | int hv =>
    cases hb with
    | int hw =>
      rw [dataCompare_stored _ (by simp [length_represent]), sign_signOf, hinj]
      simp only [IntegersAgree, len, length_represent, ne_eq, not_true_eq_false, if_false,
        if_true]
      exact (bytesAgree_iff order hv hw).symm
    | uint32 hw =>
      have hcmp : (stored .int (represent order 8 v)).dataCompare
          (stored .int ((represent order 8 w).take 4)) = 1 := by
        simp [DataObject.dataCompare, len, length_represent]
      rw [hcmp, show (1 : ℤ).sign = signOf .gt from rfl, hinj, eq_comm, compare_gt_iff_gt]
      simp [IntegersAgree, len, length_represent]
      omega
  | uint32 hv =>
    cases hb with
    | int hw =>
      have hcmp : (stored .int ((represent order 8 v).take 4)).dataCompare
          (stored .int (represent order 8 w)) = -1 := by
        simp [DataObject.dataCompare, len, length_represent]
      rw [hcmp, show (-1 : ℤ).sign = signOf .lt from rfl, hinj, eq_comm, compare_lt_iff_lt]
      simp [IntegersAgree, len, length_represent]
      omega
    | uint32 hw =>
      rw [dataCompare_stored _ (by simp [length_represent]), sign_signOf, hinj]
      simp only [IntegersAgree, len, List.length_take, length_represent, ne_eq, not_true_eq_false,
        if_false, Nat.reduceEqDiff, Nat.reduceLeDiff, inf_of_le_left]
      cases order with
      | little =>
        rw [take_represent_little hv, take_represent_little hw]
        exact (bytesAgree_iff .little hv hw).symm
      | big =>
        rw [take_represent_big hv, take_represent_big hw, eq_comm]
        exact compare_eq_iff_eq

theorem alike_of_opposite (hlen : a.len = b.len)
    (h : (b.dataCompare a).sign = -(a.dataCompare b).sign) : a.Alike b := by
  by_contra hnot
  rcases dataCompare_cases a b with ⟨hlt, -⟩ | ⟨hlt, -⟩ | ⟨-, -, hcmp⟩ | ⟨-, halike, -⟩
  · omega
  · omega
  · rcases dataCompare_cases b a with ⟨hlt, -⟩ | ⟨hlt, -⟩ | ⟨-, -, hcmp'⟩ | ⟨-, halike, -⟩
    · omega
    · omega
    · rw [hcmp, hcmp'] at h
      cases h
    · exact hnot halike.symm
  · exact hnot halike

end

/-- The comparison of data is a consistent order for the data that can be compared, and no
others. -/
theorem data_compare_iff (order : ByteOrder) (a b c : DataObject) :
    ConsistentOrder order a b c ↔ ComparableData order a b := by
  constructor
  · rintro ⟨hequal, hopposite, -, hnumeric⟩
    have halike (hlen : a.len = b.len) := alike_iff.mp (alike_of_opposite hlen hopposite)
    refine ⟨fun hlen => (halike hlen).2.1, ?_, ?_, ?_⟩
    · rintro s t rfl rfl
      exact (halike rfl).2.2 s t rfl rfl
    · rintro s t rfl rfl hshifted husec
      have hzero : (DataObject.time (some s)).dataCompare (.time (some t)) = 0 := by
        change idmefTimeCompare (some s) (some t) = 0
        rw [idmefTimeCompare, if_pos hshifted, if_pos husec]
      simpa using hequal.mp hzero
    · exact fun v w hv hw => (integersAgree_iff hv hw).mp (hnumeric v w hv hw)
  · rintro ⟨htypes, hmissing, hclocks, hintegers⟩
    have halike (hlen : a.len = b.len) : a.Alike b := alike_iff.mpr ⟨hlen, htypes hlen, hmissing⟩
    exact ⟨dataCompare_eq_zero hclocks, dataCompare_swap halike, dataCompare_trans halike,
      fun v w hv hw => (integersAgree_iff hv hw).mpr (hintegers v w hv hw)⟩

/-- A byte and a character come before each other. -/
theorem data_compare_types : ¬ ∀ (order : ByteOrder) (a b c : DataObject),
    ConsistentOrder order a b c := by
  intro h
  have h := (h .little (.stored .byte [1]) (.stored .char [1]) (.time none)).opposite
  revert h
  decide

end LibPrelude
