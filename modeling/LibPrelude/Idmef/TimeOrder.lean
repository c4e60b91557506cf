import LibPrelude.Idmef.Primitive

/-! # The order of times

The seconds of a time are counted in Greenwich, whatever its offset. The comparison adds
the offset to the seconds all the same, in 32 bits, so that it orders times by what clocks
at the places show.
-/

namespace LibPrelude

namespace IdmefTime

/-- The microseconds from the beginning of 1970 to a time. -/
def instant (t : IdmefTime) : ℕ := t.sec.toNat * 10 ^ 6 + t.usec.toNat

/-- What the offset adds to the seconds, and the carry takes away. -/
def shift (t : IdmefTime) : ℤ := t.shifted.toNat - t.sec.toNat

/-- The order of two times by what clocks show. -/
def order (s t : IdmefTime) : Ordering :=
  (compare s.shifted.toNat t.shifted.toNat).then (compare s.usec.toNat t.usec.toNat)

/-- The times with offsets of a set. -/
def withShifts (shifts : Set ℤ) : Set IdmefTime :=
  fun t => t.usec.toNat < 10 ^ 6 ∧ t.shift ∈ shifts

/-- The comparison is the order of the instants of some times: one that is total and transitive,
and does not change with the offsets. -/
structure OrdersInstants (times : Set IdmefTime) : Prop where
  instant : ∀ s ∈ times, ∀ t ∈ times,
    idmefTimeCompare (some s) (some t) = signOf (compare s.instant t.instant)
  total : ∀ s ∈ times, ∀ t ∈ times,
    idmefTimeCompare (some s) (some t) ≤ 0 ∨ idmefTimeCompare (some t) (some s) ≤ 0
  trans : ∀ s ∈ times, ∀ t ∈ times, ∀ u ∈ times, idmefTimeCompare (some s) (some t) ≤ 0 →
    idmefTimeCompare (some t) (some u) ≤ 0 → idmefTimeCompare (some s) (some u) ≤ 0
  offset : ∀ s ∈ times, ∀ t ∈ times, ∀ u ∈ times, s.sec = t.sec → s.usec = t.usec →
    idmefTimeCompare (some s) (some u) = idmefTimeCompare (some t) (some u)

end IdmefTime

open IdmefTime

variable {s t u : IdmefTime}

theorem signOf_inj {o o' : Ordering} (h : signOf o = signOf o') : o = o' := by
  cases o <;> cases o' <;> first | rfl | cases h

theorem idmefTimeCompare_eq (s t : IdmefTime) :
    idmefTimeCompare (some s) (some t) = signOf (order s t) := by
  have hlt (a b : UInt32) : a < b ↔ a.toNat < b.toNat := UInt32.lt_iff_toNat_lt
  have heq (a b : UInt32) : a = b ↔ a.toNat = b.toNat := UInt32.toNat_inj.symm
  simp only [idmefTimeCompare, order, hlt, heq]
  rcases lt_trichotomy s.shifted.toNat t.shifted.toNat with h | h | h
  · rw [compare_lt_iff_lt.mpr h, if_neg h.ne, if_pos h]
    rfl
  · rw [compare_eq_iff_eq.mpr h, if_pos h]
    rcases lt_trichotomy s.usec.toNat t.usec.toNat with h' | h' | h'
    · rw [compare_lt_iff_lt.mpr h', if_neg h'.ne, if_pos h']
      rfl
    · rw [compare_eq_iff_eq.mpr h', if_pos h']
      rfl
    · rw [compare_gt_iff_gt.mpr h', if_neg h'.ne', if_neg h'.not_gt]
      rfl
  · rw [compare_gt_iff_gt.mpr h, if_neg h.ne', if_neg h.not_gt]
    rfl

theorem order_swap (s t : IdmefTime) : (order s t).swap = order t s := by
  rw [order, order, Ordering.swap_then, Nat.compare_swap, Nat.compare_swap]

theorem order_of_shift (h : s.shift = t.shift) (hs : s.usec.toNat < 10 ^ 6)
    (ht : t.usec.toNat < 10 ^ 6) : order s t = compare s.instant t.instant := by
  unfold shift at h
  have hinstant (a b : IdmefTime) : a.instant < b.instant ↔
      a.sec.toNat * 10 ^ 6 + a.usec.toNat < b.sec.toNat * 10 ^ 6 + b.usec.toNat := Iff.rfl
  have heq : s.instant = t.instant ↔
      s.sec.toNat * 10 ^ 6 + s.usec.toNat = t.sec.toNat * 10 ^ 6 + t.usec.toNat := Iff.rfl
  rcases lt_trichotomy s.instant t.instant with hlt | hsame | hgt
  · rw [compare_lt_iff_lt.mpr hlt, order, Ordering.then_eq_lt, compare_lt_iff_lt, compare_eq_iff_eq,
      compare_lt_iff_lt]
    rw [hinstant] at hlt
    omega
  · rw [compare_eq_iff_eq.mpr hsame, order, Ordering.then_eq_eq, compare_eq_iff_eq,
      compare_eq_iff_eq]
    rw [heq] at hsame
    omega
  · rw [compare_gt_iff_gt.mpr hgt, order, Ordering.then_eq_gt, compare_gt_iff_gt, compare_eq_iff_eq,
      compare_gt_iff_gt]
    rw [hinstant] at hgt
    omega

theorem exists_shift (t : IdmefTime) {sec : ℕ} (h : 0 ≤ sec + t.shift) (hlt : sec < 2 ^ 32)
    (hlt' : sec + t.shift < 2 ^ 32) :
    ∃ s : IdmefTime, s.sec.toNat = sec ∧ s.usec = 0 ∧ s.shift = t.shift := by
  have hsec : (UInt32.ofNat sec).toNat = sec := UInt32.toNat_ofNat_of_lt' hlt
  refine ⟨⟨.ofNat sec, 0, t.gmtOffset⟩, hsec, rfl, ?_⟩
  unfold shift shifted at h hlt' ⊢
  simp only [UInt32.toNat_add, hsec] at h hlt' ⊢
  omega

theorem orders_of_subsingleton {shifts : Set ℤ}
    (h : ∀ s ∈ withShifts shifts, ∀ t ∈ withShifts shifts, s.shift = t.shift) :
    OrdersInstants (withShifts shifts) := by
  have hinstant : ∀ s ∈ withShifts shifts, ∀ t ∈ withShifts shifts,
      idmefTimeCompare (some s) (some t) = signOf (compare s.instant t.instant) :=
    fun s hs t ht => by rw [idmefTimeCompare_eq, order_of_shift (h s hs t ht) hs.1 ht.1]
  have hle : ∀ s ∈ withShifts shifts, ∀ t ∈ withShifts shifts,
      (idmefTimeCompare (some s) (some t) ≤ 0 ↔ s.instant ≤ t.instant) := fun s hs t ht => by
    rw [hinstant s hs t ht, ← Nat.compare_ne_gt]
    cases compare s.instant t.instant <;> decide
  refine ⟨hinstant, fun s hs t ht => ?_, fun s hs t ht u hu hst htu => ?_,
    fun s hs t ht u hu hsec husec => ?_⟩
  · rw [hle s hs t ht, hle t ht s hs]
    exact Nat.le_total _ _
  · rw [hle s hs t ht] at hst
    rw [hle t ht u hu] at htu
    exact (hle s hs u hu).mpr (hst.trans htu)
  · rw [hinstant s hs u hu, hinstant t ht u hu, instant, hsec, husec]
    rfl

/-- The comparison orders the instants of the times with offsets of a set just if those offsets are
all the same. -/
theorem time_compare_iff (shifts : Set ℤ) : OrdersInstants (withShifts shifts) ↔
    ∀ s ∈ withShifts shifts, ∀ t ∈ withShifts shifts, s.shift = t.shift := by
  refine ⟨fun h s hs t ht => ?_, orders_of_subsingleton⟩
  wlog hlt : t.shift < s.shift generalizing s t
  · by_contra hne
    exact hne (this t ht s hs (by omega)).symm
  -- times whose clocks are as early as these offsets allow
  have hrange (u : IdmefTime) : 0 ≤ u.sec.toNat + u.shift ∧ u.sec.toNat + u.shift < 2 ^ 32 := by
    have := u.shifted.toNat_lt
    unfold shift
    omega
  have hs' := hrange s
  have ht' := hrange t
  have hsec := s.sec.toNat_lt
  have htsec := t.sec.toNat_lt
  obtain ⟨s', hs₁, hs₂, hs₃⟩ := @exists_shift s (-s.shift).toNat (by omega) (by omega) (by omega)
  obtain ⟨t', ht₁, ht₂, ht₃⟩ := @exists_shift t (-t.shift).toNat (by omega) (by omega) (by omega)
  have hmem : s' ∈ withShifts shifts := ⟨by rw [hs₂]; decide, hs₃ ▸ hs.2⟩
  have hmem' : t' ∈ withShifts shifts := ⟨by rw [ht₂]; decide, ht₃ ▸ ht.2⟩
  have hcompare := h.instant s' hmem t' hmem'
  rw [idmefTimeCompare_eq] at hcompare
  have hcompare := signOf_inj hcompare
  have hclock (u : IdmefTime) : (u.shifted.toNat : ℤ) = u.sec.toNat + u.shift := by
    unfold shift
    omega
  have hclock₁ := hclock s'
  have hclock₂ := hclock t'
  rw [hs₁, hs₃] at hclock₁
  rw [ht₁, ht₃] at hclock₂
  unfold instant at hcompare
  rw [order, hs₁, hs₂, ht₁, ht₂] at hcompare
  rcases lt_or_ge 0 s.shift with hpos | hneg
  · rw [compare_gt_iff_gt.mpr (by omega), Ordering.gt_then, eq_comm, compare_gt_iff_gt] at hcompare
    omega
  · rw [compare_eq_iff_eq.mpr (by omega), Ordering.eq_then, compare_eq_iff_eq.mpr rfl, eq_comm,
      compare_eq_iff_eq] at hcompare
    omega

/-- A time is found to be after one that comes a thousand seconds later, since its offset is an
hour. -/
theorem time_compare_offset :
    ¬ ∀ s t : IdmefTime, idmefTimeCompare (some s) (some t) =
      signOf (compare s.instant t.instant) := by
  intro h
  have h := h ⟨1000, 0, 3600⟩ ⟨2000, 0, 0⟩
  revert h
  decide

end LibPrelude
