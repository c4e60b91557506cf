import Mathlib.Data.Int.ConditionallyCompleteOrder
import LibPrelude.Criteria.BrokenDownTime

/-! # Days of the calendar

The broken-down time of a number of seconds has each field in its range, and counting its
days, hours, minutes and seconds gives the number again.
-/

namespace LibPrelude

namespace Calendar

variable {day year year' mon mon' d d' : ℤ}

def monthLength (year mon : ℤ) : ℤ := (monthDays year).getD mon.toNat 0

def monthStart (year mon : ℤ) : ℤ :=
  daysBeforeYear year + ((monthDays year).take mon.toNat).sum

theorem daysBeforeYear_succ (year : ℤ) :
    daysBeforeYear (year + 1) = daysBeforeYear year + 365 + if leap year then 1 else 0 := by
  by_cases h : leap year
  · have hleap := h
    simp only [leap, decide_eq_true_eq] at hleap
    rw [if_pos h, daysBeforeYear, daysBeforeYear]
    omega
  · have hleap := h
    simp only [leap, decide_eq_true_eq] at hleap
    rw [if_neg h, daysBeforeYear, daysBeforeYear]
    omega

theorem sum_monthDays (year : ℤ) :
    (monthDays year).sum = daysBeforeYear (year + 1) - daysBeforeYear year := by
  rw [daysBeforeYear_succ]
  by_cases h : leap year
  · simp [monthDays, h]
    omega
  · simp [monthDays, h]

theorem monthDays_bounds (year : ℤ) : ∀ d ∈ monthDays year, 0 < d ∧ d ≤ 31 := by
  intro d hd
  by_cases h : leap year
  · simp [monthDays, h] at hd
    omega
  · simp [monthDays, h] at hd
    omega

theorem monthOf_spec {ds : List ℤ} (hds : ∀ d ∈ ds, 0 < d ∧ d ≤ 31) (hday : 0 ≤ day)
    (hlt : day < ds.sum) (first : ℤ) :
    ∃ k < ds.length, (monthOf day first ds).1 = first + k ∧
      (ds.take k).sum + (monthOf day first ds).2 = day ∧ 0 ≤ (monthOf day first ds).2 ∧
      (monthOf day first ds).2 < ds.getD k 0 := by
  induction ds generalizing day first with
  | nil =>
    simp at hlt
    omega
  | cons d ds ih =>
    have hd := hds d (by simp)
    rw [monthOf]
    by_cases hin : day < d
    · rw [if_pos hin]
      exact ⟨0, by simp, by simp, by simp, hday, hin⟩
    · rw [if_neg hin]
      rw [List.sum_cons] at hlt
      obtain ⟨k, hk, hmon, hsum, hlow, hhigh⟩ :=
        @ih (day - d) (fun d hd => hds d (List.mem_cons_of_mem _ hd)) (by omega) (by omega)
          (first + 1)
      refine ⟨k + 1, by simpa using hk, by rw [hmon]; push_cast; omega, ?_, hlow, hhigh⟩
      rw [List.take_succ_cons, List.sum_cons]
      omega

theorem daysBeforeYear_lower (k : ℕ) : 365 * (k : ℤ) ≤ daysBeforeYear (1970 + k) := by
  induction k with
  | zero => decide
  | succ k ih =>
    have h := daysBeforeYear_succ (1970 + k)
    push_cast at ih ⊢
    rw [← add_assoc, h]
    split_ifs
    · omega
    · omega

theorem yearOf_spec (hday : daysBeforeYear year ≤ day) (n : ℕ)
    (hfuel : day < daysBeforeYear (year + n + 1)) :
    year ≤ yearOf day year n ∧ yearOf day year n ≤ year + n ∧
      daysBeforeYear (yearOf day year n) ≤ day ∧ day < daysBeforeYear (yearOf day year n + 1) := by
  induction n generalizing year with
  | zero =>
    simp only [yearOf, Nat.cast_zero, add_zero] at hfuel ⊢
    exact ⟨le_rfl, le_rfl, hday, hfuel⟩
  | succ n ih =>
    rw [yearOf]
    by_cases hnext : daysBeforeYear (year + 1) ≤ day
    · rw [if_pos hnext]
      have hfuel' : day < daysBeforeYear (year + 1 + n + 1) := by
        rwa [show year + 1 + n + 1 = year + (n + 1 : ℕ) + 1 by push_cast; ring]
      obtain ⟨h₁, h₂, h₃, h₄⟩ := ih hnext hfuel'
      exact ⟨by omega, by push_cast; omega, h₃, h₄⟩
    · rw [if_neg hnext]
      exact ⟨le_rfl, by push_cast; omega, hday, by omega⟩

theorem daysBeforeYear_strictMono : StrictMono daysBeforeYear := by
  apply strictMono_int_of_lt_succ
  intro year
  rw [daysBeforeYear_succ]
  split_ifs
  · omega
  · omega

theorem daysBeforeYear_cycle (year k : ℤ) :
    daysBeforeYear (year + 400 * k) = daysBeforeYear year + 146097 * k := by
  rw [daysBeforeYear, daysBeforeYear]
  omega

theorem year_unique (hlow : daysBeforeYear year ≤ day) (hhigh : day < daysBeforeYear (year + 1))
    (hlow' : daysBeforeYear year' ≤ day) (hhigh' : day < daysBeforeYear (year' + 1)) :
    year = year' := by
  have h := daysBeforeYear_strictMono.lt_iff_lt.mp (hlow.trans_lt hhigh')
  have h' := daysBeforeYear_strictMono.lt_iff_lt.mp (hlow'.trans_lt hhigh)
  omega

theorem sum_take_add_le {ds : List ℤ} (hds : ∀ d ∈ ds, 0 < d ∧ d ≤ 31) {i j : ℕ} (hij : i < j)
    (hj : j ≤ ds.length) : (ds.take i).sum + ds.getD i 0 ≤ (ds.take j).sum := by
  induction ds generalizing i j with
  | nil =>
    simp at hj
    omega
  | cons d ds ih =>
    obtain ⟨j, rfl⟩ := Nat.exists_eq_add_of_lt (i.zero_le.trans_lt hij)
    rw [Nat.zero_add, List.take_succ_cons, List.sum_cons]
    have hds' : ∀ d ∈ ds, 0 < d ∧ d ≤ 31 := fun d hd => hds d (List.mem_cons_of_mem _ hd)
    cases i with
    | zero =>
      have hpos : 0 ≤ (ds.take j).sum :=
        List.sum_nonneg fun d hd => (hds' d (List.mem_of_mem_take hd)).1.le
      simpa using hpos
    | succ i =>
      have h := ih hds' (show i < j by omega) (by simpa using hj)
      rw [List.take_succ_cons, List.sum_cons, List.getD_cons_succ]
      omega

theorem sum_take_nonneg (year : ℤ) (k : ℕ) : 0 ≤ ((monthDays year).take k).sum :=
  List.sum_nonneg fun d hd => (monthDays_bounds year d (List.mem_of_mem_take hd)).1.le

theorem monthStart_bounds (hmon : 0 ≤ mon ∧ mon < 12) (hd : 1 ≤ d ∧ d ≤ monthLength year mon) :
    daysBeforeYear year ≤ monthStart year mon + d - 1 ∧
      monthStart year mon + d - 1 < daysBeforeYear (year + 1) := by
  have hnonneg := sum_take_nonneg year mon.toNat
  have hle := sum_take_add_le (monthDays_bounds year) (show mon.toNat < 12 by omega) le_rfl
  have hsum := sum_monthDays year
  rw [show (monthDays year).take 12 = monthDays year from rfl] at hle
  rw [monthLength] at hd
  rw [monthStart]
  omega

theorem date_unique (hmon : 0 ≤ mon ∧ mon < 12) (hd : 1 ≤ d ∧ d ≤ monthLength year mon)
    (hmon' : 0 ≤ mon' ∧ mon' < 12) (hd' : 1 ≤ d' ∧ d' ≤ monthLength year' mon') :
    monthStart year mon + d = monthStart year' mon' + d' ↔
      year = year' ∧ mon = mon' ∧ d = d' := by
  constructor
  · intro h
    have hb := monthStart_bounds hmon hd
    have hb' := monthStart_bounds hmon' hd'
    obtain rfl : year = year' :=
      year_unique hb.1 hb.2 (by omega) (by omega)
    have hlt : ∀ {m m' e e' : ℤ}, 0 ≤ m → m < m' → m' < 12 → e ≤ monthLength year m → 1 ≤ e' →
        monthStart year m + e < monthStart year m' + e' := by
      intro m m' e e' hm hmm hm' he he'
      have hle := sum_take_add_le (monthDays_bounds year)
        (show m.toNat < m'.toNat by omega) (show m'.toNat ≤ 12 by omega)
      rw [monthLength] at he
      rw [monthStart, monthStart]
      omega
    obtain hmm | rfl | hmm := lt_trichotomy mon mon'
    · exact absurd h (hlt hmon.1 hmm hmon'.2 hd.2 hd'.1).ne
    · exact ⟨rfl, rfl, by omega⟩
    · exact absurd h.symm (hlt hmon'.1 hmm hmon.2 hd'.2 hd.1).ne
  · rintro ⟨rfl, rfl, rfl⟩
    rfl

end Calendar

open Calendar

structure Tm.InRange (tm : Tm) : Prop where
  sec : 0 ≤ tm.sec ∧ tm.sec < 60
  min : 0 ≤ tm.min ∧ tm.min < 60
  hour : 0 ≤ tm.hour ∧ tm.hour < 24
  mday : 1 ≤ tm.mday ∧ tm.mday ≤ 31
  mon : 0 ≤ tm.mon ∧ tm.mon < 12
  year : 70 ≤ tm.year ∧ tm.year ≤ 206

def calendarTime (s : ℤ) : Tm :=
  let day := s / 86400
  let rem := s % 86400
  let year := yearOf day (1970 + 400 * (day / 146097)) 400
  let yday := day - daysBeforeYear year
  let (mon, mday) := monthOf yday 0 (monthDays year)
  { sec := rem % 60, min := rem / 60 % 60, hour := rem / 3600, mday := mday + 1, mon := mon,
    year := year - 1900, wday := (day + 4) % 7, yday := yday }

theorem calendarTime_year (s : ℤ) :
    daysBeforeYear ((calendarTime s).year + 1900) ≤ s / 86400 ∧
      s / 86400 < daysBeforeYear ((calendarTime s).year + 1900 + 1) := by
  have hzero : daysBeforeYear 1970 = 0 := by decide
  have hcycle := daysBeforeYear_cycle 1970 (s / 86400 / 146097)
  have hcycle' := daysBeforeYear_cycle 1970 (s / 86400 / 146097 + 1)
  have hmono := daysBeforeYear_strictMono
    (show 1970 + 400 * (s / 86400 / 146097 + 1) < 1970 + 400 * (s / 86400 / 146097) + 400 + 1 by
      omega)
  have hyear : (calendarTime s).year + 1900 =
      yearOf (s / 86400) (1970 + 400 * (s / 86400 / 146097)) 400 := by
    simp [calendarTime]
  obtain ⟨-, -, h₃, h₄⟩ := @yearOf_spec (s / 86400) (1970 + 400 * (s / 86400 / 146097))
    (by omega) 400 (by push_cast; omega)
  rw [hyear]
  exact ⟨h₃, h₄⟩

theorem calendarTime_month (s : ℤ) :
    (0 ≤ (calendarTime s).mon ∧ (calendarTime s).mon < 12) ∧
      (1 ≤ (calendarTime s).mday ∧
        (calendarTime s).mday ≤
          monthLength ((calendarTime s).year + 1900) (calendarTime s).mon) ∧
      monthStart ((calendarTime s).year + 1900) (calendarTime s).mon +
        ((calendarTime s).mday - 1) = s / 86400 := by
  obtain ⟨hlow, hhigh⟩ := calendarTime_year s
  have hyear : (calendarTime s).year + 1900 =
      yearOf (s / 86400) (1970 + 400 * (s / 86400 / 146097)) 400 := by
    simp [calendarTime]
  generalize hy : (calendarTime s).year + 1900 = y at hlow hhigh hyear ⊢
  obtain ⟨k, hk, hmon, hsum, h₁, h₂⟩ := monthOf_spec (monthDays_bounds y)
    (show 0 ≤ s / 86400 - daysBeforeYear y by omega) (by rw [sum_monthDays]; omega) 0
  have hm : (calendarTime s).mon =
      (monthOf (s / 86400 - daysBeforeYear y) 0 (monthDays y)).1 := by
    rw [hyear]
    rfl
  have hd : (calendarTime s).mday =
      (monthOf (s / 86400 - daysBeforeYear y) 0 (monthDays y)).2 + 1 := by
    rw [hyear]
    rfl
  have hk' : k < 12 := hk
  have hnat : (0 + (k : ℤ)).toNat = k := by omega
  rw [hm, hd, hmon, monthLength, monthStart, hnat]
  omega

/-- The fields of a broken-down time that the calendar has. -/
structure Tm.Calendric (tm : Tm) : Prop where
  sec : 0 ≤ tm.sec ∧ tm.sec < 60
  min : 0 ≤ tm.min ∧ tm.min < 60
  hour : 0 ≤ tm.hour ∧ tm.hour < 24
  mon : 0 ≤ tm.mon ∧ tm.mon < 12
  mday : 1 ≤ tm.mday ∧ tm.mday ≤ monthLength (tm.year + 1900) tm.mon

theorem calendarTime_calendric (s : ℤ) : (calendarTime s).Calendric := by
  obtain ⟨hmon, hmday, -⟩ := calendarTime_month s
  have hsec : (calendarTime s).sec = s % 86400 % 60 := rfl
  have hmin : (calendarTime s).min = s % 86400 / 60 % 60 := rfl
  have hhour : (calendarTime s).hour = s % 86400 / 3600 := rfl
  constructor
  · omega
  · omega
  · omega
  · exact hmon
  · exact hmday

/-- The broken-down time counts as many seconds as it was made of. -/
theorem timegm_calendarTime (s : ℤ) : timegm (calendarTime s) = s := by
  obtain ⟨hmon, -, hday⟩ := calendarTime_month s
  have hsec : (calendarTime s).sec = s % 86400 % 60 := rfl
  have hmin : (calendarTime s).min = s % 86400 / 60 % 60 := rfl
  have hhour : (calendarTime s).hour = s % 86400 / 3600 := rfl
  have hzero : (calendarTime s).mon / 12 = 0 := by omega
  have hmod : (calendarTime s).mon % 12 = (calendarTime s).mon := by omega
  rw [monthStart] at hday
  simp only [timegm, hzero, hmod, add_zero]
  omega

theorem gmtime_year (sec : UInt32) :
    70 ≤ (gmtime sec).year ∧ (gmtime sec).year ≤ 206 ∧
      daysBeforeYear ((gmtime sec).year + 1900) ≤ (sec.toNat : ℤ) / 86400 ∧
      (sec.toNat : ℤ) / 86400 < daysBeforeYear ((gmtime sec).year + 1900 + 1) := by
  have hsec := sec.toNat_lt
  have hlower := daysBeforeYear_lower (sec.toNat / 31536000 + 1)
  have hzero : daysBeforeYear 1970 = 0 := by decide
  obtain ⟨h₁, h₂, h₃, h₄⟩ := @yearOf_spec ((sec.toNat : ℤ) / 86400) 1970 (by omega)
    (sec.toNat / 31536000) (by push_cast at hlower ⊢; rw [← add_assoc] at hlower; omega)
  have hyear : (gmtime sec).year + 1900 =
      yearOf ((sec.toNat : ℤ) / 86400) 1970 (sec.toNat / 31536000) := by
    simp [gmtime]
  rw [hyear]
  exact ⟨by omega, by omega, h₃, h₄⟩

theorem gmtime_eq (sec : UInt32) : gmtime sec = calendarTime sec.toNat := by
  obtain ⟨-, -, h₁, h₂⟩ := gmtime_year sec
  obtain ⟨h₃, h₄⟩ := calendarTime_year sec.toNat
  have hyear := year_unique h₁ h₂ h₃ h₄
  have hg : (gmtime sec).year + 1900 =
      yearOf ((sec.toNat : ℤ) / 86400) 1970 (sec.toNat / 31536000) := by
    simp [gmtime]
  have hc : (calendarTime sec.toNat).year + 1900 =
      yearOf ((sec.toNat : ℤ) / 86400) (1970 + 400 * ((sec.toNat : ℤ) / 86400 / 146097)) 400 := by
    simp [calendarTime]
  rw [hg, hc] at hyear
  simp only [gmtime, calendarTime, hyear]

theorem monthLength_le (hmon : 0 ≤ mon ∧ mon < 12) : monthLength year mon ≤ 31 := by
  have hlt : mon.toNat < (monthDays year).length := show mon.toNat < 12 by omega
  rw [monthLength, List.getD_eq_getElem?_getD, List.getElem?_eq_getElem hlt, Option.getD_some]
  exact (monthDays_bounds year _ (List.getElem_mem hlt)).2

theorem gmtime_inRange (sec : UInt32) : (gmtime sec).InRange := by
  obtain ⟨h₁, h₂, -, -⟩ := gmtime_year sec
  have h := calendarTime_calendric sec.toNat
  rw [← gmtime_eq] at h
  exact ⟨h.sec, h.min, h.hour, ⟨h.mday.1, h.mday.2.trans (monthLength_le h.mon)⟩, h.mon, h₁, h₂⟩

theorem timegm_gmtime (sec : UInt32) : timegm (gmtime sec) = sec.toNat := by
  rw [gmtime_eq, timegm_calendarTime]

end LibPrelude
