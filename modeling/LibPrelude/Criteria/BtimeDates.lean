import LibPrelude.Idmef.Calendar
import Mathlib.Tactic.IntervalCases

/-! # Matching broken-down times

Fields that are not named count as -1 on both sides, so that comparing the numbers of seconds
compares the named fields. A date that does not exist counts on to a later one, and a date
without a year is one of 1899, where the 29th of February counts as the 1st of March.
-/

namespace LibPrelude

open Calendar

/-- The days from the beginning of 1970 to the date of a broken-down time. -/
def Tm.day (tm : Tm) : ℤ := monthStart (tm.year + 1900 + tm.mon / 12) (tm.mon % 12) + tm.mday - 1

/-- A date exists, where a month or a day that is not named is -1. -/
structure Tm.DateExists (tm : Tm) : Prop where
  mon : tm.mon = -1 ∨ 0 ≤ tm.mon ∧ tm.mon < 12
  mday : tm.mday = -1 ∨ 1 ≤ tm.mday ∧ tm.mday ≤ 31
  length : tm.mon ≠ -1 → tm.mday ≤ monthLength (tm.year + 1900) tm.mon

/-- Named fields are in range, but for the hour, which may be moved. -/
structure Tm.Proper (tm : Tm) : Prop where
  mon : tm.mon = -1 ∨ 0 ≤ tm.mon ∧ tm.mon < 12
  mday : tm.mday = -1 ∨ 1 ≤ tm.mday ∧ tm.mday ≤ 31
  sec : tm.sec = -1 ∨ 0 ≤ tm.sec ∧ tm.sec ≤ 60
  min : tm.min = -1 ∨ 0 ≤ tm.min ∧ tm.min < 60
  year : -1 ≤ tm.year

/-- The named fields do not count on to those of a time: a day that its month does not have to the
next month, the 29th of February without a year to the 1st of March, and the second 60 to the
next minute. -/
structure Tm.CountsApart (comp tm : Tm) : Prop where
  date : comp.mon ≠ -1 → monthLength (comp.year + 1900) comp.mon < comp.mday →
    tm.mon = comp.mon + 1 → tm.mday = comp.mday - monthLength (comp.year + 1900) comp.mon →
      comp.year ≠ -1 ∧ tm.year ≠ comp.year
  leapDay : comp.year = -1 → comp.mon = 2 → comp.mday = 1 → tm.mon = 1 → tm.mday ≠ 29
  minute : comp.sec = 60 → comp.min ≠ -1 → tm.sec = 0 → tm.min = comp.min + 1 →
    comp.hour ≠ -1 ∧ tm.hour ≠ comp.hour
  hour : comp.sec = 60 → comp.min = 59 → tm.sec = 0 → tm.min = 0 →
    comp.hour = -1 ∨ tm.hour ≠ comp.hour + 1 ∧ (comp.hour = 23 → tm.hour ≠ 0)

/-- A field of a broken-down time; the offset from Greenwich is none. -/
def BtimeField.get (tm : Tm) : BtimeField → ℤ
  | month => tm.mon
  | wday => tm.wday
  | year => tm.year
  | mday => tm.mday
  | yday => tm.yday
  | hour => tm.hour
  | min => tm.min
  | sec => tm.sec
  | gmtoff => -1

def Tm.Agrees (comp tm : Tm) : Prop :=
  ∀ f : BtimeField, f.get comp ≠ -1 → f.get tm = f.get comp

section

variable {tm tm' comp lt : Tm} {year mon : ℤ}

theorem timegm_eq (tm : Tm) :
    timegm tm = 86400 * tm.day + 3600 * tm.hour + 60 * tm.min + tm.sec := by
  rw [timegm, Tm.day, monthStart]
  omega

theorem monthLength_pos (hmon : 0 ≤ mon ∧ mon < 12) : 1 ≤ monthLength year mon := by
  have hlt : mon.toNat < (monthDays year).length := show mon.toNat < 12 by omega
  rw [monthLength, List.getD_eq_getElem?_getD, List.getElem?_eq_getElem hlt, Option.getD_some]
  exact (monthDays_bounds year _ (List.getElem_mem hlt)).1

theorem monthLength_eq (hmon : 0 ≤ mon ∧ mon < 12) (hfeb : mon ≠ 1) (year' : ℤ) :
    monthLength year mon = monthLength year' mon := by
  obtain ⟨h₀, h₁⟩ := hmon
  interval_cases mon
  all_goals first | rfl | exact absurd rfl hfeb

theorem monthLength_february (year : ℤ) : 28 ≤ monthLength year 1 ∧ monthLength year 1 ≤ 29 := by
  by_cases h : leap year
  · simp [monthLength, monthDays, h]
  · simp [monthLength, monthDays, h]

/-- The date that counts where a month that is not named is the last of the year before. -/
def Tm.countedDate (tm : Tm) : ℤ × ℤ × ℤ :=
  (if tm.mon = -1 then tm.year + 1899 else tm.year + 1900, if tm.mon = -1 then 11 else tm.mon,
    if tm.mday = -1 then 1 else tm.mday)

theorem Tm.DateExists.counted (h : tm.DateExists) :
    (0 ≤ tm.countedDate.2.1 ∧ tm.countedDate.2.1 < 12) ∧
      (1 ≤ tm.countedDate.2.2 ∧
        tm.countedDate.2.2 ≤ monthLength tm.countedDate.1 tm.countedDate.2.1) ∧
      tm.day = monthStart tm.countedDate.1 tm.countedDate.2.1 + tm.countedDate.2.2 -
        if tm.mday = -1 then 3 else 1 := by
  have hdec : ∀ y, monthLength y 11 = 31 := fun _ => rfl
  rcases h.mon with hmon | hmon
  · have hday : tm.day = monthStart (tm.year + 1899) 11 + tm.mday - 1 := by
      rw [Tm.day, hmon]
      congr 3
      omega
    have hmday := h.mday
    simp only [Tm.countedDate, hmon, if_true, hdec, hday]
    split_ifs
    · omega
    · omega
  · have hday : tm.day = monthStart (tm.year + 1900) tm.mon + tm.mday - 1 := by
      rw [Tm.day, show tm.mon / 12 = 0 by omega, show tm.mon % 12 = tm.mon by omega, add_zero]
    have hne : tm.mon ≠ -1 := by omega
    have hlength := h.length hne
    have hpos := @monthLength_pos (tm.year + 1900) tm.mon hmon
    have hmday := h.mday
    simp only [Tm.countedDate, hne, if_false, hday]
    split_ifs
    · omega
    · omega

theorem Tm.DateExists.day_eq_iff (h : tm.DateExists) (h' : tm'.DateExists)
    (hmon : tm.mon = -1 ↔ tm'.mon = -1) (hmday : tm.mday = -1 ↔ tm'.mday = -1) :
    tm.day = tm'.day ↔ tm.year = tm'.year ∧ tm.mon = tm'.mon ∧ tm.mday = tm'.mday := by
  obtain ⟨h₁, h₂, h₃⟩ := h.counted
  obtain ⟨h₁', h₂', h₃'⟩ := h'.counted
  have hunique := date_unique h₁ h₂ h₁' h₂'
  have hrange := h.mon
  have hrange' := h'.mon
  have hday := h.mday
  have hday' := h'.mday
  rw [h₃, h₃']
  simp only [Tm.countedDate, ← hmon, ← hmday] at hunique ⊢
  split_ifs at hunique ⊢
  all_goals omega

theorem mask_eq {a b : ℤ} (h : -1 ≤ a) :
    (if a < 0 then -1 else b) = if a = -1 then -1 else b := by
  congr 1
  apply propext
  omega

theorem masked_eq_iff {a b : ℤ} : (if a = -1 then -1 else b) = a ↔ (a ≠ -1 → b = a) := by
  split_ifs with h
  · simp [h]
  · simp [h]

theorem monthLength_ge (hmon : 0 ≤ mon ∧ mon < 12) : 28 ≤ monthLength year mon := by
  by_cases hfeb : mon = 1
  · exact hfeb ▸ (monthLength_february year).1
  · rw [monthLength_eq hmon hfeb 1900]
    obtain ⟨h₀, h₁⟩ := hmon
    interval_cases mon <;> decide

theorem monthStart_succ (hmon : 0 ≤ mon ∧ mon < 11) :
    monthStart year (mon + 1) = monthStart year mon + monthLength year mon := by
  have hlt : mon.toNat < (monthDays year).length := show mon.toNat < 12 by omega
  rw [monthStart, monthStart, monthLength, show (mon + 1).toNat = mon.toNat + 1 by omega,
    List.getD_eq_getElem?_getD, List.getElem?_eq_getElem hlt, Option.getD_some,
    List.sum_take_succ _ _ hlt]
  omega

def Tm.normal (tm : Tm) : Tm :=
  if tm.mon ≠ -1 ∧ monthLength (tm.year + 1900) tm.mon < tm.mday then
    { tm with mon := tm.mon + 1, mday := tm.mday - monthLength (tm.year + 1900) tm.mon }
  else tm

theorem normal_spec (hmon : tm.mon = -1 ∨ 0 ≤ tm.mon ∧ tm.mon < 12)
    (hmday : tm.mday = -1 ∨ 1 ≤ tm.mday ∧ tm.mday ≤ 31) : tm.normal.DateExists ∧
      tm.normal.day = tm.day ∧ (tm.normal.mon = -1 ↔ tm.mon = -1) ∧
      (tm.normal.mday = -1 ↔ tm.mday = -1) := by
  unfold Tm.normal
  split_ifs with h
  · obtain ⟨hne, hlt⟩ := h
    have hrange : 0 ≤ tm.mon ∧ tm.mon < 12 := hmon.resolve_left hne
    have hdec : tm.mon ≠ 11 := by
      intro hdec
      have : monthLength (tm.year + 1900) 11 = 31 := rfl
      rw [hdec] at hlt
      omega
    have hge := @monthLength_ge (tm.year + 1900) tm.mon hrange
    have hge' := @monthLength_ge (tm.year + 1900) (tm.mon + 1) (by omega)
    have hsucc := @monthStart_succ (tm.year + 1900) tm.mon (by omega)
    refine ⟨⟨.inr (by simp only; omega), .inr (by simp only; omega), fun _ => ?_⟩, ?_, ?_, ?_⟩
    · simp only
      omega
    · simp only [Tm.day, show (tm.mon + 1) / 12 = 0 by omega, show tm.mon / 12 = 0 by omega,
        show (tm.mon + 1) % 12 = tm.mon + 1 by omega, show tm.mon % 12 = tm.mon by omega,
        add_zero, hsucc]
      omega
    · simp only
      omega
    · simp only
      omega
  · exact ⟨⟨hmon, hmday, fun hne => not_lt.mp fun hlt => h ⟨hne, hlt⟩⟩, rfl, Iff.rfl, Iff.rfl⟩

/-- Dates with the same fields named are the same day if they count on to the same date. -/
theorem day_eq_normal (hmon : tm.mon = -1 ∨ 0 ≤ tm.mon ∧ tm.mon < 12)
    (hmday : tm.mday = -1 ∨ 1 ≤ tm.mday ∧ tm.mday ≤ 31)
    (hmon' : tm'.mon = -1 ∨ 0 ≤ tm'.mon ∧ tm'.mon < 12)
    (hmday' : tm'.mday = -1 ∨ 1 ≤ tm'.mday ∧ tm'.mday ≤ 31)
    (hm : tm.mon = -1 ↔ tm'.mon = -1) (hd : tm.mday = -1 ↔ tm'.mday = -1) :
    tm.day = tm'.day ↔ tm.normal.year = tm'.normal.year ∧ tm.normal.mon = tm'.normal.mon ∧
      tm.normal.mday = tm'.normal.mday := by
  obtain ⟨hexists, hday, hm₁, hd₁⟩ := normal_spec hmon hmday
  obtain ⟨hexists', hday', hm₁', hd₁'⟩ := normal_spec hmon' hmday'
  rw [← hday, ← hday', hexists.day_eq_iff hexists' (by rw [hm₁, hm₁', hm]) (by rw [hd₁, hd₁', hd])]

theorem parts_unique {D D' H H' M M' S S' : ℤ} (hH : -24 < H - H' ∧ H - H' < 24)
    (hM : -60 < M - M' ∧ M - M' < 60) (hS : -60 ≤ S - S' ∧ S - S' < 60)
    (hminute : S - S' = -60 → M = M' + 1 → H ≠ H')
    (hhour : S - S' = -60 → M - M' = -59 → H ≠ H' + 1 ∧ H - H' ≠ -23) :
    86400 * D + 3600 * H + 60 * M + S = 86400 * D' + 3600 * H' + 60 * M' + S' ↔
      D = D' ∧ H = H' ∧ M = M' ∧ S = S' := by
  omega

theorem named_ne_iff {a b : ℤ} (h : -1 ≤ a) :
    0 ≤ a ∧ (if a < 0 then -1 else b) ≠ a ↔ a ≠ -1 ∧ b ≠ a := by
  rw [mask_eq h]
  split_ifs
  · omega
  · omega

theorem Tm.Proper.lower (h : comp.Proper) : -1 ≤ comp.sec ∧ -1 ≤ comp.min ∧
    -1 ≤ comp.mday ∧ -1 ≤ comp.mon ∧ -1 ≤ comp.year := by
  have h₁ := h.sec
  have h₂ := h.min
  have h₄ := h.mday
  have h₅ := h.mon
  have h₆ := h.year
  omega

/-- Of the masked dates only the 29th of February without a year does not exist. -/
theorem applyMask_overflow (h : comp.Proper) (hlt : lt.Calendric)
    (hmon : (applyMask comp lt).mon ≠ -1)
    (hlength : monthLength ((applyMask comp lt).year + 1900) (applyMask comp lt).mon <
      (applyMask comp lt).mday) :
    comp.year = -1 ∧ comp.mon ≠ -1 ∧ comp.mday ≠ -1 ∧ lt.mon = 1 ∧ lt.mday = 29 := by
  obtain ⟨-, -, hmday, hmon', hyear⟩ := h.lower
  have hltmon := hlt.mon
  have hltmday := hlt.mday
  simp only [applyMask, mask_eq hmday, mask_eq hmon', mask_eq hyear] at hmon hlength
  by_cases hm : comp.mon = -1
  · simp [hm] at hmon
  rw [if_neg hm] at hlength
  have hge := @monthLength_ge ((if comp.year = -1 then -1 else lt.year) + 1900) lt.mon hltmon
  by_cases hd : comp.mday = -1
  · rw [if_pos hd] at hlength
    omega
  rw [if_neg hd] at hlength
  by_cases hy : comp.year = -1
  · rw [if_pos hy] at hlength
    by_cases hone : lt.mon = 1
    · have hplain : monthLength (-1 + 1900) 1 = 28 := rfl
      have hleap := (monthLength_february (lt.year + 1900)).2
      rw [hone] at hlength hltmday
      exact ⟨hy, hm, hd, hone, by omega⟩
    · rw [monthLength_eq hltmon hone (lt.year + 1900)] at hlength
      omega
  · rw [if_neg hy] at hlength
    omega

/-- The masked dates are the same day just if the named fields of the date agree. -/
theorem applyMask_day_iff (h : comp.Proper) (hlt : lt.Calendric) (hapart : comp.CountsApart lt) :
    (applyMask comp lt).day = comp.day ↔ (comp.year ≠ -1 → lt.year = comp.year) ∧
      (comp.mon ≠ -1 → lt.mon = comp.mon) ∧ (comp.mday ≠ -1 → lt.mday = comp.mday) := by
  obtain ⟨-, -, hmday, hmon, hyear⟩ := h.lower
  have hltmon := hlt.mon
  have hltmday := hlt.mday
  have h31 : monthLength (lt.year + 1900) lt.mon ≤ 31 := monthLength_le hlt.mon
  have hplain : monthLength (-1 + 1900) 1 = 28 := rfl
  have hM : (applyMask comp lt).mon = if comp.mon = -1 then -1 else lt.mon := mask_eq hmon
  have hD : (applyMask comp lt).mday = if comp.mday = -1 then -1 else lt.mday := mask_eq hmday
  have hY : (applyMask comp lt).year = if comp.year = -1 then -1 else lt.year := mask_eq hyear
  have hoverflow := applyMask_overflow h hlt
  rw [day_eq_normal (by rw [hM]; split_ifs <;> omega) (by rw [hD]; split_ifs <;> omega) h.mon
    h.mday (by rw [hM]; split_ifs <;> omega) (by rw [hD]; split_ifs <;> omega)]
  unfold Tm.normal
  split_ifs with hmask hcomp hcomp
  · -- Both are the 29th of February without a year, or the named date is another one.
    obtain ⟨hy, hm, hd, hone, h29⟩ := hoverflow hmask.1 hmask.2
    obtain ⟨-, hlength⟩ := hcomp
    rw [if_pos hy] at hY
    rw [if_neg hm, hone] at hM
    rw [if_neg hd, h29] at hD
    rw [hy] at hlength
    simp only [hY, hM, hD, hy, hone, h29, hplain]
    constructor
    · rintro ⟨-, hmon', hmday'⟩
      have hfeb : comp.mon = 1 := by omega
      rw [hfeb, hplain] at hmday'
      exact ⟨fun h => absurd rfl h, fun _ => by omega, fun _ => by omega⟩
    · rintro ⟨-, hmon', hmday'⟩
      rw [← hmon' hm, ← hmday' hd, hplain]
      exact ⟨trivial, rfl, rfl⟩
  · -- The date counts as the 1st of March, which is not the named one.
    obtain ⟨hy, hm, hd, hone, h29⟩ := hoverflow hmask.1 hmask.2
    rw [if_pos hy] at hY
    rw [if_neg hm, hone] at hM
    rw [if_neg hd, h29] at hD
    simp only [hY, hM, hD, hy, hone, h29, hplain]
    constructor
    · rintro ⟨-, hmon', hmday'⟩
      exact absurd h29 (hapart.leapDay hy (by omega) (by omega) hone)
    · rintro ⟨-, hmon', hmday'⟩
      refine absurd ⟨hm, ?_⟩ hcomp
      rw [hy, ← hmon' hm, ← hmday' hd, hplain]
      decide
  · -- The named date counts on to one that is not the date of the time.
    obtain ⟨hm, hlength⟩ := hcomp
    have hge := @monthLength_ge (comp.year + 1900) comp.mon (h.mon.resolve_left hm)
    have hd : comp.mday ≠ -1 := by omega
    rw [if_neg hm] at hM
    rw [if_neg hd] at hD
    simp only [hY, hM, hD]
    constructor
    · rintro ⟨hyear', hmon', hmday'⟩
      obtain ⟨hy, hne⟩ := hapart.date hm hlength hmon' hmday'
      rw [if_neg hy] at hyear'
      exact absurd hyear' hne
    · rintro ⟨hyear', hmon', hmday'⟩
      refine absurd ⟨by rw [hM]; omega, ?_⟩ hmask
      have hyear'' : (applyMask comp lt).year = comp.year := by
        rw [hY]
        split_ifs with hy
        · exact hy.symm
        · exact hyear' hy
      rw [hyear'', hM, hD, hmon' hm, hmday' hd]
      exact hlength
  · rw [hY, hM, hD, masked_eq_iff, masked_eq_iff, masked_eq_iff]

theorem Tm.agrees_iff : comp.Agrees lt ↔ (comp.sec ≠ -1 → lt.sec = comp.sec) ∧
    (comp.min ≠ -1 → lt.min = comp.min) ∧ (comp.hour ≠ -1 → lt.hour = comp.hour) ∧
    (comp.year ≠ -1 → lt.year = comp.year) ∧ (comp.mon ≠ -1 → lt.mon = comp.mon) ∧
    (comp.mday ≠ -1 → lt.mday = comp.mday) ∧ (comp.wday ≠ -1 → lt.wday = comp.wday) ∧
    (comp.yday ≠ -1 → lt.yday = comp.yday) := by
  constructor
  · intro h
    exact ⟨h .sec, h .min, h .hour, h .year, h .month, h .mday, h .wday, h .yday⟩
  · rintro ⟨hsec, hmin, hhour, hyear, hmon, hmday, hwday, hyday⟩ f hf
    cases f with
    | gmtoff => exact absurd rfl hf
    | month => exact hmon hf
    | wday => exact hwday hf
    | year => exact hyear hf
    | mday => exact hmday hf
    | yday => exact hyday hf
    | hour => exact hhour hf
    | min => exact hmin hf
    | sec => exact hsec hf

theorem integerCompare_equal (matched wanted : ℤ) :
    integerCompare matched wanted criterionEqual = 1 ↔ matched = wanted := by
  by_cases h : matched = wanted
  · simp [integerCompare, criterionEqual, h]
  · simp [integerCompare, criterionEqual, h]

theorem seconds_iff (h : comp.Proper) (hhour : comp.hour = -1 ∨ 0 ≤ comp.hour ∧ comp.hour < 24)
    (hlt : lt.Calendric) (hapart : comp.CountsApart lt) (x : ℤ) :
    86400 * x + 3600 * (applyMask comp lt).hour + 60 * (applyMask comp lt).min +
        (applyMask comp lt).sec = timegm comp ↔
      x = comp.day ∧ (comp.hour ≠ -1 → lt.hour = comp.hour) ∧
        (comp.min ≠ -1 → lt.min = comp.min) ∧ (comp.sec ≠ -1 → lt.sec = comp.sec) := by
  obtain ⟨hsec, hmin, -⟩ := h.lower
  have hS : (applyMask comp lt).sec = if comp.sec = -1 then -1 else lt.sec := mask_eq hsec
  have hM : (applyMask comp lt).min = if comp.min = -1 then -1 else lt.min := mask_eq hmin
  have hH : (applyMask comp lt).hour = if comp.hour = -1 then -1 else lt.hour :=
    mask_eq (by omega)
  have h₁ := h.sec
  have h₂ := h.min
  have h₁' := hlt.sec
  have h₂' := hlt.min
  have h₃' := hlt.hour
  have hminute := hapart.minute
  have hhours := hapart.hour
  rw [timegm_eq, parts_unique (by rw [hH]; split_ifs <;> omega)
    (by rw [hM]; split_ifs <;> omega) (by rw [hS]; split_ifs <;> omega)
    (by rw [hS, hM, hH]; split_ifs <;> omega) (by rw [hS, hM, hH]; split_ifs <;> omega),
    hS, hM, hH, masked_eq_iff, masked_eq_iff, masked_eq_iff]

theorem needFullCompare_eq_false (h : needFullCompare comp = false) (hlower : comp.Proper)
    (hhour : -1 ≤ comp.hour) (lt : Tm) : timegm (applyMask comp lt) = timegm comp := by
  obtain ⟨h₁, h₂, h₄, h₅, h₆⟩ := hlower.lower
  rw [needFullCompare, decide_eq_false_iff_not] at h
  have hsec : comp.sec = -1 := by omega
  have hmin : comp.min = -1 := by omega
  have hmday : comp.mday = -1 := by omega
  have hmon : comp.mon = -1 := by omega
  have hyear : comp.year = -1 := by omega
  have hh : comp.hour = -1 := by omega
  simp [timegm, applyMask, hsec, hmin, hmday, hmon, hyear, hh]

/-- A time matches just if the named days are those of the message's and the numbers of seconds
are the same. -/
theorem doBtimeMatch_iff (h : comp.Proper) (hhour : -1 ≤ comp.hour) (hwday : -1 ≤ comp.wday)
    (hyday : -1 ≤ comp.yday) (t : IdmefTime) :
    doBtimeMatch comp criterionEqual (some (.time t)) = 1 ↔
      (comp.wday ≠ -1 → (gmtime t.sec).wday = comp.wday) ∧
        (comp.yday ≠ -1 → (gmtime t.sec).yday = comp.yday) ∧
        timegm (applyMask comp (gmtime t.sec)) = timegm comp := by
  have hop : (if needFullCompare comp = true then { criterionEqual with equal := true }
      else criterionEqual) = criterionEqual := by
    split_ifs
    · rfl
    · rfl
  have hwd : 0 ≤ comp.wday ∧ (applyMask comp (gmtime t.sec)).wday ≠ comp.wday ↔
      comp.wday ≠ -1 ∧ (gmtime t.sec).wday ≠ comp.wday := named_ne_iff hwday
  have hyd : 0 ≤ comp.yday ∧ (applyMask comp (gmtime t.sec)).yday ≠ comp.yday ↔
      comp.yday ≠ -1 ∧ (gmtime t.sec).yday ≠ comp.yday := named_ne_iff hyday
  have hday : ∀ {matched wanted : ℤ}, 0 ≤ wanted ∧
      integerCompare matched wanted criterionEqual ≠ 1 ↔ 0 ≤ wanted ∧ matched ≠ wanted := by
    intro matched wanted
    rw [ne_eq, integerCompare_equal]
  simp only [doBtimeMatch, hop, hday, hwd, hyd]
  by_cases hw : comp.wday ≠ -1 ∧ (gmtime t.sec).wday ≠ comp.wday
  · rw [if_pos hw]
    exact iff_of_false (by decide) fun hagree => hw.2 (hagree.1 hw.1)
  by_cases hy : comp.yday ≠ -1 ∧ (gmtime t.sec).yday ≠ comp.yday
  · rw [if_neg hw, if_pos hy]
    exact iff_of_false (by decide) fun hagree => hy.2 (hagree.2.1 hy.1)
  have hw' : comp.wday ≠ -1 → (gmtime t.sec).wday = comp.wday := by simpa using hw
  have hy' : comp.yday ≠ -1 → (gmtime t.sec).yday = comp.yday := by simpa using hy
  rw [if_neg hw, if_neg hy]
  cases hfull : needFullCompare comp with
  | false =>
    rw [if_pos (by simp)]
    exact iff_of_true rfl ⟨hw', hy', needFullCompare_eq_false hfull h hhour _⟩
  | true =>
    rw [if_neg (by simp), integerCompare_equal]
    exact ⟨fun h => ⟨hw', hy', h⟩, fun h => h.2.2⟩

end

end LibPrelude
