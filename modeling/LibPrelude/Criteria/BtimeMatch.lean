import LibPrelude.Criteria.BtimeText
import LibPrelude.Criteria.Negation

/-! # Criteria on broken-down times

The hour of a criterion is moved to Greenwich and compared there with the fields of the message.
This is the comparison in the offset when the hour does not become negative and the days that are
written move with it, or without an hour when the offset makes no difference to what is written.
-/

namespace LibPrelude

open Calendar BtimeField

def Operator.ComparesBtime (op : Operator) : Prop :=
  op.substr = false ∧ op.regex = false ∧ op.null = false ∧ op.and = false ∧ op.or = false ∧
    op.nocase = false

namespace BtimeExpr

/-- The fields that are written are those of an instant in the offset. -/
def Fits (e : BtimeExpr) (gmtOffset : ℤ) (sec : UInt32) : Prop :=
  ∀ f n, e.written f = some n → f ≠ gmtoff →
    f.get (calendarTime (sec.toNat + e.offset gmtOffset)) = n

/-- What is written, where the fields that are not are -1. -/
def stated (e : BtimeExpr) : Tm where
  sec := (e.written sec).getD (-1)
  min := (e.written min).getD (-1)
  hour := (e.written hour).getD (-1)
  mday := (e.written mday).getD (-1)
  mon := (e.written month).getD (-1)
  year := (e.written year).getD (-1)
  wday := (e.written wday).getD (-1)
  yday := (e.written yday).getD (-1)

/-- The day that a time counts as when the fields of the date that are not written are left out. -/
def dayOf (e : BtimeExpr) (tm : Tm) : ℤ := (applyMask e.stated tm).day

/-- Without an hour, nothing that is written tells the offset from Greenwich. -/
structure KeptWithoutHour (e : BtimeExpr) (gmtOffset s : ℤ) : Prop where
  apart : e.stated.CountsApart (calendarTime s)
  fields : ∀ f n, e.written f = some n → f ≠ gmtoff →
    (f.get (calendarTime s) = n ↔ f.get (calendarTime (s + e.offset gmtOffset)) = n)

/-- The hour that is written moves by the offset without becoming negative, and at that hour the
days that are written move with it. -/
structure KeptWithHour (e : BtimeExpr) (order : ByteOrder) (gmtOffset s h : ℤ) : Prop where
  offset : e.offset gmtOffset = 3600 * e.shift order gmtOffset
  lower : 0 ≤ h - e.shift order gmtOffset
  upper : h - e.shift order gmtOffset < 2 ^ 31
  apart : e.stated.CountsApart (calendarTime (s + e.offset gmtOffset))
  date : (calendarTime (s + e.offset gmtOffset)).hour = h →
    (e.dayOf (calendarTime s) + ((s + e.offset gmtOffset) / 86400 - s / 86400) = e.stated.day ↔
      e.dayOf (calendarTime (s + e.offset gmtOffset)) = e.stated.day)
  days : (calendarTime (s + e.offset gmtOffset)).hour = h → ∀ f n, f = wday ∨ f = yday →
    e.written f = some n →
      (f.get (calendarTime s) = n ↔ f.get (calendarTime (s + e.offset gmtOffset)) = n)

/-- The years that are written are stored, and at a time the offset makes no difference but to the
hour. -/
structure Kept (e : BtimeExpr) (order : ByteOrder) (gmtOffset : ℤ) (sec : UInt32) : Prop where
  year : ∀ y, e.written year = some y → 0 ≤ y
  withoutHour : e.written hour = none → e.KeptWithoutHour gmtOffset sec.toNat
  withHour : ∀ h, e.written hour = some h → e.KeptWithHour order gmtOffset sec.toNat h

end BtimeExpr

section

variable {e : BtimeExpr} {order : ByteOrder} {gmtOffset s k : ℤ} {comp tm : Tm} {t : IdmefTime}

theorem calendarTime_hours (s k : ℤ) : (calendarTime (s + 3600 * k)).min = (calendarTime s).min ∧
    (calendarTime (s + 3600 * k)).sec = (calendarTime s).sec := by
  have hmin : ∀ s, (calendarTime s).min = s % 86400 / 60 % 60 := fun _ => rfl
  have hsec : ∀ s, (calendarTime s).sec = s % 86400 % 60 := fun _ => rfl
  rw [hmin, hmin, hsec, hsec]
  omega

theorem get_stated (e : BtimeExpr) {f : BtimeField} (hf : f ≠ gmtoff) :
    f.get e.stated = (e.written f).getD (-1) := by
  cases f <;> first | rfl | exact absurd rfl hf

theorem written_nonneg (hyear : ∀ y, e.written year = some y → 0 ≤ y) {f : BtimeField} {n : ℤ}
    (hw : e.written f = some n) (hf : f ≠ gmtoff) : 0 ≤ n := by
  have hvalid := written_valid hw
  cases f with
  | year => exact hyear n hw
  | gmtoff => exact absurd rfl hf
  | mday => exact hvalid.1.trans' (by decide)
  | month => exact hvalid.1
  | wday => exact hvalid.1
  | yday => exact hvalid.1
  | hour => exact hvalid.1
  | min => exact hvalid.1
  | sec => exact hvalid.1

theorem stated_agrees_iff (hyear : ∀ y, e.written year = some y → 0 ≤ y) :
    e.stated.Agrees tm ↔ ∀ f n, e.written f = some n → f ≠ gmtoff → f.get tm = n := by
  constructor
  · intro hagree f n hw hf
    have hvalue := get_stated e hf
    rw [hw, Option.getD_some] at hvalue
    have hn := written_nonneg hyear hw hf
    rw [hagree f (by omega), hvalue]
  · intro hfits f hf
    have hoff : f ≠ gmtoff := by
      rintro rfl
      exact hf rfl
    have hvalue := get_stated e hoff
    cases hw : e.written f with
    | none =>
      rw [hw] at hvalue
      exact absurd hvalue hf
    | some n =>
      rw [hw, Option.getD_some] at hvalue
      rw [hvalue]
      exact hfits f n hw hoff

theorem stated_proper (hyear : ∀ y, e.written year = some y → 0 ≤ y) : e.stated.Proper ∧
    (e.stated.hour = -1 ∨ 0 ≤ e.stated.hour ∧ e.stated.hour < 24) ∧ -1 ≤ e.stated.wday ∧
      -1 ≤ e.stated.yday := by
  have hcase : ∀ f, f ≠ gmtoff → f.get e.stated = -1 ∨
      f.Valid (f.get e.stated) ∧ 0 ≤ f.get e.stated := by
    intro f hf
    have hvalue := get_stated e hf
    cases hw : e.written f with
    | none => exact .inl (by rw [hvalue, hw]; rfl)
    | some n =>
      rw [hw, Option.getD_some] at hvalue
      rw [hvalue]
      exact .inr ⟨written_valid hw, written_nonneg hyear hw hf⟩
  have hmonth := hcase month (by decide)
  have hmday := hcase mday (by decide)
  have hyear' := hcase year (by decide)
  have hhour := hcase hour (by decide)
  have hmin := hcase min (by decide)
  have hsec := hcase sec (by decide)
  have hwday := hcase wday (by decide)
  have hyday := hcase yday (by decide)
  simp only [BtimeField.get, BtimeField.Valid] at hmonth hmday hyear' hhour hmin hsec hwday hyday
  exact ⟨⟨by omega, by omega, by omega, by omega, by omega⟩, by omega, by omega, by omega⟩

theorem btimeMatch_iff {value : Option ValueType} :
    btimeMatch comp criterionEqual value = .ok 1 ↔
      doBtimeMatch comp criterionEqual value = 1 := by
  have hnot : criterionEqual.not = false := rfl
  by_cases hone : doBtimeMatch comp criterionEqual value = 1
  · simp [btimeMatch, hone, hnot]
  · simp only [btimeMatch, hone, hnot, Bool.false_eq_true, if_false, iff_false]
    split_ifs
    · simp
    · simp

/-- What parsing makes of an expression is what is written, but for the hour. -/
theorem btimeParse_stated (e : BtimeExpr) (order : ByteOrder) (gmtOffset : ℤ) :
    ∃ x, btimeParse order gmtOffset e.text = some { e.stated with hour := x } ∧
      (e.written hour = none → x = -1) ∧ ∀ h, e.written hour = some h →
        x = Int.bmod (h - e.shift order gmtOffset) (2 ^ 32) := by
  obtain ⟨tm, hparse, hget, hhour⟩ := btimeParse_text e order gmtOffset
  refine ⟨tm.hour, ?_, fun hw => by rw [hhour, hw], fun h hw => by rw [hhour, hw]⟩
  have hfields : ∀ f, f ≠ gmtoff → f ≠ hour → f.get tm = f.get e.stated :=
    fun f hf hne => (hget f hf hne).trans (get_stated e hf).symm
  have hmonth := hfields month (by decide) (by decide)
  have hmday := hfields mday (by decide) (by decide)
  have hyear := hfields year (by decide) (by decide)
  have hmin := hfields min (by decide) (by decide)
  have hsec := hfields sec (by decide) (by decide)
  have hwday := hfields wday (by decide) (by decide)
  have hyday := hfields yday (by decide) (by decide)
  simp only [BtimeField.get] at hmonth hmday hyear hmin hsec hwday hyday
  rw [hparse]
  simp only [← hmonth, ← hmday, ← hyear, ← hmin, ← hsec, ← hwday, ← hyday]

theorem match_withoutHour (hyear : ∀ y, e.written year = some y → 0 ≤ y)
    (hhour : e.stated.hour = -1) (hapart : e.stated.CountsApart (gmtime t.sec)) :
    doBtimeMatch e.stated criterionEqual (some (.time t)) = 1 ↔
      e.stated.Agrees (gmtime t.sec) := by
  obtain ⟨hproper, -, hwday, hyday⟩ := stated_proper hyear
  have hcalendric : (gmtime t.sec).Calendric := gmtime_eq t.sec ▸ calendarTime_calendric _
  rw [doBtimeMatch_iff hproper hhour.ge hwday hyday, timegm_eq (applyMask _ _),
    seconds_iff hproper (.inl hhour) hcalendric hapart,
    applyMask_day_iff hproper hcalendric hapart, Tm.agrees_iff]
  tauto

/-- With an hour that is not negative when it is moved, the hour is compared in the offset, and so
is the day that it is counted from. -/
theorem match_withHour (hyear : ∀ y, e.written year = some y → 0 ≤ y) (hstated : 0 ≤ e.stated.hour)
    (hlower : 0 ≤ e.stated.hour - k) (hs : s = t.sec.toNat)
    (hapart : e.stated.CountsApart (calendarTime (s + 3600 * k))) :
    doBtimeMatch { e.stated with hour := e.stated.hour - k } criterionEqual (some (.time t)) = 1 ↔
      (e.stated.wday ≠ -1 → (calendarTime s).wday = e.stated.wday) ∧
      (e.stated.yday ≠ -1 → (calendarTime s).yday = e.stated.yday) ∧
      e.dayOf (calendarTime s) + ((s + 3600 * k) / 86400 - s / 86400) = e.stated.day ∧
      (calendarTime (s + 3600 * k)).hour = e.stated.hour ∧
      (e.stated.min ≠ -1 → (calendarTime (s + 3600 * k)).min = e.stated.min) ∧
      (e.stated.sec ≠ -1 → (calendarTime (s + 3600 * k)).sec = e.stated.sec) := by
  obtain ⟨hproper, hrange, hwday, hyday⟩ := stated_proper hyear
  have hproper' : Tm.Proper { e.stated with hour := e.stated.hour - k } :=
    ⟨hproper.mon, hproper.mday, hproper.sec, hproper.min, hproper.year⟩
  rw [doBtimeMatch_iff hproper' (by simp only; omega) hwday hyday, gmtime_eq, ← hs]
  have hparts := seconds_iff hproper hrange (calendarTime_calendric (s + 3600 * k)) hapart
    (e.dayOf (calendarTime s) + ((s + 3600 * k) / 86400 - s / 86400))
  have hmoved : timegm (applyMask { e.stated with hour := e.stated.hour - k } (calendarTime s)) =
      timegm { e.stated with hour := e.stated.hour - k } ↔
      86400 * (e.dayOf (calendarTime s) + ((s + 3600 * k) / 86400 - s / 86400)) +
        3600 * (applyMask e.stated (calendarTime (s + 3600 * k))).hour +
        60 * (applyMask e.stated (calendarTime (s + 3600 * k))).min +
        (applyMask e.stated (calendarTime (s + 3600 * k))).sec = timegm e.stated := by
    have hday : (applyMask { e.stated with hour := e.stated.hour - k } (calendarTime s)).day =
        e.dayOf (calendarTime s) := rfl
    have hH : (applyMask { e.stated with hour := e.stated.hour - k } (calendarTime s)).hour =
        s % 86400 / 3600 := if_neg hlower.not_gt
    have hH' : (applyMask e.stated (calendarTime (s + 3600 * k))).hour =
        (s + 3600 * k) % 86400 / 3600 := if_neg hstated.not_gt
    have hM : (applyMask { e.stated with hour := e.stated.hour - k } (calendarTime s)).min =
        (applyMask e.stated (calendarTime (s + 3600 * k))).min := by
      simp only [applyMask, (calendarTime_hours s k).1]
    have hS : (applyMask { e.stated with hour := e.stated.hour - k } (calendarTime s)).sec =
        (applyMask e.stated (calendarTime (s + 3600 * k))).sec := by
      simp only [applyMask, (calendarTime_hours s k).2]
    have hcomp : timegm { e.stated with hour := e.stated.hour - k } =
        timegm e.stated - 3600 * k := by
      rw [timegm_eq, timegm_eq e.stated]
      simp only [Tm.day]
      ring
    rw [hcomp, timegm_eq (applyMask _ _), hday, hH, hM, hS, hH']
    omega
  rw [hmoved, hparts]
  have hne : e.stated.hour ≠ -1 := by omega
  simp only [hne, ne_eq, not_false_eq_true, forall_const]

theorem match_of_kept (hkept : e.Kept order gmtOffset t.sec)
    (hparse : btimeParse order gmtOffset e.text = some comp) :
    doBtimeMatch comp criterionEqual (some (.time t)) = 1 ↔ e.Fits gmtOffset t.sec := by
  obtain ⟨x, hparse', hnone, hsome⟩ := btimeParse_stated e order gmtOffset
  obtain rfl := Option.some.inj (hparse.symm.trans hparse')
  unfold BtimeExpr.Fits
  rcases hw : e.written hour with _ | h
  · have hhour : e.stated.hour = -1 := by rw [BtimeExpr.stated, hw]; rfl
    obtain ⟨hapart, hfields⟩ := hkept.withoutHour hw
    rw [hnone hw, ← hhour, match_withoutHour hkept.year hhour (by rwa [gmtime_eq]),
      stated_agrees_iff hkept.year, gmtime_eq]
    exact forall₄_congr fun f n hwf hf => hfields f n hwf hf
  · have hhour : e.stated.hour = h := by rw [BtimeExpr.stated, hw]; rfl
    have hvalid := written_valid hw
    obtain ⟨hoffset, hlower, hupper, hapart, hdate, hdays⟩ := hkept.withHour h hw
    rw [hsome h hw, Int.bmod_eq_of_le (by omega) (by omega), ← hhour]
    rw [hoffset] at hapart hdate hdays ⊢
    rw [match_withHour hkept.year (hhour ▸ hvalid.1) (hhour ▸ hlower) rfl hapart, hhour,
      ← stated_agrees_iff hkept.year, Tm.agrees_iff]
    by_cases hL : (calendarTime (t.sec.toNat + 3600 * e.shift order gmtOffset)).hour = h
    · have hdateFields := applyMask_day_iff (stated_proper hkept.year).1
        (calendarTime_calendric (t.sec.toNat + 3600 * e.shift order gmtOffset)) hapart
      have hdate' := (hdate hL).trans hdateFields
      have hday : ∀ f, f = wday ∨ f = yday → ((f.get e.stated ≠ -1 →
          f.get (calendarTime t.sec.toNat) = f.get e.stated) ↔ (f.get e.stated ≠ -1 →
            f.get (calendarTime (t.sec.toNat + 3600 * e.shift order gmtOffset)) =
              f.get e.stated)) := by
        intro f hf
        have hne : f ≠ gmtoff := by rcases hf with rfl | rfl <;> decide
        rw [get_stated e hne]
        rcases hwf : e.written f with _ | n
        · simp
        · rw [Option.getD_some, hdays hL f n hf hwf]
      have hwday := hday wday (.inl rfl)
      have hyday := hday yday (.inr rfl)
      simp only [BtimeField.get] at hwday hyday
      rw [hwday, hyday, hdate', hhour]
      constructor
      · rintro ⟨hw, hy, ⟨hyear, hmon, hmday⟩, -, hmin, hsec⟩
        exact ⟨hsec, hmin, fun _ => hL, hyear, hmon, hmday, hw, hy⟩
      · rintro ⟨hsec, hmin, -, hyear, hmon, hmday, hw, hy⟩
        exact ⟨hw, hy, ⟨hyear, hmon, hmday⟩, hL, hmin, hsec⟩
    · refine iff_of_false (fun hall => hL hall.2.2.2.1) fun hall => hL ?_
      have := hall.2.2.1 (by rw [hhour]; have := hvalid.1; omega)
      rw [this, hhour]

end

/-- A text is accepted with any operator, and it matches the messages whose time has the fields that
are written where the offset is kept. -/
theorem btime_criteria (pl : Platform) (path : IdmefPath)
    (hpath : idmefPathGetValueType path = .time) (e : BtimeExpr) (op : Operator) (t : IdmefTime) :
    ((∀ cv, idmefCriterionValueNewFromString pl path e.text op = .ok cv → op.ComparesBtime) ↔
      op.ComparesBtime) ∧
    (e.Kept pl.order pl.gmtOffset t.sec →
      ∃ cv, idmefCriterionValueNewFromString pl path e.text criterionEqual = .ok cv ∧
        (cv.match pl criterionEqual (some (.time t)) = .ok 1 ↔ e.Fits pl.gmtOffset t.sec)) := by
  obtain ⟨comp, hparse, -, -⟩ := btimeParse_text e pl.order pl.gmtOffset
  have hnew : ∀ op, idmefCriterionValueNewFromString pl path e.text op = .ok (.btime comp) := by
    intro op
    simp only [idmefCriterionValueNewFromString, hpath, if_true, hparse]
  constructor
  · exact ⟨fun h => h _ (hnew op), fun h _ _ => h⟩
  · intro hkept
    refine ⟨_, hnew _, ?_⟩
    rw [CriterionValue.match, btimeMatch_iff]
    exact match_of_kept hkept hparse

def fifthAtTen : BtimeExpr where
  entries :=
    [⟨mday, ascii "5", 5, 0,
        @Denotes.number mday _ 5 (by decide)
          (.plain (by decide) (List.all_eq_true.mp (by decide)) (by decide))
          fun h => absurd rfl h, ⟨by decide, by decide⟩⟩,
      ⟨hour, ascii "22", 22, 0,
        @Denotes.number hour _ 22 (by decide)
          (.plain (by decide) (List.all_eq_true.mp (by decide)) (by decide))
          fun h => absurd rfl h, ⟨by decide, by decide⟩⟩]
  entries_ne := by simp
  distinct := by decide

def westPlatform : Platform := { plainPlatform with gmtOffset := -14400 }

def twoInTheEast : BtimeExpr where
  entries :=
    [⟨hour, ascii "2", 2, 0,
        @Denotes.number hour _ 2 (by decide)
          (.plain (by decide) (List.all_eq_true.mp (by decide)) (by decide))
          fun h => absurd rfl h, ⟨by decide, by decide⟩⟩,
      ⟨gmtoff, ascii "4", 14400, 0,
        @Denotes.offset _ 4 (.plain (by decide) (List.all_eq_true.mp (by decide)) (by decide)),
        ⟨by decide, by decide⟩⟩]
  entries_ne := by simp
  distinct := by decide

/-- Four hours west of Greenwich ten in the evening of the 5th of September is two in the morning of
the 6th in Greenwich. -/
theorem btime_criteria_fifth_at_ten :
    fifthAtTen.Fits westPlatform.gmtOffset 999741600 ∧
    ∃ cv, idmefCriterionValueNewFromString westPlatform analyzerTimePath fifthAtTen.text
        criterionEqual = .ok cv ∧
      (cv.match westPlatform criterionEqual (some (.time ⟨999741600, 0, 0⟩)) = .ok 1 ↔
        fifthAtTen.Fits westPlatform.gmtOffset 999741600) := by
  have hhere : calendarTime ((999741600 : UInt32).toNat : ℤ) = ⟨0, 0, 2, 6, 8, 101, 4, 248⟩ := by
    decide +kernel
  have hthere : calendarTime ((999741600 : UInt32).toNat + fifthAtTen.offset westPlatform.gmtOffset)
      = ⟨0, 0, 22, 5, 8, 101, 3, 247⟩ := by
    decide +kernel
  have hhour : fifthAtTen.written hour = some 22 := by decide
  have hstated : fifthAtTen.stated = ⟨-1, -1, 22, 5, -1, -1, -1, -1⟩ := by decide
  refine ⟨fun f n hw hf => ?_, (btime_criteria westPlatform analyzerTimePath rfl fifthAtTen
    criterionEqual ⟨999741600, 0, 0⟩).2 ⟨fun y hy => ?_, fun h => ?_, fun h hh => ?_⟩⟩
  · rw [hthere]
    cases f <;> first | exact absurd rfl hf | cases hw <;> rfl
  · cases hy
  · rw [hhour] at h
    cases h
  · obtain rfl := Option.some.inj (hhour.symm.trans hh)
    refine ⟨rfl, by decide, by decide, ?_, fun _ => ?_, fun _ f n hf hw => ?_⟩
    · rw [hthere, hstated]
      constructor <;> simp
    · rw [BtimeExpr.dayOf, BtimeExpr.dayOf, hhere, hthere, hstated]
      decide
    · rcases hf with rfl | rfl <;> cases hw

/-- Moved to Greenwich the hour is negative and counts as not written, so that ten o'clock
matches. -/
theorem btime_criteria_ignored_hour :
    ¬ ∀ cv, idmefCriterionValueNewFromString plainPlatform analyzerTimePath twoInTheEast.text
        criterionEqual = .ok cv →
      (cv.match plainPlatform criterionEqual (some (.time ⟨36000, 0, 0⟩)) = .ok 1 ↔
        twoInTheEast.Fits plainPlatform.gmtOffset 36000) := by
  intro h
  have hnew : idmefCriterionValueNewFromString plainPlatform analyzerTimePath twoInTheEast.text
      criterionEqual = .ok (.btime ⟨-1, -1, -2, -1, -1, -1, -1, -1⟩) := rfl
  have hfits := (h _ hnew).mp rfl hour 2 (by decide) (by decide)
  exact absurd hfits (by decide)

end LibPrelude
