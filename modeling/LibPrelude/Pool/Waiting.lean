import LibPrelude.Pool.Polling

/-! # The time a call waits

The time left is given to `select` in seconds and milliseconds where it expects microseconds, so
it gives up early unless whole seconds are left. A round that handles nothing takes the time
it read off what is left, which is nothing when it was shorter than a millisecond.
-/

namespace LibPrelude.Polling

def Tv.micros (t : Tv) : ℤ := t.sec * 1000000 + t.usec

/-- The difference of two readings is that in whole milliseconds, as an `int`. -/
theorem timevalSubtract_gettimeofday (x y : ℤ) :
    timevalSubtract (gettimeofday x) (gettimeofday y) = toInt ((x - y) / 1000) := by
  simp only [timevalSubtract, gettimeofday]
  by_cases hlt : x % 1000000 < y % 1000000
  · have hnsec : (y % 1000000 - x % 1000000).tdiv 1000000 = 0 :=
      Int.tdiv_eq_zero_of_lt (by omega) (by omega)
    simp only [hlt, if_true, hnsec]
    rw [if_neg (by omega)]
    dsimp only
    rw [Int.tdiv_eq_ediv_of_nonneg (by omega)]
    congr 1
    omega
  · simp only [hlt, if_false]
    rw [if_neg (by omega)]
    dsimp only
    rw [Int.tdiv_eq_ediv_of_nonneg (by omega)]
    congr 1
    omega

theorem toInt_eq {x : ℤ} (h₀ : 0 ≤ x) (h : x < 2 ^ 31) : toInt x = x :=
  Int.bmod_eq_of_le (by omega) (by omega)

theorem toInt_le {x : ℤ} (h : 0 ≤ x) : toInt x ≤ x := by
  rw [toInt, Int.bmod_def]
  split <;> omega

/-- `select` does not give up before the time it was given. -/
def Honest (o : Outside) (w₀ : Wait) : Prop :=
  ∀ k w ds now, waits o w₀ k = some (w, ds) → o.select w.selects = .timeout now →
    w.ts + (selectTime w.timeout).micros ≤ now

/-- A call with a time limit in milliseconds tells `select` the time left, which gets less with each
round, and does not return without events before its time. -/
structure Timely (o : Outside) (p : Pool) (t : ℤ) : Prop where
  select : ∀ k w ds, waits o (start o p t) k = some (w, ds) →
    (selectTime w.timeout).usec < 1000000 ∧ (selectTime w.timeout).micros = w.timeout * 1000
  waited : Honest o (start o p t) → ∀ k w ds now ds', waits o (start o p t) k = some (w, ds) →
    step o w = some (.returned 0 now, ds') → t * 1000 ≤ now - o.clock 0
  decreases : ∀ k w ds w' ds', waits o (start o p t) k = some (w, ds) →
    step o w = some (.waiting w', ds') → 0 < w'.timeout ∧ w'.timeout < w.timeout
  ends : ∃ k, waits o (start o p t) k = none

/-- Whole seconds are left, the clock does not go back where it is read, and a round that leads to
another one takes a millisecond, and less than an `int` of them. -/
structure Whole (o : Outside) (w : Wait) : Prop where
  seconds : w.timeout % 1000 = 0
  forth : ∀ fds, o.select w.selects = .ready fds → w.ts ≤ o.clock w.readings
  round : ∀ w' ds, step o w = some (.waiting w', ds) →
    w.ts + 1000 ≤ o.clock w.readings ∧ o.clock w.readings < w.ts + 2 ^ 31 * 1000 ∧
      o.clock w.readings ≤ o.clock (w.readings + 1)

theorem selectTime_of_seconds {timeout : ℤ} (h : 0 < timeout) (hs : timeout % 1000 = 0) :
    (selectTime timeout).usec < 1000000 ∧ (selectTime timeout).micros = timeout * 1000 := by
  simp only [selectTime, if_pos h, Tv.micros]
  omega

section Step

variable {o : Outside} {w w' : Wait} {ds : List Dispatch}

theorem step_waiting (ht : 0 < w.timeout) (h : step o w = some (.waiting w', ds)) :
    w'.timeout = w.timeout - toInt ((o.clock w.readings - w.ts) / 1000) ∧
      toInt ((o.clock w.readings - w.ts) / 1000) < w.timeout ∧
      w'.ts = o.clock (w.readings + 1) ∧ w'.readings = w.readings + 2 := by
  rw [step] at h
  cases hs : o.select w.selects with
  | error e =>
    rw [hs] at h
    cases h
  | timeout now =>
    rw [hs] at h
    dsimp only at h
    rw [if_neg (by omega)] at h
    cases h
  | ready fds =>
    rw [hs] at h
    dsimp only at h
    obtain ⟨p, -, hout⟩ := Option.map_eq_some_iff.mp h
    rw [if_neg (by omega), timevalSubtract_gettimeofday] at hout
    split at hout
    next hr =>
      cases hout
      exact ⟨rfl, hr.2, rfl, rfl⟩
    next => cases hout

theorem step_returned {now : ℤ} (ht : 0 < w.timeout)
    (h : step o w = some (.returned 0 now, ds)) : o.select w.selects = .timeout now ∨
      ((∃ fds, o.select w.selects = .ready fds) ∧ now = o.clock w.readings ∧
        w.timeout ≤ toInt ((o.clock w.readings - w.ts) / 1000)) := by
  rw [step] at h
  cases hs : o.select w.selects with
  | error e =>
    rw [hs] at h
    cases h
  | timeout now' =>
    rw [hs] at h
    dsimp only at h
    rw [if_neg (by omega)] at h
    cases h
    exact .inl rfl
  | ready fds =>
    rw [hs] at h
    dsimp only at h
    obtain ⟨p, -, hout⟩ := Option.map_eq_some_iff.mp h
    rw [if_neg (by omega), timevalSubtract_gettimeofday] at hout
    split at hout
    next => cases hout
    next hr =>
      obtain ⟨hout, -⟩ := Prod.mk.inj hout
      obtain ⟨hi, rfl⟩ := Outcome.returned.inj hout
      exact .inr ⟨⟨fds, rfl⟩, rfl, not_lt.mp fun hlt => hr ⟨hi, hlt⟩⟩

end Step

section Run

variable {o : Outside} {p : Pool} {t : ℤ}

/-- What holds whenever a call waits: the time left is the limit less at most the time since the
start, and less than the limit by a millisecond or more for each round. -/
structure Left (o : Outside) (t : ℤ) (k : ℕ) (w : Wait) : Prop where
  pos : 0 < w.timeout
  elapsed : (t - w.timeout) * 1000 ≤ w.ts - o.clock 0
  rounds : w.timeout + k ≤ t

theorem left_of_waits (ht : 0 < t)
    (h : ∀ k w ds, waits o (start o p t) k = some (w, ds) → Whole o w) {k : ℕ} {w : Wait}
    {ds : List Dispatch} (hw : waits o (start o p t) k = some (w, ds)) : Left o t k w := by
  induction k generalizing w ds with
  | zero =>
    cases hw
    exact ⟨ht, by simp [start], by simp [start]⟩
  | succ k ih =>
    obtain ⟨⟨w₁, ds₁⟩, h₁, hw⟩ := Option.bind_eq_some_iff.mp hw
    dsimp only at hw
    split at hw
    next hs =>
      cases hw
      obtain ⟨hpos, helapsed, hrounds⟩ := ih h₁
      obtain ⟨-, -, hround⟩ := h k w₁ ds₁ h₁
      obtain ⟨htime, hlt, hts, -⟩ := step_waiting hpos hs
      have hr := hround _ _ hs
      rw [toInt_eq (by omega) (by omega)] at htime hlt
      refine ⟨by omega, ?_, ?_⟩
      · rw [hts]
        omega
      · push_cast
        omega
    next => cases hw

/-- A call that always has whole seconds left, and none of whose rounds is shorter than a
millisecond, waits for the time it was given. -/
theorem timely_of_whole (o : Outside) (p : Pool) (t : ℤ) (ht : 0 < t)
    (h : ∀ k w ds, waits o (start o p t) k = some (w, ds) → Whole o w) : Timely o p t := by
  refine ⟨?_, ?_, ?_, ?_⟩
  · intro k w ds hw
    exact selectTime_of_seconds (left_of_waits ht h hw).pos (h k w ds hw).seconds
  · intro hsel k w ds now ds' hw hs
    have hleft := left_of_waits ht h hw
    have helapsed := hleft.elapsed
    rcases step_returned hleft.pos hs with hto | ⟨⟨fds, hready⟩, rfl, hle⟩
    · have hnow := hsel k w ds now hw hto
      rw [(selectTime_of_seconds hleft.pos (h k w ds hw).seconds).2] at hnow
      omega
    · have hle' := hle.trans (toInt_le (by have := (h k w ds hw).forth fds hready; omega))
      omega
  · intro k w ds w' ds' hw hs
    have hleft := left_of_waits ht h (waits_succ hw hs)
    have hpos := (left_of_waits ht h hw).pos
    obtain ⟨htime, hlt, -, -⟩ := step_waiting hpos hs
    have hr := (h k w ds hw).round _ _ hs
    rw [toInt_eq (by omega) (by omega)] at htime
    exact ⟨hleft.pos, by omega⟩
  · refine ⟨t.toNat, ?_⟩
    by_contra hne
    obtain ⟨⟨w, ds⟩, hw⟩ := Option.ne_none_iff_exists'.mp hne
    have hleft := left_of_waits ht h hw
    have := hleft.pos
    have := hleft.rounds
    omega

end Run

/-- After a second a connection is readable whose callback fails, and after another `select` gives
up. -/
def failsThenSilent : Outside where
  select k := if k = 0 then .ready {5} else .timeout 2000000
  clock k := if k = 0 then 0 else 1000000
  callback _ _ := (-1, .done)

theorem timely_two_rounds :
    (∃ w ds, waits failsThenSilent (start failsThenSilent onePool 2000) 1 = some (w, ds) ∧
      ds ≠ []) ∧ Timely failsThenSilent onePool 2000 := by
  obtain ⟨w₁, ds₁, hs, hts, htimeout, hselects, hds⟩ :
      ∃ w ds, step failsThenSilent (start failsThenSilent onePool 2000) =
        some (.waiting w, ds) ∧ w.ts = 1000000 ∧ w.timeout = 1000 ∧ w.selects = 1 ∧ ds ≠ [] :=
    ⟨_, _, rfl, rfl, rfl, rfl, List.cons_ne_nil _ _⟩
  have hw₁ := waits_succ (show waits failsThenSilent _ 0 = _ from rfl) hs
  have hlast : step failsThenSilent w₁ = some (.returned 0 2000000, []) := by
    rw [step, hselects, htimeout]
    rfl
  refine ⟨⟨w₁, ds₁, hw₁, hds⟩,
    timely_of_whole failsThenSilent onePool 2000 (by decide) ?_⟩
  rintro (- | - | k) w ds hw
  · cases hw
    refine ⟨by decide, fun _ _ => by decide, ?_⟩
    intro w' ds hs'
    decide
  · cases hw₁.symm.trans hw
    refine ⟨by rw [htimeout]; decide, ?_, ?_⟩
    · intro fds hready
      rw [hselects] at hready
      cases hready
    · intro w' ds hs'
      cases hlast.symm.trans hs'
  · rw [show k + 1 + 1 = 1 + 1 + k by omega, waits_of_returned hw₁ hlast] at hw
    cases hw

def silent (now : ℤ) : Outside := ⟨fun _ => .timeout now, fun _ => 0, fun _ _ => (0, .done)⟩

/-- With 1.5 seconds left `select` is given 1.0005. -/
theorem not_timely_half : ¬ Timely (silent 1000500) onePool 1500 := by
  intro h
  have hhonest : Honest (silent 1000500) (start (silent 1000500) onePool 1500) := by
    rintro (- | k) w ds now hw ⟨⟩
    · cases hw
      decide
    · obtain ⟨v, es, hv, -⟩ := waits_prefix (Nat.add_comm k 1 ▸ hw)
      cases hv
  have := h.waited hhonest 0 _ [] 1000500 [] rfl rfl
  exact absurd this (by decide)

end LibPrelude.Polling
