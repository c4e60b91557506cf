import LibPrelude.Pool.Operations

/-! # Polling

A program's own callback is told of each connection that is readable. A round counts a
connection before its callback and takes that back unless the callback failed with a positive
answer, so what it counts are these failures and not the events handled.
-/

namespace LibPrelude.Polling

/-- What `select` answers; when it gives up, also what time it is then. -/
inductive Select where
  | error (e : ErrorCode)
  | timeout (now : ℤ)
  | ready (fds : Finset ℕ)

/-- What is outside of a call: the answers of `select`, the readings of the clock in microseconds,
and what the callback answers and does. -/
structure Outside where
  select : ℕ → Select
  clock : ℕ → ℤ
  callback : ℕ → ℕ → ℤ × Reaction

structure Tv where
  sec : ℤ
  usec : ℤ

def gettimeofday (t : ℤ) : Tv := ⟨t / 1000000, t % 1000000⟩

def toInt (x : ℤ) : ℤ := Int.bmod x (2 ^ 32)

def timevalSubtract (x y : Tv) : ℤ :=
  let y := if x.usec < y.usec then
      let nsec := (y.usec - x.usec).tdiv 1000000 + 1
      { sec := y.sec + nsec, usec := y.usec - 1000000 * nsec }
    else y
  let y := if x.usec - y.usec > 1000000 then
      let nsec := (x.usec - y.usec).tdiv 1000000
      { sec := y.sec - nsec, usec := y.usec + 1000000 * nsec }
    else y
  toInt ((x.sec - y.sec) * 1000 + (x.usec - y.usec).tdiv 1000)

/-- The time that `select` is given. -/
def selectTime (timeout : ℤ) : Tv :=
  if timeout > 0 then ⟨timeout / 1000, timeout % 1000⟩
  else ⟨if timeout < 0 then 1 else 0, 0⟩

/-- A connection whose input event was passed to the callback: the answer, whether the connection
was alive after it, and the pool that the check leaves. -/
structure Dispatch where
  cnx : ℕ
  answer : ℤ
  alive : Bool
  pool : Pool

def Dispatch.Failed (d : Dispatch) : Prop := d.answer < 0 ∨ d.alive = false

instance (d : Dispatch) : Decidable d.Failed :=
  inferInstanceAs (Decidable (_ ∨ _))

/-- The answer of `checkConnectionEvent`. -/
def Dispatch.ret (d : Dispatch) : ℤ := if d.Failed then d.answer else 0

section Source

variable (callback : ℕ → ℕ → ℤ × Reaction)

def checkConnectionEvent (c : ℕ) (p : Pool) : Dispatch :=
  let (answer, reaction) := callback p.ticks c
  let p := react reaction p.tick
  let alive := (p.cnx c).established
  { cnx := c
    answer
    alive
    pool := if answer < 0 ∨ alive = false then setStateDead c false p else p }

/-- Walk through an AND of connections; an answer of 1 ends it. -/
def checkAnd (rfds : Finset ℕ) : List ℕ → ℕ → Pool → ℕ × List Dispatch × Pool
  | [], i, p => (i, [], p)
  | c :: cs, i, p =>
    if (p.cnx c).established ∧ (p.cnx c).fd ∈ rfds then
      let d := checkConnectionEvent callback c p
      if d.ret = 1 then (i + 1, [d], d.pool)
      else
        let (i, ds, p) := checkAnd rfds cs (if d.ret ≤ 0 then i else i + 1) d.pool
        (i, d :: ds, p)
    else checkAnd rfds cs i p

def checkOr (rfds : Finset ℕ) : List (List ℕ) → ℕ → Pool → ℕ × List Dispatch × Pool
  | [], i, p => (i, [], p)
  | l :: ls, i, p =>
    let (i, ds, p) := checkAnd callback rfds l i p
    let (i, ds', p) := checkOr rfds ls i p
    (i, ds ++ ds', p)

end Source

/-- A call that is about to wait: the time left, the start of the round, whether there was an event
in a round before, and how many answers of `select` and readings of the clock it has used. -/
structure Wait where
  pool : Pool
  timeout : ℤ
  ts : ℤ
  globalEvent : Bool
  selects : ℕ
  readings : ℕ

inductive Outcome where
  | failed (e : ErrorCode)
  | returned (i : ℕ) (now : ℤ)
  | waiting (w : Wait)

/-- One `select` of `connection_pool_check_event` and what follows it, with what was dispatched. -/
def step (o : Outside) (w : Wait) : Option (Outcome × List Dispatch) :=
  match o.select w.selects with
  | .error e => some (.failed e, [])
  | .timeout now =>
    if w.timeout = -1 then some (.waiting { w with selects := w.selects + 1 }, [])
    else some (.returned 0 now, [])
  | .ready fds =>
    let (i, ds, p) :=
      checkOr o.callback (fds ∩ w.pool.fds) (w.pool.orList.map CnxList.and) 0 w.pool
    let globalEvent := w.globalEvent || ¬ ds.isEmpty
    let p := if globalEvent then react (p.env.poolHandler p.ticks) p.tick else p
    let p := if p.connectionStringChanged then (preludeConnectionPoolInit p).map Prod.snd
      else some p
    p.map fun p =>
      if w.timeout = -1 ∧ i = 0 then
        (.waiting ⟨p, w.timeout, o.clock w.readings, globalEvent, w.selects + 1, w.readings + 1⟩,
          ds)
      else
        let te := o.clock w.readings
        let ret := timevalSubtract (gettimeofday te) (gettimeofday w.ts)
        if i = 0 ∧ ret < w.timeout then
          (.waiting ⟨p, w.timeout - ret, o.clock (w.readings + 1), globalEvent, w.selects + 1,
            w.readings + 2⟩, ds)
        else (.returned i te, ds)

def start (o : Outside) (p : Pool) (timeout : ℤ) : Wait := ⟨p, timeout, o.clock 0, false, 0, 1⟩

/-- The call after so many times of waiting, while it has not returned, with all that was
dispatched. -/
def waits (o : Outside) (w : Wait) : ℕ → Option (Wait × List Dispatch)
  | 0 => some (w, [])
  | k + 1 => (waits o w k).bind fun (w, ds) => match step o w with
    | some (.waiting w, ds') => some (w, ds ++ ds')
    | _ => none

def Dispatched (o : Outside) (w : Wait) (d : Dispatch) : Prop :=
  ∃ k w' ds out ds', waits o w k = some (w', ds) ∧ step o w' = some (out, ds') ∧ d ∈ ds'

def Returns (o : Outside) (w : Wait) (n : ℕ) (all : List Dispatch) : Prop :=
  ∃ k w' ds ds' now, waits o w k = some (w', ds) ∧ step o w' = some (.returned n now, ds') ∧
    all = ds ++ ds'

/-- What a call returns is the number of connections whose event was handled without error, and it
does not wait again after one of them, so that it cannot end in an error either; a connection that
fails is declared dead and not counted. -/
structure Counts (o : Outside) (p : Pool) (timeout : ℤ) : Prop where
  returned : ∀ n all, Returns o (start o p timeout) n all → n = all.countP (¬ ·.Failed)
  waiting : ∀ k w ds, waits o (start o p timeout) k = some (w, ds) → ∀ d ∈ ds, d.Failed
  failed : ∀ d, Dispatched o (start o p timeout) d → d.Failed →
    (d.pool.cnx d.cnx).fd ∉ d.pool.fds ∧ d.ret ≤ 0

section Round

variable {callback : ℕ → ℕ → ℤ × Reaction} {rfds : Finset ℕ}

theorem fd_checkConnectionEvent {c : ℕ} {p : Pool}
    (h : (checkConnectionEvent callback c p).Failed) :
    ((checkConnectionEvent callback c p).pool.cnx (checkConnectionEvent callback c p).cnx).fd ∉
      (checkConnectionEvent callback c p).pool.fds := by
  have hpool : (checkConnectionEvent callback c p).pool =
      setStateDead c false (react (callback p.ticks c).2 p.tick) := if_pos h
  rw [hpool]
  exact Finset.notMem_erase _ _

def ofHandler (env : Env) (ticks c : ℕ) : ℤ × Reaction :=
  match env.handler ticks .input c with
  | (.ok (), r) => (0, r)
  | (.error _, r) => (-1, r)

/-- Without a callback the pool's handler is asked, as in a step of a pool. -/
theorem checkConnectionEvent_ofHandler (c : ℕ) (p : Pool) :
    (checkConnectionEvent (ofHandler p.env) c p).pool = LibPrelude.checkConnectionEvent c p := by
  rw [checkConnectionEvent, LibPrelude.checkConnectionEvent, eventHandler, ofHandler]
  rcases p.env.handler p.ticks .input c with ⟨- | -, r⟩ <;> simp

theorem checkAnd_spec (cs : List ℕ) (i : ℕ) (p : Pool) :
    (checkAnd callback rfds cs i p).1 =
        i + (checkAnd callback rfds cs i p).2.1.countP (0 < ·.ret) ∧
      ∀ d ∈ (checkAnd callback rfds cs i p).2.1, d.Failed → (d.pool.cnx d.cnx).fd ∉ d.pool.fds := by
  induction cs generalizing i p with
  | nil => simp [checkAnd]
  | cons c cs ih =>
    rw [checkAnd]
    split
    · have hd := @fd_checkConnectionEvent callback c p
      generalize checkConnectionEvent callback c p = d at hd ⊢
      dsimp only
      split
      next h1 =>
        refine ⟨by simp [h1], ?_⟩
        rintro d' hd'
        rw [List.mem_singleton.mp hd']
        exact hd
      next h1 =>
        have hj : (if d.ret ≤ 0 then i else i + 1) = i + if 0 < d.ret then 1 else 0 := by
          split <;> split <;> omega
        obtain ⟨hcount, hfail⟩ := ih (i + if 0 < d.ret then 1 else 0) d.pool
        rw [hj]
        refine ⟨?_, List.forall_mem_cons.mpr ⟨hd, hfail⟩⟩
        rw [List.countP_cons, hcount]
        simp only [decide_eq_true_eq]
        ring
    · exact ih i p

theorem checkOr_spec (ls : List (List ℕ)) (i : ℕ) (p : Pool) :
    (checkOr callback rfds ls i p).1 =
        i + (checkOr callback rfds ls i p).2.1.countP (0 < ·.ret) ∧
      ∀ d ∈ (checkOr callback rfds ls i p).2.1, d.Failed → (d.pool.cnx d.cnx).fd ∉ d.pool.fds := by
  induction ls generalizing i p with
  | nil => simp [checkOr]
  | cons l ls ih =>
    obtain ⟨hcount, hfail⟩ := @checkAnd_spec callback rfds l i p
    obtain ⟨hcount', hfail'⟩ := ih (checkAnd callback rfds l i p).1
      (checkAnd callback rfds l i p).2.2
    simp only [checkOr]
    refine ⟨?_, ?_⟩
    · rw [hcount', hcount, List.countP_append, Nat.add_assoc]
    · intro d hd
      rcases List.mem_append.mp hd with hd | hd
      · exact hfail d hd
      · exact hfail' d hd

end Round

section Run

variable {o : Outside} {w w' w₀ : Wait} {out : Outcome} {ds : List Dispatch}

/-- What a step counts are the failures with positive answers, and it waits on only without. -/
theorem step_spec (h : step o w = some (out, ds)) :
    (∀ d ∈ ds, d.Failed → (d.pool.cnx d.cnx).fd ∉ d.pool.fds) ∧ match out with
      | .failed _ => ds = []
      | .returned i _ => i = ds.countP (0 < ·.ret)
      | .waiting _ => ds.countP (0 < ·.ret) = 0 := by
  rw [step] at h
  cases hs : o.select w.selects with
  | error e =>
    rw [hs] at h
    cases h
    simp
  | timeout now =>
    rw [hs] at h
    dsimp only at h
    split at h <;> cases h <;> simp
  | ready fds =>
    rw [hs] at h
    dsimp only at h
    obtain ⟨hcount, hfail⟩ := @checkOr_spec o.callback (fds ∩ w.pool.fds)
      (w.pool.orList.map CnxList.and) 0 w.pool
    rw [Nat.zero_add] at hcount
    obtain ⟨p, -, hout⟩ := Option.map_eq_some_iff.mp h
    split at hout
    next hz =>
      cases hout
      exact ⟨hfail, hcount.symm.trans hz.2⟩
    next hz =>
      split at hout
      next hr =>
        cases hout
        exact ⟨hfail, hcount.symm.trans hr.1⟩
      next hr =>
        cases hout
        exact ⟨hfail, hcount⟩

theorem waits_prefix {k j : ℕ} (h : waits o w₀ (k + j) = some (w', ds)) :
    ∃ w ds₀, waits o w₀ k = some (w, ds₀) ∧ ds₀ <+: ds := by
  induction j generalizing w' ds with
  | zero => exact ⟨w', ds, h, List.prefix_refl ds⟩
  | succ j ih =>
    obtain ⟨⟨w₁, ds₁⟩, h₁, h⟩ := Option.bind_eq_some_iff.mp h
    dsimp only at h
    split at h
    · obtain ⟨w, ds₀, hk, hpre⟩ := ih h₁
      cases h
      exact ⟨w, ds₀, hk, hpre.trans (List.prefix_append _ _)⟩
    · cases h

theorem waits_succ {k : ℕ} {ds' : List Dispatch} (h : waits o w₀ k = some (w, ds))
    (hs : step o w = some (.waiting w', ds')) : waits o w₀ (k + 1) = some (w', ds ++ ds') := by
  rw [waits, h, Option.bind_some]
  simp only [hs]

theorem waits_of_returned {k j n : ℕ} {now : ℤ} {ds' : List Dispatch}
    (h : waits o w₀ k = some (w, ds)) (hs : step o w = some (.returned n now, ds')) :
    waits o w₀ (k + 1 + j) = none := by
  by_contra hne
  obtain ⟨⟨w', all⟩, hw⟩ := Option.ne_none_iff_exists'.mp hne
  obtain ⟨w₁, ds₁, hk, -⟩ := waits_prefix hw
  rw [waits, h, Option.bind_some] at hk
  simp only [hs] at hk
  cases hk

theorem mem_of_returns {n : ℕ} {all : List Dispatch} (h : Returns o w₀ n all) {d : Dispatch}
    (hd : Dispatched o w₀ d) : d ∈ all := by
  obtain ⟨k, w, ds, ds', now, hw, hs, rfl⟩ := h
  obtain ⟨j, v, es, out, es', hv, hs', hmem⟩ := hd
  rcases Nat.lt_trichotomy j k with hlt | rfl | hlt
  · obtain ⟨i, rfl⟩ := Nat.exists_eq_add_of_lt hlt
    rw [Nat.add_right_comm] at hw
    obtain ⟨v', es₁, hv', hpre⟩ := waits_prefix hw
    rw [waits, hv, Option.bind_some] at hv'
    simp only [hs'] at hv'
    cases out with
    | waiting v₁ =>
      cases hv'
      exact List.mem_append_left _ (hpre.subset (List.mem_append_right _ hmem))
    | failed e => cases hv'
    | returned n' now' => cases hv'
  · cases hw.symm.trans hv
    cases hs.symm.trans hs'
    exact List.mem_append_right _ hmem
  · obtain ⟨i, rfl⟩ := Nat.exists_eq_add_of_lt hlt
    rw [Nat.add_right_comm, waits_of_returned hw hs] at hv
    cases hv

end Run

theorem Dispatch.ret_of_not_failed {d : Dispatch} (h : ¬ d.Failed) : d.ret = 0 := if_neg h

theorem Dispatch.ret_of_failed {d : Dispatch} (h : d.Failed) : d.ret = d.answer := if_pos h

section Counts

variable {o : Outside} {p : Pool} {timeout : ℤ}

/-- When failures are not counted, nothing is. -/
theorem Counts.ret_le (h : Counts o p timeout) {d : Dispatch}
    (hd : Dispatched o (start o p timeout) d) : d.ret ≤ 0 := by
  by_cases hf : d.Failed
  · exact (h.failed d hd hf).2
  · rw [Dispatch.ret_of_not_failed hf]

theorem Counts.failed_of_dispatched (h : Counts o p timeout) {d : Dispatch}
    (hd : Dispatched o (start o p timeout) d) : d.Failed := by
  obtain ⟨k, w, ds, out, ds', hw, hs, hmem⟩ := id hd
  cases out with
  | failed e =>
    rw [(step_spec hs).2] at hmem
    cases hmem
  | waiting w' => exact h.waiting (k + 1) w' _ (waits_succ hw hs) d (List.mem_append_right _ hmem)
  | returned n now =>
    have hret : Returns o (start o p timeout) n (ds ++ ds') := ⟨k, w, ds, ds', now, hw, hs, rfl⟩
    have hn := h.returned n _ hret
    have hi : n = ds'.countP (0 < ·.ret) := (step_spec hs).2
    have hzero : ds'.countP (0 < ·.ret) = 0 := by
      rw [List.countP_eq_zero]
      intro d' hd'
      simpa using h.ret_le ⟨k, w, ds, _, ds', hw, hs, hd'⟩
    have hnone : (ds ++ ds').countP (¬ ·.Failed) = 0 := by omega
    rw [List.countP_eq_zero] at hnone
    simpa using hnone d (mem_of_returns hret hd)

theorem dispatched_of_waits {k : ℕ} {w₀ w : Wait} {ds : List Dispatch}
    (h : waits o w₀ k = some (w, ds)) : ∀ d ∈ ds, Dispatched o w₀ d := by
  induction k generalizing w ds with
  | zero =>
    cases h
    simp
  | succ k ih =>
    obtain ⟨⟨w₁, ds₁⟩, h₁, h⟩ := Option.bind_eq_some_iff.mp h
    dsimp only at h
    split at h
    next hs =>
      cases h
      intro d hd
      rcases List.mem_append.mp hd with hd | hd
      · exact ih h₁ d hd
      · exact ⟨k, w₁, ds₁, _, _, h₁, hs, hd⟩
    next => cases h

/-- A call does as documented when every callback in it fails, with no positive answer. -/
theorem counts_iff (o : Outside) (p : Pool) (timeout : ℤ) : Counts o p timeout ↔
    ∀ d, Dispatched o (start o p timeout) d → d.answer ≤ 0 ∧ d.Failed := by
  constructor
  · intro h d hd
    have hf := h.failed_of_dispatched hd
    exact ⟨(Dispatch.ret_of_failed hf).symm.trans_le (h.ret_le hd), hf⟩
  · intro h
    refine ⟨?_, ?_, ?_⟩
    · rintro n all ⟨k, w, ds, ds', now, hw, hs, rfl⟩
      have hds' (d : Dispatch) (hd : d ∈ ds') : Dispatched o (start o p timeout) d :=
        ⟨k, w, ds, _, ds', hw, hs, hd⟩
      have hi : n = ds'.countP (0 < ·.ret) := (step_spec hs).2
      have hzero : ds'.countP (0 < ·.ret) = 0 := by
        rw [List.countP_eq_zero]
        intro d hd
        obtain ⟨hle, hf⟩ := h d (hds' d hd)
        simpa [Dispatch.ret_of_failed hf] using hle
      rw [hi, hzero, eq_comm, List.countP_eq_zero]
      intro d hd
      have hf : d.Failed := by
        rcases List.mem_append.mp hd with hd | hd
        · exact (h d (dispatched_of_waits hw d hd)).2
        · exact (h d (hds' d hd)).2
      simpa using hf
    · intro k w ds hw d hd
      exact (h d (dispatched_of_waits hw d hd)).2
    · intro d hd hf
      obtain ⟨k, w, ds, out, ds', hw, hs, hmem⟩ := id hd
      refine ⟨(step_spec hs).1 d hmem hf, ?_⟩
      rw [Dispatch.ret_of_failed hf]
      exact (h d hd).1

def onePool : Pool :=
  { Pool.new false false with
    orList := [⟨[0], 0, 1⟩]
    cnx := fun _ => ⟨true, 5, 0, false, initialExpirationTime, none, [], false⟩
    next := 1
    initialized := true
    nfd := 6
    fds := {5} }

/-- The connection is readable and the callback answers 0. -/
def oneEvent : Outside := ⟨fun _ => .ready {5}, fun _ => 0, fun _ _ => (0, .done)⟩

theorem not_counts_oneEvent : ¬ Counts oneEvent onePool 0 := by
  intro h
  have hs : ∃ p, step oneEvent (start oneEvent onePool 0) =
      some (.returned 0 0, [⟨0, 0, true, p⟩]) := ⟨_, rfl⟩
  obtain ⟨p, hs⟩ := hs
  have hn := h.returned 0 _ ⟨0, _, [], _, 0, rfl, hs, rfl⟩
  simp [Dispatch.Failed] at hn

end Counts

end LibPrelude.Polling
