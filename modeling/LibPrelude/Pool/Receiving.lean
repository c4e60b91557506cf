import LibPrelude.Message.Read
import LibPrelude.Pool.Polling

/-! # Receiving from a pool

A call reads from the readable connections until one of them has a whole message. That ends the
walk through the AND of this connection only: the walk through the OR goes on, and what is read
there takes the place of the message and of its connection.
-/

namespace LibPrelude.Receiving

open Polling

def msgIdmef : UInt8 := 0
def msgOptionRequest : UInt8 := 7

/-- A pool with the messages being read, the input of its connections and their permissions. -/
structure World where
  pool : Pool
  msg : ℕ → Option Msg
  input : ℕ → Stream
  idmefRead : ℕ → Bool
  adminRead : ℕ → Bool

/-- What is outside of a call: the answers of `select` and the readings of the clock. -/
structure Outside where
  select : ℕ → Select
  clock : ℕ → ℤ

structure Read where
  cnx : ℕ
  msg : Option Msg

/-- A walk: the number of events, what the caller gets, and all that was read. -/
structure Scan where
  i : ℕ
  outcon : Option ℕ
  outmsg : Option Msg
  reads : List Read
  world : World

/-- A message that the peer may not send is an error. -/
def preludeConnectionRecv (c : ℕ) (w : World) : Option (Except ErrorCode Msg × World) :=
  if ¬ (w.pool.cnx c).established then some (.error .generic, w)
  else
    (readMsg (w.msg c) (w.input c)).bind fun (ret, msg, d) =>
      let w := { w with msg := Function.update w.msg c msg, input := Function.update w.input c d }
      match ret, msg with
      | .error e, _ => some (.error e, w)
      | .ok (), none => none
      | .ok (), some m =>
        if m.hdr.tag = msgIdmef ∧ ¬ w.idmefRead c then some (.error .profile, w)
        else if m.hdr.tag = msgOptionRequest ∧ ¬ w.adminRead c then some (.error .profile, w)
        else some (.ok m, w)

def World.dropMsg (w : World) (c : ℕ) : World := { w with msg := Function.update w.msg c none }

/-- Whether a message was read; a connection that fails is declared dead. -/
def checkConnectionEvent (c : ℕ) (s : Scan) : Option (Bool × Scan) :=
  (preludeConnectionRecv c s.world).map fun
    | (.ok m, w) =>
      (true, ⟨s.i + 1, some c, some m, s.reads ++ [⟨c, some m⟩], w.dropMsg c⟩)
    | (.error e, w) =>
      let w := if e = .eagain then w
        else { w.dropMsg c with pool := setStateDead c false w.pool }
      (false, { s with outcon := some c, reads := s.reads ++ [⟨c, none⟩], world := w })

def Readable (rfds : Finset ℕ) (p : Pool) (c : ℕ) : Prop :=
  (p.cnx c).established ∧ (p.cnx c).fd ∈ rfds

instance (rfds : Finset ℕ) (p : Pool) (c : ℕ) : Decidable (Readable rfds p c) :=
  inferInstanceAs (Decidable (_ ∧ _))

/-- Walk through an AND of connections; a message ends it. -/
def checkAnd (rfds : Finset ℕ) : List ℕ → Scan → Option Scan
  | [], s => some s
  | c :: cs, s =>
    if Readable rfds s.world.pool c then
      (checkConnectionEvent c s).bind fun (got, s) =>
        if got then some s else checkAnd rfds cs s
    else checkAnd rfds cs s

def checkOr (rfds : Finset ℕ) : List (List ℕ) → Scan → Option Scan
  | [], s => some s
  | l :: ls, s => (checkAnd rfds l s).bind (checkOr rfds ls)

/-- A call that is about to wait: the time left, the start of the round, and how many answers of
`select` and readings of the clock it has used. -/
structure Wait where
  scan : Scan
  timeout : ℤ
  ts : ℤ
  selects : ℕ
  readings : ℕ

/-- What a call returns, the caller's pointers and all that was read. -/
structure Result where
  ret : Except ErrorCode ℕ
  scan : Scan

inductive Outcome where
  | ended (r : Result)
  | waiting (w : Wait)

/-- One `select` of `connection_pool_check_event` and what follows it. -/
def step (o : Outside) (w : Wait) : Option Outcome :=
  match o.select w.selects with
  | .error e => some (.ended ⟨.error e, w.scan⟩)
  | .timeout _ =>
    if w.timeout = -1 then some (.waiting { w with selects := w.selects + 1 })
    else some (.ended ⟨.ok 0, w.scan⟩)
  | .ready fds =>
    let p := w.scan.world.pool
    (checkOr (fds ∩ p.fds) (p.orList.map CnxList.and) w.scan).bind fun s =>
      let p := s.world.pool
      let p := if s.reads ≠ [] then react (p.env.poolHandler p.ticks) p.tick else p
      let p := if p.connectionStringChanged then (preludeConnectionPoolInit p).map Prod.snd
        else some p
      p.map fun p =>
        let s := { s with world := { s.world with pool := p } }
        if w.timeout = -1 ∧ s.i = 0 then
          .waiting ⟨s, w.timeout, o.clock w.readings, w.selects + 1, w.readings + 1⟩
        else
          let te := o.clock w.readings
          let ret := timevalSubtract (gettimeofday te) (gettimeofday w.ts)
          if s.i = 0 ∧ ret < w.timeout then
            .waiting ⟨s, w.timeout - ret, o.clock (w.readings + 1), w.selects + 1, w.readings + 2⟩
          else .ended ⟨.ok s.i, s⟩

def waits (o : Outside) (w : Wait) : ℕ → Option Wait
  | 0 => some w
  | k + 1 => (waits o w k).bind fun w => match step o w with
    | some (.waiting w) => some w
    | _ => none

/-- A call, and what becomes of the pool before it. -/
structure Call where
  outside : Outside
  timeout : ℤ
  before : World → World

def Call.start (c : Call) (w : World) : Wait :=
  ⟨⟨0, none, none, [], c.before w⟩, c.timeout, c.outside.clock 0, 0, 1⟩

def Call.Ends (c : Call) (w : World) (r : Result) : Prop :=
  ∃ k v, waits c.outside (c.start w) k = some v ∧ step c.outside v = some (.ended r)

/-- A call that has ended. -/
structure Event where
  world : World
  call : Call
  result : Result

/-- Calls that end one after the other. -/
inductive Run : World → List Event → Prop
  | nil (w : World) : Run w []
  | cons {w : World} {c : Call} {r : Result} {es : List Event} :
      c.Ends w r → Run r.scan.world es → Run w (⟨w, c, r⟩ :: es)

def Result.received (r : Result) : List (ℕ × Msg) :=
  r.scan.reads.filterMap fun x => x.msg.map (x.cnx, ·)

def Result.handed (r : Result) : List (ℕ × Msg) :=
  match r.scan.outcon, r.scan.outmsg with
  | some c, some m => [(c, m)]
  | _, _ => []

/-- A message is the last thing read, and it is the one event counted. -/
structure Result.Stops (r : Result) : Prop where
  last : ∀ before x after, r.scan.reads = before ++ x :: after → x.msg.isSome → after = []
  ret : ∀ x ∈ r.scan.reads, x.msg.isSome → r.ret = .ok 1

/-- The messages read in a number of calls are those that the callers get, in this order. -/
structure Lossless (rs : List Result) : Prop where
  handed : rs.flatMap Result.received = rs.flatMap Result.handed
  stops : ∀ r ∈ rs, r.Stops

def Quiet (rfds : Finset ℕ) (ls : List (List ℕ)) (p : Pool) : Prop :=
  ∀ l ∈ ls, ∀ c ∈ l, ¬ Readable rfds p c

/-- When the walk of a list ends with a message, no connection of a later list is readable. -/
def AloneFrom (rfds : Finset ℕ) : List (List ℕ) → Scan → Prop
  | [], _ => True
  | l :: ls, s => ∀ s', checkAnd rfds l s = some s' →
      (s.i < s'.i → Quiet rfds ls s'.world.pool) ∧ (s'.i = s.i → AloneFrom rfds ls s')

def Call.Alone (c : Call) (w : World) : Prop :=
  ∀ k v fds, waits c.outside (c.start w) k = some v → c.outside.select v.selects = .ready fds →
    AloneFrom (fds ∩ v.scan.world.pool.fds) (v.scan.world.pool.orList.map CnxList.and) v.scan

section Round

variable {rfds : Finset ℕ} {c : ℕ} {cs : List ℕ} {ls : List (List ℕ)} {s s' s'' : Scan}

def Silent (s s' : Scan) : Prop :=
  ∃ rs, s'.reads = s.reads ++ rs ∧ (∀ r ∈ rs, r.msg = none) ∧ s'.i = s.i ∧ s'.outmsg = s.outmsg

def Gets (s s' : Scan) : Prop :=
  ∃ rs c m, s'.reads = s.reads ++ (rs ++ [⟨c, some m⟩]) ∧ (∀ r ∈ rs, r.msg = none) ∧
    s'.i = s.i + 1 ∧ s'.outcon = some c ∧ s'.outmsg = some m

theorem Silent.refl (s : Scan) : Silent s s :=
  ⟨[], (List.append_nil _).symm, List.forall_mem_nil _, rfl, rfl⟩

theorem Silent.trans (h : Silent s s') (h' : Silent s' s'') : Silent s s'' := by
  obtain ⟨rs, hreads, hnone, hi, hmsg⟩ := h
  obtain ⟨rs', hreads', hnone', hi', hmsg'⟩ := h'
  refine ⟨rs ++ rs', by rw [hreads', hreads, List.append_assoc], ?_, hi'.trans hi,
    hmsg'.trans hmsg⟩
  exact List.forall_mem_append.mpr ⟨hnone, hnone'⟩

theorem Silent.gets (h : Silent s s') (h' : Gets s' s'') : Gets s s'' := by
  obtain ⟨rs, hreads, hnone, hi, -⟩ := h
  obtain ⟨rs', c, m, hreads', hnone', hi', hcon, hmsg⟩ := h'
  refine ⟨rs ++ rs', c, m, by simp [hreads', hreads], ?_, hi ▸ hi', hcon, hmsg⟩
  exact List.forall_mem_append.mpr ⟨hnone, hnone'⟩

theorem Gets.lt (h : Gets s s') : s.i < s'.i := by
  obtain ⟨rs, c, m, -, -, hi, -⟩ := h
  omega

theorem checkConnectionEvent_spec {got : Bool} (h : checkConnectionEvent c s = some (got, s')) :
    (if got then Gets s s' else Silent s s') ∧ s.reads ≠ s'.reads := by
  obtain ⟨⟨ret, w⟩, -, heq⟩ := Option.map_eq_some_iff.mp h
  rcases ret with e | m
  · cases heq
    exact ⟨⟨[⟨c, none⟩], rfl, by simp, rfl, rfl⟩, by simp⟩
  · cases heq
    exact ⟨⟨[], c, m, rfl, by simp, rfl, rfl, rfl⟩, by simp⟩

/-- The walk of a list is silent or gets a message. -/
theorem checkAnd_spec (h : checkAnd rfds cs s = some s') : Silent s s' ∨ Gets s s' := by
  induction cs generalizing s with
  | nil =>
    cases h
    exact .inl (.refl _)
  | cons c cs ih =>
    rw [checkAnd] at h
    split_ifs at h with hc
    · obtain ⟨⟨got, s₁⟩, hevent, h⟩ := Option.bind_eq_some_iff.mp h
      have hspec := (checkConnectionEvent_spec hevent).1
      cases got with
      | true =>
        cases h
        exact .inr hspec
      | false => exact (ih h).imp hspec.trans hspec.gets
    · exact ih h

theorem checkAnd_reads (h : checkAnd rfds cs s = some s') : s.reads <+: s'.reads := by
  rcases checkAnd_spec h with ⟨rs, hreads, -⟩ | ⟨rs, c, m, hreads, -⟩
  · exact ⟨rs, hreads.symm⟩
  · exact ⟨_, hreads.symm⟩

theorem checkOr_reads (h : checkOr rfds ls s = some s') : s.reads <+: s'.reads := by
  induction ls generalizing s with
  | nil =>
    cases h
    exact List.prefix_refl _
  | cons l ls ih =>
    obtain ⟨s₁, hand, h⟩ := Option.bind_eq_some_iff.mp h
    exact (checkAnd_reads hand).trans (ih h)

theorem checkOr_count (h : checkOr rfds ls s = some s') : s.i ≤ s'.i := by
  induction ls generalizing s with
  | nil =>
    cases h
    exact le_rfl
  | cons l ls ih =>
    obtain ⟨s₁, hand, h⟩ := Option.bind_eq_some_iff.mp h
    rcases checkAnd_spec hand with ⟨-, -, -, hi, -⟩ | hgets
    · exact hi ▸ ih h
    · exact hgets.lt.le.trans (ih h)

theorem checkAnd_quiet (h : ∀ c ∈ cs, ¬ Readable rfds s.world.pool c) :
    checkAnd rfds cs s = some s := by
  induction cs with
  | nil => rfl
  | cons c cs ih =>
    rw [List.forall_mem_cons] at h
    rw [checkAnd, if_neg h.1]
    exact ih h.2

theorem checkOr_quiet (h : Quiet rfds ls s.world.pool) : checkOr rfds ls s = some s := by
  induction ls with
  | nil => rfl
  | cons l ls ih =>
    obtain ⟨hl, hls⟩ := List.forall_mem_cons.mp h
    rw [checkOr, checkAnd_quiet hl, Option.bind_some]
    exact ih hls

theorem checkAnd_reads_ne (h : checkAnd rfds cs s = some s')
    (hc : ∃ c ∈ cs, Readable rfds s.world.pool c) : s.reads ≠ s'.reads := by
  induction cs with
  | nil => simp at hc
  | cons c cs ih =>
    rw [checkAnd] at h
    split_ifs at h with hr
    · obtain ⟨⟨got, s₁⟩, hevent, h⟩ := Option.bind_eq_some_iff.mp h
      obtain ⟨hspec, hne⟩ := checkConnectionEvent_spec hevent
      have hpre : s₁.reads <+: s'.reads := by
        cases got with
        | true =>
          cases h
          exact List.prefix_refl _
        | false => exact checkAnd_reads h
      have hpre₀ : s.reads <+: s₁.reads := by
        cases got with
        | true =>
          obtain ⟨rs, c, m, hreads, -⟩ := hspec
          exact ⟨_, hreads.symm⟩
        | false =>
          obtain ⟨rs, hreads, -⟩ := hspec
          exact ⟨_, hreads.symm⟩
      intro heq
      exact hne (hpre₀.eq_of_length_le (heq ▸ hpre.length_le))
    · refine ih h ?_
      obtain ⟨c', hmem, hc'⟩ := hc
      rcases List.mem_cons.mp hmem with rfl | hmem
      · exact absurd hc' hr
      · exact ⟨c', hmem, hc'⟩

theorem checkOr_reads_ne (h : checkOr rfds ls s = some s') (hq : ¬ Quiet rfds ls s.world.pool) :
    s.reads ≠ s'.reads := by
  induction ls generalizing s with
  | nil => exact absurd (List.forall_mem_nil _) hq
  | cons l ls ih =>
    obtain ⟨s₁, hand, h⟩ := Option.bind_eq_some_iff.mp h
    by_cases hl : ∃ c ∈ l, Readable rfds s.world.pool c
    · intro heq
      have hlen := (checkOr_reads h).length_le
      rw [← heq] at hlen
      exact checkAnd_reads_ne hand hl ((checkAnd_reads hand).eq_of_length_le hlen)
    · have hl' : ∀ c ∈ l, ¬ Readable rfds s.world.pool c := fun c hc hr => hl ⟨c, hc, hr⟩
      rw [checkAnd_quiet hl'] at hand
      obtain rfl : s = s₁ := Option.some.inj hand
      exact ih h fun hls => hq (List.forall_mem_cons.mpr ⟨hl', hls⟩)

/-- When lists behind one with a message are quiet, the walk is silent or ends with a message. -/
theorem checkOr_spec (h : checkOr rfds ls s = some s') (ha : AloneFrom rfds ls s) :
    Silent s s' ∨ Gets s s' := by
  induction ls generalizing s with
  | nil =>
    cases h
    exact .inl (.refl _)
  | cons l ls ih =>
    obtain ⟨s₁, hand, h⟩ := Option.bind_eq_some_iff.mp h
    obtain ⟨hgot, hsilent⟩ := ha s₁ hand
    rcases checkAnd_spec hand with hs | hg
    · obtain ⟨-, -, -, hi, -⟩ := id hs
      exact (ih h (hsilent hi)).imp hs.trans hs.gets
    · rw [checkOr_quiet (hgot hg.lt)] at h
      obtain rfl : s₁ = s' := Option.some.inj h
      exact .inr hg

theorem checkOr_silent (h : checkOr rfds ls s = some s') (hi : s'.i = s.i) :
    Silent s s' ∧ AloneFrom rfds ls s := by
  induction ls generalizing s with
  | nil =>
    cases h
    exact ⟨.refl _, trivial⟩
  | cons l ls ih =>
    obtain ⟨s₁, hand, h⟩ := Option.bind_eq_some_iff.mp h
    have hle := checkOr_count h
    rcases checkAnd_spec hand with hs | hg
    · have hi₁ : s₁.i = s.i := by
        obtain ⟨-, -, -, hi₁, -⟩ := hs
        exact hi₁
      obtain ⟨hs', ha⟩ := ih h (hi.trans hi₁.symm)
      refine ⟨hs.trans hs', fun s₂ hand₂ => ?_⟩
      obtain rfl : s₁ = s₂ := Option.some.inj (hand.symm.trans hand₂)
      exact ⟨fun hlt => absurd hi₁ hlt.ne', fun _ => ha⟩
    · have := hg.lt
      omega

/-- A later list that is read from comes behind a message. -/
theorem checkOr_not_alone (h : checkOr rfds ls s = some s') (ha : ¬ AloneFrom rfds ls s) :
    ∃ before x after, s'.reads = before ++ x :: after ∧ x.msg.isSome ∧ after ≠ [] := by
  induction ls generalizing s with
  | nil => exact absurd trivial ha
  | cons l ls ih =>
    obtain ⟨s₁, hand, h⟩ := Option.bind_eq_some_iff.mp h
    rcases checkAnd_spec hand with hs | hg
    · refine ih h fun ha₁ => ha fun s₂ hand₂ => ?_
      obtain rfl : s₁ = s₂ := Option.some.inj (hand.symm.trans hand₂)
      obtain ⟨-, -, -, hi, -⟩ := hs
      exact ⟨fun hlt => absurd hi hlt.ne', fun _ => ha₁⟩
    · have hq : ¬ Quiet rfds ls s₁.world.pool := by
        intro hq
        refine ha fun s₂ hand₂ => ?_
        obtain rfl : s₁ = s₂ := Option.some.inj (hand.symm.trans hand₂)
        exact ⟨fun _ => hq, fun hi => absurd hi hg.lt.ne'⟩
      obtain ⟨after, hafter⟩ := checkOr_reads h
      obtain ⟨rs, c, m, hreads, -⟩ := hg
      refine ⟨s.reads ++ rs, ⟨c, some m⟩, after, ?_, rfl, ?_⟩
      · rw [← hafter, hreads]
        simp
      · intro hnil
        rw [hnil, List.append_nil] at hafter
        exact checkOr_reads_ne h hq hafter

end Round

section Calls

variable {o : Outside} {v v' w₀ : Wait} {s s₀ : Scan} {c : Call} {w : World} {r : Result}

theorem step_waiting (h : step o v = some (.waiting v')) (hi : v.scan.i = 0) :
    (∃ rs, v'.scan.reads = v.scan.reads ++ rs ∧ ∀ r ∈ rs, r.msg = none) ∧ v'.scan.i = 0 ∧
      v'.scan.outmsg = v.scan.outmsg ∧
      ∀ fds, o.select v.selects = .ready fds →
        AloneFrom (fds ∩ v.scan.world.pool.fds) (v.scan.world.pool.orList.map CnxList.and)
          v.scan := by
  rw [step] at h
  rcases hsel : o.select v.selects with e | now | fds <;> rw [hsel] at h
  · cases h
  · simp only at h
    split_ifs at h
    · cases h
      exact ⟨⟨[], (List.append_nil _).symm, List.forall_mem_nil _⟩, hi, rfl, by rintro _ ⟨⟩⟩
    · cases h
  · obtain ⟨s, hor, h⟩ := Option.bind_eq_some_iff.mp h
    obtain ⟨p, -, h⟩ := Option.map_eq_some_iff.mp h
    have hzero : s.i = 0 ∧ v'.scan = { s with world := { s.world with pool := p } } := by
      dsimp only at h
      split_ifs at h with h₁ h₂
      · cases h
        exact ⟨h₁.2, rfl⟩
      · cases h
        exact ⟨h₂.1, rfl⟩
    obtain ⟨⟨rs, hreads, hnone, -, hmsg⟩, ha⟩ := checkOr_silent hor (hzero.1.trans hi.symm)
    rw [hzero.2]
    refine ⟨⟨rs, hreads, hnone⟩, hzero.1, hmsg, ?_⟩
    rintro _ ⟨⟩
    exact ha

theorem step_ended (h : step o v = some (.ended r)) :
    (r.scan = v.scan ∧ r.ret ≠ .ok 1 ∧ ∀ fds, o.select v.selects ≠ .ready fds) ∨
      ∃ fds s, o.select v.selects = .ready fds ∧
        checkOr (fds ∩ v.scan.world.pool.fds) (v.scan.world.pool.orList.map CnxList.and) v.scan =
          some s ∧ r.ret = .ok s.i ∧ r.scan.reads = s.reads ∧ r.scan.outcon = s.outcon ∧
        r.scan.outmsg = s.outmsg := by
  rw [step] at h
  rcases hsel : o.select v.selects with e | now | fds <;> rw [hsel] at h
  · cases h
    exact .inl ⟨rfl, by rintro ⟨⟩, by rintro _ ⟨⟩⟩
  · simp only at h
    split_ifs at h
    · cases h
    · cases h
      exact .inl ⟨rfl, by rintro ⟨⟩, by rintro _ ⟨⟩⟩
  · obtain ⟨s, hor, h⟩ := Option.bind_eq_some_iff.mp h
    obtain ⟨p, -, h⟩ := Option.map_eq_some_iff.mp h
    refine .inr ⟨fds, s, rfl, hor, ?_⟩
    dsimp only at h
    split_ifs at h
    all_goals cases h
    exact ⟨rfl, rfl, rfl, rfl⟩

theorem waits_silent {k : ℕ} (h : waits c.outside (c.start w) k = some v) :
    (∀ x ∈ v.scan.reads, x.msg = none) ∧ v.scan.i = 0 ∧ v.scan.outmsg = none := by
  induction k generalizing v with
  | zero =>
    cases h
    exact ⟨List.forall_mem_nil _, rfl, rfl⟩
  | succ k ih =>
    obtain ⟨v₁, hv₁, h⟩ := Option.bind_eq_some_iff.mp h
    obtain ⟨hnone, hi, hmsg⟩ := ih hv₁
    split at h
    case h_2 => cases h
    case h_1 v₂ hstep =>
      cases h
      obtain ⟨⟨rs, hreads, hrs⟩, hi', hmsg', -⟩ := step_waiting hstep hi
      refine ⟨?_, hi', hmsg'.trans hmsg⟩
      rw [hreads]
      exact List.forall_mem_append.mpr ⟨hnone, hrs⟩

theorem waits_before {k j : ℕ} (h : waits o w₀ k = some v) (hj : j < k) :
    ∃ v₁ v₂, waits o w₀ j = some v₁ ∧ step o v₁ = some (.waiting v₂) := by
  induction k generalizing v with
  | zero => omega
  | succ k ih =>
    obtain ⟨v₁, hv₁, hnext⟩ := Option.bind_eq_some_iff.mp h
    rcases Nat.lt_succ_iff_lt_or_eq.mp hj with hj | rfl
    · exact ih hv₁ hj
    · split at hnext
      case h_2 => cases hnext
      case h_1 v₂ hstep => exact ⟨v₁, v₂, hv₁, hstep⟩

theorem handed_of_outmsg (h : r.scan.outmsg = none) : r.handed = [] := by
  unfold Result.handed
  rw [h]
  cases r.scan.outcon <;> rfl

theorem delivers_silent (hnone : ∀ x ∈ r.scan.reads, x.msg = none) (h : r.scan.outmsg = none) :
    r.received = r.handed ∧ r.Stops := by
  refine ⟨?_, fun before x after hreads hx => ?_, fun x hmem hx => ?_⟩
  · rw [handed_of_outmsg h, Result.received, List.filterMap_eq_nil_iff]
    intro x hx
    rw [hnone x hx]
    rfl
  · rw [hnone x (hreads ▸ by simp)] at hx
    cases hx
  · rw [hnone x hmem] at hx
    cases hx

theorem delivers_gets {rs : List Read} {d : ℕ} {m : Msg}
    (hreads : r.scan.reads = rs ++ [⟨d, some m⟩]) (hnone : ∀ x ∈ rs, x.msg = none)
    (hcon : r.scan.outcon = some d) (hmsg : r.scan.outmsg = some m) (hret : r.ret = .ok 1) :
    r.received = r.handed ∧ r.Stops := by
  refine ⟨?_, fun before x after hsplit hx => ?_, fun _ _ _ => hret⟩
  · have hrs : rs.filterMap (fun x => x.msg.map (x.cnx, ·)) = [] := by
      rw [List.filterMap_eq_nil_iff]
      intro x hx
      rw [hnone x hx]
      rfl
    rw [Result.received, Result.handed, hcon, hmsg, hreads, List.filterMap_append, hrs]
    rfl
  · rw [hreads] at hsplit
    rcases List.eq_nil_or_concat after with rfl | ⟨after, y, rfl⟩
    · rfl
    · rw [List.concat_eq_append, ← List.cons_append, ← List.append_assoc] at hsplit
      have hmem : x ∈ rs := (List.append_inj' hsplit rfl).1 ▸ by simp
      rw [hnone x hmem] at hx
      cases hx

/-- A call delivers what it reads when no connection of a later list is readable where a list ends
with a message. -/
theorem Call.Alone.delivers (ha : c.Alone w) (h : c.Ends w r) :
    r.received = r.handed ∧ r.Stops := by
  obtain ⟨k, v, hv, hstep⟩ := h
  obtain ⟨hnone, hi, hmsg⟩ := waits_silent hv
  rcases step_ended hstep with ⟨hscan, -, -⟩ | ⟨fds, s, hsel, hor, hret, hreads, hcon, hout⟩
  · rw [← hscan] at hnone hmsg
    exact delivers_silent hnone hmsg
  · rcases checkOr_spec hor (ha k v fds hv hsel) with
      ⟨rs, hrs, hnone', -, hmsg'⟩ | ⟨rs, d, m, hrs, hnone', hi', hcon', hmsg'⟩
    · refine delivers_silent ?_ (hout.trans (hmsg'.trans hmsg))
      rw [hreads, hrs]
      exact List.forall_mem_append.mpr ⟨hnone, hnone'⟩
    · have hsplit : r.scan.reads = (v.scan.reads ++ rs) ++ [⟨d, some m⟩] := by
        rw [hreads, hrs, List.append_assoc]
      refine delivers_gets hsplit ?_ (hcon.trans hcon') (hout.trans hmsg') ?_
      · exact List.forall_mem_append.mpr ⟨hnone, hnone'⟩
      · rw [hret, hi', hi]

/-- When a call stops at a message, no connection of a later list was readable. -/
theorem Result.Stops.alone (hs : r.Stops) (h : c.Ends w r) : c.Alone w := by
  obtain ⟨k, v, hv, hstep⟩ := h
  intro j v₁ fds hv₁ hsel
  rcases Nat.lt_trichotomy j k with hlt | rfl | hlt
  · obtain ⟨v₁', v₂, hv₁', hstep'⟩ := waits_before hv hlt
    obtain rfl : v₁ = v₁' := Option.some.inj (hv₁.symm.trans hv₁')
    exact (step_waiting hstep' (waits_silent hv₁).2.1).2.2.2 fds hsel
  · obtain rfl : v = v₁ := Option.some.inj (hv.symm.trans hv₁)
    rcases step_ended hstep with
      ⟨-, -, hne⟩ | ⟨fds', s, hsel', hor, -, hreads, -⟩
    · exact absurd hsel (hne fds)
    · obtain rfl : fds' = fds := Select.ready.inj (hsel'.symm.trans hsel)
      by_contra ha
      obtain ⟨before, x, after, hsplit, hx, hafter⟩ := checkOr_not_alone hor ha
      exact hafter (hs.last before x after (hreads.trans hsplit) hx)
  · obtain ⟨v', v₂, hv', hstep'⟩ := waits_before hv₁ hlt
    obtain rfl : v = v' := Option.some.inj (hv.symm.trans hv')
    rw [hstep] at hstep'
    cases hstep'

/-- Calls one after the other lose no message just if, in each of them, no connection of a later
list is readable where a list ends with a message. -/
theorem recv_lossless_iff {es : List Event} (h : Run w es) :
    Lossless (es.map Event.result) ↔ ∀ e ∈ es, e.call.Alone e.world := by
  have hends : ∀ e ∈ es, e.call.Ends e.world e.result := by
    induction h with
    | nil => exact List.forall_mem_nil _
    | cons hend _ ih => exact List.forall_mem_cons.mpr ⟨hend, ih⟩
  constructor
  · intro hl e he
    exact (hl.stops e.result (List.mem_map_of_mem he)).alone (hends e he)
  · intro ha
    constructor
    case handed =>
      rw [List.flatMap_map, List.flatMap_map]
      exact List.flatMap_congr fun e he => ((ha e he).delivers (hends e he)).1
    case stops =>
      intro r hr
      obtain ⟨e, he, rfl⟩ := List.mem_map.mp hr
      exact ((ha e he).delivers (hends e he)).2

def oneMessage : Stream where
  pending := [1, 0, 0, 0, 0, 0, 0, 1, 0, 0, 0, 0, 0, 0, 0, 0, 42]
  turns := []
  final := .eof
  final_ne := eof_ne_eagain

def worldOf (p : Pool) : World :=
  ⟨p, fun _ => none, fun _ => oneMessage, fun _ => true, fun _ => true⟩

def bothReadable : Call := ⟨⟨fun _ => .ready {5, 6}, fun _ => 0⟩, 0, id⟩

def twoLists : Pool :=
  { onePool with
    orList := [⟨[0], 0, 1⟩, ⟨[1], 0, 1⟩]
    cnx := fun c => ⟨true, 5 + c, c, false, initialExpirationTime, none, [], false⟩
    next := 2
    nfd := 7
    fds := {5, 6} }

def readable (fd : ℕ) : Call := ⟨⟨fun _ => .ready {fd}, fun _ => 0⟩, 0, id⟩

theorem alone_of_first {c : Call} {w : World} {r : Result}
    (hr : step c.outside (c.start w) = some (.ended r))
    (h : ∀ fds, c.outside.select 0 = .ready fds →
      AloneFrom (fds ∩ (c.before w).pool.fds) ((c.before w).pool.orList.map CnxList.and)
        (c.start w).scan) : c.Alone w := by
  intro k v fds hv hsel
  rcases k with _ | k
  · cases hv
    exact h fds hsel
  · obtain ⟨v₁, v₂, hv₁, hstep⟩ := waits_before hv (Nat.succ_pos k)
    cases hv₁
    cases hr.symm.trans hstep

theorem aloneFrom_two {rfds : Finset ℕ} {c d : ℕ} {s : Scan}
    (h : ∀ s', checkAnd rfds [c] s = some s' → s.i < s'.i → ¬ Readable rfds s'.world.pool d) :
    AloneFrom rfds [[c], [d]] s := by
  refine fun s' hs' => ⟨fun hlt => ?_, fun _ s'' _ => ?_⟩
  · simpa [Quiet] using h s' hs' hlt
  · exact ⟨fun _ => List.forall_mem_nil _, fun _ => trivial⟩

theorem recv_lossless_two : ∃ es, Run (worldOf twoLists) es ∧
    es.flatMap (fun e => e.result.handed.map Prod.fst) = [0, 1] ∧
    Lossless (es.map Event.result) := by
  obtain ⟨r₁, r₂, s₁, hr₁, hr₂, hand, hquiet, horList, hfirst, hhanded⟩ : ∃ r₁ r₂ s₁,
      step (readable 5).outside ((readable 5).start (worldOf twoLists)) = some (.ended r₁) ∧
      step (readable 6).outside ((readable 6).start r₁.scan.world) = some (.ended r₂) ∧
      checkAnd ({5} ∩ twoLists.fds) [0] ((readable 5).start (worldOf twoLists)).scan = some s₁ ∧
      (s₁.world.pool.cnx 1).fd = 6 ∧
      r₁.scan.world.pool.orList.map CnxList.and = [[0], [1]] ∧
      (r₁.scan.world.pool.cnx 0).fd = 5 ∧
      r₁.handed.map Prod.fst ++ r₂.handed.map Prod.fst = [0, 1] :=
    ⟨_, _, _, rfl, rfl, rfl, rfl, rfl, rfl, rfl⟩
  have hrun : Run (worldOf twoLists)
      [⟨worldOf twoLists, readable 5, r₁⟩, ⟨r₁.scan.world, readable 6, r₂⟩] :=
    .cons ⟨0, _, rfl, hr₁⟩ (.cons ⟨0, _, rfl, hr₂⟩ (.nil _))
  refine ⟨_, hrun, by simpa using hhanded, (recv_lossless_iff hrun).mpr ?_⟩
  rw [List.forall_mem_cons, List.forall_mem_singleton]
  constructor
  · refine alone_of_first hr₁ ?_
    rintro _ ⟨⟩
    refine aloneFrom_two fun s' hs' _ hread => ?_
    cases hand.symm.trans hs'
    exact absurd (Finset.mem_inter.mp (hquiet ▸ hread.2)).1 (by decide)
  · refine alone_of_first hr₂ ?_
    rintro _ ⟨⟩
    change AloneFrom _ (r₁.scan.world.pool.orList.map CnxList.and) _
    rw [horList]
    refine aloneFrom_two fun s' hs' hlt => ?_
    have hnot : ¬ Readable ({6} ∩ r₁.scan.world.pool.fds) r₁.scan.world.pool 0 := fun hread =>
      absurd (Finset.mem_inter.mp (hfirst ▸ hread.2)).1 (by decide)
    have hsame := checkAnd_quiet (s := ((readable 6).start r₁.scan.world).scan)
      (List.forall_mem_singleton.mpr hnot)
    cases hsame.symm.trans hs'
    exact absurd hlt (lt_irrefl _)

/-- The message of the first list is replaced by that of the second. -/
theorem recv_loses : ¬ ∀ w es, Run w es → Lossless (es.map Event.result) := by
  intro hall
  obtain ⟨r, hr, hlen⟩ : ∃ r, step bothReadable.outside (bothReadable.start (worldOf twoLists)) =
      some (.ended r) ∧ r.received.length = 2 := ⟨_, rfl, by rfl⟩
  have hl := hall _ [⟨worldOf twoLists, bothReadable, r⟩] (.cons ⟨0, _, rfl, hr⟩ (.nil _))
  have hhanded : r.handed.length ≤ 1 := by
    unfold Result.handed
    split <;> simp
  have heq := hl.handed
  simp only [List.map_cons, List.map_nil, List.flatMap_cons, List.flatMap_nil,
    List.append_nil] at heq
  rw [← heq, hlen] at hhanded
  omega

end Calls

end LibPrelude.Receiving
