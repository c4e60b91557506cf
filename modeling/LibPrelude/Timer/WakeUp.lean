import LibPrelude.Timer.Order

/-! # Waking up

While the expirations are positive a timer that its callback restarts is not due in the
same walk, so a walk runs the callbacks of the timers that expired, in their order, and
ends. A call that skips the walk returns the delay that the last walk found, counted
from then.
-/

namespace LibPrelude

variable {s s' : TimerState} {t : ℕ} {now : ℕ} {reactions : ℕ → TimerReaction}

/-- An expiration that a positive C integer holds. -/
def Positive (expire : ℤ) : Prop := 0 < expire ∧ expire < 2 ^ 31

namespace TimerReaction

def delay : TimerReaction → ℕ
  | destroy delay => delay
  | reset delay _ => delay

/-- The expiration with which the timer goes on, if it does. -/
def restart : TimerReaction → Option ℤ
  | destroy _ => none
  | reset _ expire => some expire

end TimerReaction

/-- No timer that one of the first callbacks restarts is due a multiple of 2^32 seconds after the
call. -/
def Unwrapped (now : ℕ) : ℕ → ℕ → (ℕ → TimerReaction) → Prop
  | 0, _, _ => True
  | n + 1, clock, reactions =>
    (∀ expire, (reactions 0).restart = some expire →
      ¬ (2 ^ 32 : ℤ) ∣ clock + (reactions 0).delay + expire - now) ∧
    Unwrapped now n (clock + (reactions 0).delay) fun i => reactions (i + 1)

def expired (s : TimerState) (now : ℕ) : List ℕ :=
  s.timerList.filter fun t => (s.timers t).due ≤ now

def calls (history : List TimerEvent) : List ℕ :=
  history.filterMap fun
    | .called t => some t
    | _ => none

/-- What the walk and the globals rest on. -/
structure Prompt (s : TimerState) : Prop where
  ordered : Ordered s
  positive : ∀ t, Positive (s.timers t).expire
  last : s.lastWakeup ≤ s.clock
  next : ∀ t ∈ s.timerList, s.lastWakeup + s.nextWakeup ≤ (s.timers t).due

theorem toInt_le {x : ℤ} (h : 0 ≤ x) : toInt x ≤ x := by
  unfold toInt
  rw [Int.bmod_def]
  omega

theorem toInt_eq_zero {x : ℤ} : toInt x = 0 ↔ (2 ^ 32 : ℤ) ∣ x := by
  unfold toInt
  rw [Int.bmod_def]
  omega

theorem calls_append (h h' : List TimerEvent) : calls (h ++ h') = calls h ++ calls h' :=
  List.filterMap_append

theorem wake_first {others : List ℕ} (h : Ordered s) (hl : s.timerList = t :: others)
    (hpos : ∀ u, Positive (s.timers u).expire) (hdue : (s.timers t).due ≤ now)
    (hclock : now ≤ s.clock) {r : TimerReaction} (hr : ∀ e, r.restart = some e → Positive e) :
    ∃ s', wakeUpIfNeeded t now r s = .ok (0, s') ∧ Ordered s' ∧
      (∀ u, Positive (s'.timers u).expire) ∧ s'.clock = s.clock + r.delay ∧
      s'.lastWakeup = s.lastWakeup ∧
      calls s'.history = calls s.history ++ [t] ∧
      (∀ u ∈ others, u ∈ s'.timerList ∧ s'.timers u = s.timers u) ∧
      (∀ u ∈ s'.timerList, u ∈ others ∨ (u = t ∧ ∃ e, r.restart = some e ∧
        (s'.timers u).due = s.clock + r.delay + e)) ∧
      expired s' now = (expired s now).tail := by
  have hmem : t ∈ s.timerList := by
    rw [hl]
    exact List.mem_cons_self
  have hnd := h.nodup
  rw [hl, List.nodup_cons] at hnd
  have hne {u : ℕ} (hu : u ∈ others) : u ≠ t := by
    rintro rfl
    exact hnd.1 hu
  have hexp : expired s now = t :: others.filter fun u => (s.timers u).due ≤ now := by
    rw [expired, hl, List.filter_cons_of_pos (by simpa using hdue)]
  have hsame (timers : ℕ → Timer) (heq : ∀ u ∈ others, timers u = s.timers u) :
      (others.filter fun u => (timers u).due ≤ now) =
        others.filter fun u => (s.timers u).due ≤ now :=
    List.filter_congr fun u hu => by rw [heq u hu]
  rcases wakeUpIfNeeded_spec h hmem now r with ⟨hlt, -⟩ | ⟨-, s', hwake, hord, -, hshape⟩
  · omega
  cases r with
  | destroy delay =>
    subst hshape
    have hlist : (s.woken t delay ⟨(s.timers t).expire, -1⟩).timerList = others := by
      simp [TimerState.woken, hl]
    have htimers (u : ℕ) (hu : u ∈ others) :
        (s.woken t delay ⟨(s.timers t).expire, -1⟩).timers u = s.timers u :=
      Function.update_of_ne (hne hu) _ _
    refine ⟨_, hwake, hord, fun u => ?_, rfl, rfl, ?_, fun u hu => ?_, fun u hu => ?_, ?_⟩
    · by_cases hu : u = t
      · rw [hu]
        simpa [TimerState.woken] using hpos t
      · simpa [TimerState.woken, Function.update_of_ne hu] using hpos u
    · rw [TimerState.record, TimerState.woken, calls_append, calls_append]
      exact List.append_nil _
    · exact ⟨by rw [TimerState.record_timerList, hlist]; exact hu, htimers u hu⟩
    · rw [TimerState.record_timerList, hlist] at hu
      exact .inl hu
    · rw [hexp, List.tail_cons, expired, TimerState.record_timerList, hlist]
      exact hsame _ htimers
  | reset delay expire =>
    obtain ⟨u, v, hsplit, rfl⟩ := hshape
    have hlist : others = u ++ v := by
      rw [← hsplit]
      simp [TimerState.woken, hl]
    have hpe := hr expire rfl
    have hself : ((s.woken t delay ⟨expire, -1⟩).insert t u v).timers t =
        ⟨expire, (s.clock + delay : ℕ)⟩ := by
      simp [TimerState.insert, TimerState.woken]
    have htimers (a : ℕ) (ha : a ∈ others) :
        ((s.woken t delay ⟨expire, -1⟩).insert t u v).timers a = s.timers a := by
      simp [TimerState.insert, TimerState.woken, Function.update_of_ne (hne ha)]
    have hnew : (((s.woken t delay ⟨expire, -1⟩).insert t u v).timers t).due =
        s.clock + delay + expire := by
      rw [hself]
      simp [Timer.due]
    refine ⟨_, hwake, hord, fun a => ?_, rfl, rfl, ?_, fun a ha => ?_, fun a ha => ?_, ?_⟩
    · by_cases ha : a = t
      · rw [ha, TimerState.record_timers, hself]
        exact hpe
      · simpa [TimerState.insert, TimerState.woken, Function.update_of_ne ha] using hpos a
    · rw [TimerState.record, TimerState.insert, TimerState.woken, calls_append, calls_append]
      exact List.append_nil _
    · refine ⟨?_, htimers a ha⟩
      rw [hlist] at ha
      simp only [TimerState.record_timerList, TimerState.insert, List.mem_append, List.mem_cons]
      rcases List.mem_append.mp ha with ha | ha
      · exact .inl ha
      · exact .inr (.inr ha)
    · simp only [TimerState.record_timerList, TimerState.insert, List.mem_append,
        List.mem_cons] at ha
      rw [hlist]
      rcases ha with ha | rfl | ha
      · exact .inl (List.mem_append_left _ ha)
      · exact .inr ⟨rfl, expire, rfl, hnew⟩
      · exact .inl (List.mem_append_right _ ha)
    · have hlate : ¬ (((s.woken t delay ⟨expire, -1⟩).insert t u v).timers t).due ≤ now := by
        rw [hnew]
        unfold Positive at hpe
        omega
      rw [hexp, List.tail_cons, ← hsame _ htimers, hlist, List.filter_append]
      change List.filter _ (u ++ t :: v) = _
      rw [List.filter_append, List.filter_cons_of_neg, TimerState.record_timers]
      exact decide_eq_true_iff.not.mpr hlate

/-- A walk with enough fuel runs the callbacks of the expired timers and finds the time left to the
next. -/
theorem walk_spec {n : ℕ} (h : Ordered s) (hpos : ∀ u, Positive (s.timers u).expire)
    (hclock : now ≤ s.clock) (hn : (expired s now).length = n)
    (hr : ∀ i e, (reactions i).restart = some e → Positive e)
    (hwrap : ∀ u ∈ s.timerList, now < (s.timers u).due → ¬ (2 ^ 32 : ℤ) ∣ (s.timers u).due - now)
    (hun : Unwrapped now n s.clock reactions) :
    ∃ s', (∀ fuel > n, walkAndWakeUpTimer now fuel reactions s = some (.ok s')) ∧ Ordered s' ∧
      (∀ u, Positive (s'.timers u).expire) ∧ s.clock ≤ s'.clock ∧
      calls s'.history = calls s.history ++ expired s now ∧
      ∀ u ∈ s'.timerList, s'.nextWakeup ≤ (s'.timers u).due - now := by
  induction n generalizing s reactions with
  | zero =>
    rcases hl : s.timerList with _ | ⟨t, others⟩
    · refine ⟨s, fun fuel hfuel => ?_, h, hpos, le_rfl, ?_, by rw [hl]; nofun⟩
      · obtain ⟨fuel, rfl⟩ : ∃ k, fuel = k + 1 := ⟨fuel - 1, by omega⟩
        rw [walkAndWakeUpTimer, hl]
      · simp [expired, hl]
    · have hmem : t ∈ s.timerList := by
        rw [hl]
        exact List.mem_cons_self
      have hnil : expired s now = [] := List.length_eq_zero_iff.mp hn
      have hlate : now < (s.timers t).due := by
        have := List.filter_eq_nil_iff.mp hnil t hmem
        simpa using this
      have hret : toInt ((s.timers t).due - now) ≠ 0 := by
        rw [Ne, toInt_eq_zero]
        exact hwrap t hmem hlate
      refine ⟨{ s with nextWakeup := toInt ((s.timers t).due - now) }, fun fuel hfuel => ?_,
        ⟨h.sorted, h.nodup, h.started⟩, hpos, le_rfl, by simp [hnil], fun u hu => ?_⟩
      · obtain ⟨fuel, rfl⟩ : ∃ k, fuel = k + 1 := ⟨fuel - 1, by omega⟩
        rcases wakeUpIfNeeded_spec h hmem now (reactions 0) with ⟨-, hwake⟩ | ⟨hdue, -⟩
        · rw [walkAndWakeUpTimer, hl]
          simp only [hwake]
          rw [if_pos hret, ← hl]
        · omega
      · have hle : (s.timers t).due ≤ (s.timers u).due := by
          have hs := h.sorted
          rw [hl, SortedByDue, List.pairwise_cons] at hs
          change u ∈ s.timerList at hu
          rw [hl] at hu
          rcases List.mem_cons.mp hu with rfl | hu
          · exact le_rfl
          · exact hs.1 u hu
        have := toInt_le (show 0 ≤ (s.timers t).due - now by omega)
        change toInt ((s.timers t).due - now) ≤ (s.timers u).due - now
        omega
  | succ n ih =>
    rcases hl : s.timerList with _ | ⟨t, others⟩
    · simp [expired, hl] at hn
    have hdue : (s.timers t).due ≤ now := by
      obtain ⟨u, hu⟩ : ∃ u, u ∈ expired s now := List.exists_mem_of_length_pos (by omega)
      obtain ⟨hu, hle⟩ := List.mem_filter.mp hu
      have hs := h.sorted
      rw [hl, SortedByDue, List.pairwise_cons] at hs
      rw [hl] at hu
      have hle : (s.timers u).due ≤ now := by simpa using hle
      rcases List.mem_cons.mp hu with rfl | hu
      · exact hle
      · exact (hs.1 u hu).trans hle
    obtain ⟨s₁, hwake, hord, hpos₁, hclock₁, hlast₁, hcalls₁, hkeep, hfrom, htail⟩ :=
      wake_first h hl hpos hdue hclock (hr 0)
    obtain ⟨hun₀, hun⟩ := hun
    have hexp : expired s now = t :: (expired s now).tail := by
      rw [expired, hl, List.filter_cons_of_pos (by simpa using hdue)]
      rfl
    have hwrap₁ : ∀ u ∈ s₁.timerList, now < (s₁.timers u).due →
        ¬ (2 ^ 32 : ℤ) ∣ (s₁.timers u).due - now := by
      intro u hu hlt
      rcases hfrom u hu with hu | ⟨-, e, he, hdue₁⟩
      · rw [(hkeep u hu).2] at hlt ⊢
        exact hwrap u (by rw [hl]; exact List.mem_cons_of_mem _ hu) hlt
      · rw [hdue₁]
        exact hun₀ e he
    obtain ⟨s', hwalk, hord', hpos', hclock', hcalls', hnext'⟩ :=
      ih hord hpos₁ (by omega) (by rw [htail, List.length_tail, hn]; rfl) (fun i e => hr (i + 1) e)
        hwrap₁ (hclock₁ ▸ hun)
    refine ⟨s', fun fuel hfuel => ?_, hord', hpos', by omega, ?_, hnext'⟩
    · obtain ⟨fuel, rfl⟩ : ∃ k, fuel = k + 1 := ⟨fuel - 1, by omega⟩
      rw [walkAndWakeUpTimer, hl]
      simp only [hwake]
      rw [if_neg (by simp)]
      exact hwalk fuel (by omega)
    · rw [hcalls', hcalls₁, htail, List.append_assoc]
      conv_rhs => rw [hexp]
      rfl

/-- Expirations are positive, and no callback restarts its timer a multiple of 2^32 seconds after
the call. -/
def TimerOp.Punctual (s : TimerState) : TimerOp → Prop
  | setExpire _ expire => Positive expire
  | wakeUp _ reactions => (∀ i e, (reactions i).restart = some e → Positive e) ∧
    Unwrapped s.clock (expired s s.clock).length s.clock reactions
  | _ => True

/-- The states reached from an empty list by punctual operations. -/
inductive PromptRun : TimerState → Prop
  | start (timers : ℕ → Timer) (clock : ℕ) : (∀ t, Positive (timers t).expire) →
      PromptRun ⟨timers, [], 0, 0, clock, []⟩
  | step {s s' : TimerState} {op : TimerOp} : PromptRun s → op.Allowed s → op.Punctual s →
      op.run s = some (.ok s') → PromptRun s'

/-- A call runs the callbacks of the timers that are due, each once and in the order of expiry. -/
def CallsDue (s s' : TimerState) : Prop :=
  ∃ cs, calls s'.history = calls s.history ++ cs ∧ cs.Nodup ∧
    cs.Pairwise (fun a b => (s.timers a).due ≤ (s.timers b).due) ∧
    ∀ t, t ∈ cs ↔ t ∈ s.timerList ∧ (s.timers t).due ≤ s.clock

/-- No timer that is left is due before a delay from the call on is over. -/
def InTime (s : TimerState) (delay : ℤ) (s' : TimerState) : Prop :=
  ∀ t ∈ s'.timerList, delay ≤ (s'.timers t).due - s.clock

/-- A call when the delay that was told last is over, or in the second of the last walk, or while
no timer runs. -/
def Heeded (s : TimerState) : Prop :=
  s.walks ∨ s.clock = s.lastWakeup ∨ s.timerList = []

theorem expired_calls (h : Ordered s) (now : ℕ) :
    (expired s now).Nodup ∧
      (expired s now).Pairwise (fun a b => (s.timers a).due ≤ (s.timers b).due) ∧
      ∀ t, t ∈ expired s now ↔ t ∈ s.timerList ∧ (s.timers t).due ≤ now := by
  refine ⟨h.nodup.filter _, List.Pairwise.filter _ h.sorted, fun t => ?_⟩
  rw [expired, List.mem_filter, decide_eq_true_eq]

/-- While the walk is skipped nothing is due. -/
theorem Prompt.not_due (h : Prompt s) (hwalks : s.walks = false) :
    ∀ t ∈ s.timerList, s.clock < (s.timers t).due := by
  intro t ht
  have hnext := h.next t ht
  have hskip : ¬ s.clock - s.lastWakeup ≥ s.nextWakeup := by
    simpa [TimerState.walks] using hwalks
  omega

theorem Prompt.walk (h : Prompt s) (hr : ∀ i e, (reactions i).restart = some e → Positive e)
    (hun : Unwrapped s.clock (expired s s.clock).length s.clock reactions) :
    ∃ s', (∀ fuel > s.timerList.length,
        walkAndWakeUpTimer s.clock fuel reactions s = some (.ok s')) ∧ Ordered s' ∧
      (∀ u, Positive (s'.timers u).expire) ∧ s.clock ≤ s'.clock ∧
      calls s'.history = calls s.history ++ expired s s.clock ∧
      ∀ u ∈ s'.timerList, s'.nextWakeup ≤ (s'.timers u).due - s.clock := by
  have hwrap : ∀ u ∈ s.timerList, s.clock < (s.timers u).due →
      ¬ (2 ^ 32 : ℤ) ∣ (s.timers u).due - s.clock := by
    intro u hu hlt
    have hstart := (h.ordered.started u hu).2
    have hexp := (h.positive u).2
    unfold Timer.due at hlt ⊢
    omega
  obtain ⟨s', hwalk, hrest⟩ := walk_spec h.ordered h.positive le_rfl rfl hr hwrap hun
  refine ⟨s', fun fuel hfuel => hwalk fuel ?_, hrest⟩
  exact lt_of_le_of_lt (List.length_filter_le _ _) hfuel

theorem walk_fuel {fuel fuel' : ℕ} {res res' : Except TimerFailure TimerState}
    (h : walkAndWakeUpTimer now fuel reactions s = some res)
    (h' : walkAndWakeUpTimer now fuel' reactions s = some res') : res = res' := by
  induction fuel generalizing fuel' s reactions with
  | zero => cases h
  | succ fuel ih =>
    cases fuel' with
    | zero => cases h'
    | succ fuel' =>
      rw [walkAndWakeUpTimer] at h h'
      rcases hl : s.timerList with _ | ⟨t, others⟩
      · rw [hl] at h h'
        exact Option.some.inj (h.symm.trans h')
      · rw [hl] at h h'
        simp only at h h'
        rcases hw : wakeUpIfNeeded t now (reactions 0) s with e | ⟨ret, s₁⟩
        · rw [hw] at h h'
          exact Option.some.inj (h.symm.trans h')
        · rw [hw] at h h'
          simp only at h h'
          split_ifs at h h'
          · exact Option.some.inj (h.symm.trans h')
          · exact ih h h'

/-- A timer that is started is due after the delay that the globals tell. -/
theorem Prompt.insert (h : Prompt s) {u v : List ℕ} (hord : Ordered (s.insert t u v))
    (hsplit : s.timerList = u ++ v) : Prompt (s.insert t u v) := by
  have hlast := h.last
  refine ⟨hord, fun a => ?_, h.last, fun a ha => ?_⟩
  · by_cases hat : a = t
    · rw [hat]
      simpa [TimerState.insert] using h.positive t
    · simpa [TimerState.insert, Function.update_of_ne hat] using h.positive a
  · have hmin : min s.nextWakeup (s.timers t).expire ≤ s.nextWakeup := min_le_left _ _
    have hmin' : min s.nextWakeup (s.timers t).expire ≤ (s.timers t).expire := min_le_right _ _
    have hcases : a = t ∨ a ∈ s.timerList := by
      rw [hsplit]
      simp only [TimerState.insert, List.mem_append, List.mem_cons] at ha ⊢
      tauto
    by_cases hat : a = t
    · rw [hat]
      simp only [TimerState.insert, Function.update_self, Timer.due]
      omega
    · have := h.next a (hcases.resolve_left hat)
      simp only [TimerState.insert, Function.update_of_ne hat]
      omega

theorem Prompt.record (h : Prompt s) (e : TimerEvent) : Prompt (s.record e) :=
  ⟨h.ordered.record e, h.positive, h.last, h.next⟩

theorem Prompt.step (h : Prompt s) {op : TimerOp} (hop : op.Allowed s) (hp : op.Punctual s)
    (hrun : op.run s = some (.ok s')) : Prompt s' := by
  have hord : Ordered s' := by
    obtain ⟨s'', heq, hord, -⟩ := TimerOp.run_ordered h.ordered hop hrun
    cases heq
    exact hord
  have hlast := h.last
  cases op with
  | tick seconds =>
    cases hrun
    refine ⟨hord, h.positive, ?_, h.next⟩
    simp only [TimerState.tick, Int.natCast_add]
    omega
  | setExpire t expire =>
    cases hrun
    have hp : Positive expire := hp
    refine ⟨hord, fun u => ?_, h.last, fun u hu => ?_⟩
    · by_cases hu : u = t
      · rw [hu]
        simpa [preludeTimerSetExpire] using hp
      · simpa [preludeTimerSetExpire, Function.update_of_ne hu] using h.positive u
    · have hne : u ≠ t := fun heq => hop (heq ▸ hu)
      simpa only [preludeTimerSetExpire, Function.update_of_ne hne] using h.next u hu
  | init t =>
    obtain ⟨u, v, hinit, hsplit, hins⟩ := timerInitUnlocked_spec h.ordered hop
    rw [TimerOp.run, preludeTimerInit, hinit] at hrun
    cases hrun
    exact (h.insert hins hsplit).record _
  | reset t =>
    have h₁ : Prompt (timerDestroyUnlocked t s) :=
      ⟨timerDestroyUnlocked_ordered h.ordered, h.positive, h.last,
        fun u hu => h.next u (List.mem_of_mem_erase hu)⟩
    obtain ⟨u, v, hinit, hsplit, hins⟩ := timerInitUnlocked_spec h₁.ordered
      (not_mem_timerDestroyUnlocked h.ordered)
    rw [TimerOp.run, preludeTimerReset, hinit] at hrun
    cases hrun
    exact (h₁.insert hins hsplit).record _
  | destroy t =>
    cases hrun
    exact ⟨hord, h.positive, h.last, fun u hu => h.next u (List.mem_of_mem_erase hu)⟩
  | wakeUp fuel reactions =>
    simp only [TimerOp.run, preludeTimerWakeUp, Option.map_eq_some_iff] at hrun
    obtain ⟨r, hr, hmap⟩ := hrun
    split_ifs at hr
    · obtain ⟨s₁, hwalk, -, hpos, hclock, -, hnext⟩ := h.walk hp.1 hp.2
      rcases hw : walkAndWakeUpTimer s.clock fuel reactions s with _ | res
      · rw [hw] at hr
        cases hr
      · cases walk_fuel (hwalk _ (Nat.lt_succ_self _)) hw
        rw [hw] at hr
        cases hr
        cases hmap
        refine ⟨hord, hpos, ?_, fun u hu => ?_⟩
        · change (s.clock : ℤ) ≤ s₁.clock
          omega
        · have := hnext u hu
          change (s.clock : ℤ) + s₁.nextWakeup ≤ (s₁.timers u).due
          omega
    · cases hr
      cases hmap
      exact h

theorem PromptRun.prompt (h : PromptRun s) : Prompt s := by
  induction h with
  | start timers clock hpos =>
    exact ⟨⟨.nil, .nil, List.forall_mem_nil _⟩, hpos, Int.natCast_nonneg _, List.forall_mem_nil _⟩
  | step _ hop hp hrun ih => exact ih.step hop hp hrun

/-- A call in a run with positive expirations runs the due callbacks in order and ends. The delay
is in time when the delays told before were heeded; when they were not, and the timer still runs
for which the last was told, it is too long. -/
theorem wake_up_punctual (h : PromptRun s) (hr : (TimerOp.wakeUp 0 reactions).Punctual s) :
    ∃ delay s', (∀ fuel > s.timerList.length,
        preludeTimerWakeUp fuel reactions s = some (.ok (delay, s'))) ∧
      CallsDue s s' ∧ (Heeded s → InTime s delay s') ∧
      (¬ Heeded s → (∃ t ∈ s.timerList, (s.timers t).due = s.lastWakeup + s.nextWakeup) →
        ¬ InTime s delay s') := by
  have hprompt := h.prompt
  have hlast := hprompt.last
  by_cases hwalks : s.walks
  · obtain ⟨s₁, hwalk, -, -, -, hcalls, hnext⟩ := hprompt.walk hr.1 hr.2
    refine ⟨s₁.nextWakeup, { s₁ with lastWakeup := s.clock }, fun fuel hfuel => ?_,
      ⟨_, hcalls, expired_calls hprompt.ordered _⟩, fun _ => hnext, fun hnot => ?_⟩
    · simp only [preludeTimerWakeUp, if_pos hwalks, hwalk fuel hfuel]
    · exact absurd (.inl hwalks) hnot
  · have hdue := hprompt.not_due (by simpa using hwalks)
    refine ⟨s.nextWakeup, s, fun fuel _ => by rw [preludeTimerWakeUp, if_neg hwalks],
      ⟨[], (List.append_nil _).symm, .nil, .nil, fun t => ?_⟩, fun hheeded t ht => ?_, ?_⟩
    · refine iff_of_false List.not_mem_nil ?_
      rintro ⟨ht, hle⟩
      have := hdue t ht
      omega
    · rcases hheeded.resolve_left hwalks with hsame | hnil
      · have := hprompt.next t ht
        omega
      · rw [hnil] at ht
        cases ht
    · rintro hnot ⟨t, ht, htold⟩ hin
      have := hin t ht
      exact hnot (.inr (.inl (by omega)))

def waitingTimer : TimerState where
  timers := Function.update (fun _ => ⟨10, 0⟩) 0 ⟨10, 100⟩
  timerList := [0]
  nextWakeup := 10
  lastWakeup := 100
  clock := 106
  history := [.started 0]

theorem PromptRun.tick (h : PromptRun s) (seconds : ℕ) : PromptRun (s.tick seconds) :=
  @PromptRun.step _ _ (.tick seconds) h trivial trivial rfl

def noTimers : TimerState := ⟨fun _ => ⟨10, 0⟩, [], 0, 0, 100, []⟩

def firstStarted : TimerState := (noTimers.insert 0 [] []).record (.started 0)

theorem firstStarted_run : PromptRun firstStarted := by
  have hinit : (TimerOp.init 0).run noTimers = some (.ok firstStarted) := rfl
  have hop : (TimerOp.init 0).Allowed noTimers := List.not_mem_nil
  exact .step (.start _ 100 fun _ => ⟨by decide, by decide⟩) hop trivial hinit

theorem waitingTimer_run : PromptRun waitingTimer := by
  let reactions : ℕ → TimerReaction := fun _ => .destroy 0
  have hwalk : (TimerOp.wakeUp 2 reactions).run firstStarted =
      some (.ok { firstStarted with nextWakeup := 10, lastWakeup := 100 }) := rfl
  have hp : (TimerOp.wakeUp 2 reactions).Punctual firstStarted := ⟨fun _ _ => by rintro ⟨⟩, trivial⟩
  have hop : (TimerOp.wakeUp 2 reactions).Allowed firstStarted := trivial
  exact (PromptRun.step firstStarted_run hop hp hwalk).tick 6

theorem waitingTimer_late : PromptRun waitingTimer ∧
    preludeTimerWakeUp 2 (fun _ => .destroy 0) waitingTimer = some (.ok (10, waitingTimer)) ∧
      ¬ InTime waitingTimer 10 waitingTimer := by
  refine ⟨waitingTimer_run, rfl, fun h => ?_⟩
  exact absurd (h 0 (List.mem_singleton_self 0)) (by decide)

def twoTimers : TimerState :=
  (((preludeTimerSetExpire 1 20 firstStarted).insert 1 [0] []).record (.started 1)).tick 16

theorem twoTimers_run : PromptRun twoTimers := by
  have hset : (TimerOp.setExpire 1 20).Allowed firstStarted := by
    unfold TimerOp.Allowed
    decide
  have hset' : (TimerOp.setExpire 1 20).Punctual firstStarted := ⟨by decide, by decide⟩
  have hinit : (TimerOp.init 1).Allowed (preludeTimerSetExpire 1 20 firstStarted) := by
    unfold TimerOp.Allowed
    decide
  exact (PromptRun.step (.step firstStarted_run hset hset' rfl) hinit trivial rfl).tick 16

/-- The timer that is due is called and started again for five seconds; the other is next. -/
theorem wake_up_punctual_two : ∃ s', (∀ fuel > 2,
      preludeTimerWakeUp fuel (fun _ => .reset 0 5) twoTimers = some (.ok (4, s'))) ∧
    CallsDue twoTimers s' ∧ s'.timerList = [1, 0] ∧ InTime twoTimers 4 s' := by
  have hr : (TimerOp.wakeUp 0 fun _ => .reset 0 5).Punctual twoTimers := by
    have hwrap : ∀ expire : ℤ, some 5 = some expire →
        ¬ (2 ^ 32 : ℤ) ∣ (116 : ℕ) + (0 : ℕ) + expire - (116 : ℕ) := by
      rintro expire ⟨⟩
      decide
    refine ⟨fun i e he => ?_, hwrap, trivial⟩
    cases he
    exact ⟨by decide, by decide⟩
  obtain ⟨delay, s', hcall, hcalls, hin, -⟩ := wake_up_punctual twoTimers_run hr
  obtain ⟨rfl, hlist⟩ : delay = 4 ∧ s'.timerList = [1, 0] := by
    cases hcall 3 (by decide)
    exact ⟨rfl, rfl⟩
  exact ⟨s', hcall, hcalls, hlist, hin (.inl rfl)⟩

end LibPrelude
