import LibPrelude.Async.Thread
import LibPrelude.General.Progress

/-! # Asynchronous jobs

Every job that is added and not deleted is called once, in the order of the additions. The
thread sleeps only when there is nothing to do, so it gets to rest by its own steps with all
jobs called, and it ends with none left over when it is told to stop.
-/

namespace LibPrelude

namespace Async

variable {s s' : Async} {es : List Event} {e : Event} {queue : List ℕ} {w : Wait}
  {timedOut : Bool}

def Event.added : Event → Option ℕ
  | add obj => some obj
  | _ => none

def Event.deleted : Event → Option ℕ
  | del obj => some obj
  | _ => none

def added (es : List Event) : List ℕ := es.filterMap Event.added

def deleted (es : List Event) : List ℕ := es.filterMap Event.deleted

section Step

@[simp] theorem condSignal_links (s : Async) : s.condSignal.links = s.links := by
  unfold condSignal; split <;> rfl

@[simp] theorem condSignal_started (s : Async) : s.condSignal.started = s.started := by
  unfold condSignal; split <;> rfl

@[simp] theorem condSignal_stopProcessing (s : Async) :
    s.condSignal.stopProcessing = s.stopProcessing := by
  unfold condSignal; split <;> rfl

@[simp] theorem condSignal_isInitialized (s : Async) :
    s.condSignal.isInitialized = s.isInitialized := by
  unfold condSignal; split <;> rfl

@[simp] theorem condSignal_destroyed (s : Async) : s.condSignal.destroyed = s.destroyed := by
  unfold condSignal; split <;> rfl

theorem condSignal_awake (s : Async) (w : Wait) : s.condSignal.thread ≠ .asleep w := by
  unfold condSignal
  split
  · simp
  · rename_i h
    exact h w

theorem condSignal_ended (s : Async) : s.condSignal.thread = .ended ↔ s.thread = .ended := by
  unfold condSignal
  split
  · rename_i h
    simp [h]
  · rfl

/-- What the thread does under the lock. -/
inductive Checked (s : Async) (w : Wait) (timedOut : Bool) : Async → Prop
  | sleep : s.links.preludeListIsEmpty joblist → s.stopProcessing = false →
      s.asyncFlags = s.nflags → timedOut = false →
      Checked s w timedOut { s with thread := .asleep w }
  | stop : s.links.preludeListIsEmpty joblist → s.stopProcessing = true →
      Checked s w timedOut { s with thread := .ended }
  | go : (s.links.preludeListIsEmpty joblist →
        s.stopProcessing = false ∧ (s.asyncFlags = s.nflags → timedOut = true)) →
      Checked s w timedOut { s with
        nflags := s.asyncFlags
        thread := afterWait w timedOut (s.links.preludeListIsEmpty joblist) }

theorem check_spec (s : Async) (w : Wait) (timedOut : Bool) :
    Checked s w timedOut (s.check w timedOut) := by
  unfold check
  extract_lets noJobAvailable
  split_ifs with hwait hstop
  · exact .sleep hwait.1 (by simpa using hwait.2.1) hwait.2.2.1 (by simpa using hwait.2.2.2)
  · exact .stop hstop.1 hstop.2
  · refine .go fun hempty => ?_
    have hs : s.stopProcessing = false := by
      rw [← Bool.not_eq_true]
      exact fun hs => hstop ⟨hempty, hs⟩
    refine ⟨hs, fun hflags => ?_⟩
    rw [← Bool.not_eq_false]
    exact fun ht => hwait ⟨hempty, by simp [hs], hflags, by simp [ht]⟩

@[simp] theorem afterWait_ne_asleep (w w' : Wait) (timedOut noJobAvailable : Bool) :
    afterWait w timedOut noJobAvailable ≠ .asleep w' := by
  cases w <;> simp [afterWait]

@[simp] theorem afterWait_ne_ended (w : Wait) (timedOut noJobAvailable : Bool) :
    afterWait w timedOut noJobAvailable ≠ .ended := by
  cases w <;> simp [afterWait]

theorem getNextJob_nil (h : s.links.Ring joblist []) : getNextJob s.links = none :=
  if_pos h.next.first

theorem getNextJob_cons {obj : ℕ} (h : s.links.Ring joblist (obj :: queue)) :
    ∃ links, getNextJob s.links = some (obj, links) ∧ links.Ring joblist queue := by
  have hfirst : s.links.next joblist = obj := h.next.first
  have hne : obj ≠ joblist := (List.ne_of_not_mem_cons h.notMem).symm
  have hfront : s.links.Ring joblist ([] ++ obj :: queue) := h
  refine ⟨s.links.preludeListDel obj, ?_, hfront.unlink⟩
  rw [getNextJob, hfirst, if_neg hne]

/-- What a step of the thread does: it looks at the list, takes a job, or moves on. -/
inductive Stepped (s : Async) : Async → Prop
  | check {s' : Async} (w : Wait) (timedOut : Bool) : Checked s w timedOut s' → Stepped s s'
  | take {obj : ℕ} {links : Links ℕ} : getNextJob s.links = some (obj, links) →
      Stepped s { s with links, thread := .running obj, started := s.started ++ [obj] }
  | move (nflags : UInt32) (wakeUps : ℕ) {t : ThreadState} : (∀ w, t ≠ .asleep w) → t ≠ .ended →
      Stepped s { s with nflags, wakeUps, thread := t }

theorem threadStep_spec {now : Timespec} (h : s.threadStep now = some s') : Stepped s s' := by
  unfold threadStep at h
  split at h
  case h_4 => cases h; exact .move _ s.wakeUps (by simp) (by simp)
  case h_5 => cases h; exact .move s.nflags s.wakeUps (by simp) (by simp)
  case h_6 => exact .check _ _ (Option.some.inj h ▸ check_spec _ _ _)
  case h_7 => exact .check _ _ (Option.some.inj h ▸ check_spec _ _ _)
  case h_8 =>
    cases h
    refine .move s.nflags _ (fun w => ?_) ?_
    · split <;> simp
    · split <;> simp
  case h_9 =>
    split at h
    · cases h
      exact .move s.nflags s.wakeUps (by simp) (by simp)
    · rename_i hnext
      cases h
      exact .take hnext
  case h_10 => cases h; exact .move s.nflags s.wakeUps (by simp) (by simp)
  all_goals cases h

/-- It calls the first job, or leaves the list alone. -/
theorem Stepped.jobs (h : Stepped s s') (hring : s.links.Ring joblist queue) :
    (∃ obj rest, queue = obj :: rest ∧ s'.links.Ring joblist rest ∧
      s'.started = s.started ++ [obj]) ∨ (s'.links = s.links ∧ s'.started = s.started) := by
  cases h with
  | check w timedOut hc => cases hc <;> exact .inr ⟨rfl, rfl⟩
  | move => exact .inr ⟨rfl, rfl⟩
  | take hnext =>
    cases queue with
    | nil => simp [getNextJob_nil hring] at hnext
    | cons first rest =>
      obtain ⟨links, hnext', hrest⟩ := getNextJob_cons hring
      rw [hnext'] at hnext
      cases hnext
      exact .inl ⟨_, rest, rfl, hrest, rfl⟩

theorem Stepped.frame (h : Stepped s s') : s'.stopProcessing = s.stopProcessing ∧
    s'.isInitialized = s.isInitialized ∧ s'.destroyed = s.destroyed := by
  cases h with
  | check w timedOut hc => cases hc <;> exact ⟨rfl, rfl, rfl⟩
  | take _ => exact ⟨rfl, rfl, rfl⟩
  | move => exact ⟨rfl, rfl, rfl⟩

theorem Stepped.rest (h : Stepped s s') :
    (∀ w, s'.thread = .asleep w → s'.links.preludeListIsEmpty joblist ∧
      s'.stopProcessing = false ∧ s'.asyncFlags = s'.nflags) ∧
    (s'.thread = .ended → s'.links.preludeListIsEmpty joblist ∧ s'.stopProcessing = true) := by
  cases h with
  | check w timedOut hc =>
    cases hc with
    | sleep hempty hstop hflags _ => exact ⟨fun _ _ => ⟨hempty, hstop, hflags⟩, by simp⟩
    | stop hempty hstop => exact ⟨by simp, fun _ => ⟨hempty, hstop⟩⟩
    | go _ => exact ⟨by simp, by simp⟩
  | take _ => exact ⟨by simp, by simp⟩
  | move _ _ hasleep hended =>
    exact ⟨fun w h => absurd h (hasleep w), fun h => absurd h hended⟩

end Step

section Run

/-- The jobs called and those in the list are the ones added, in order and as often, without the
deleted ones. -/
structure Keeps (s : Async) (es : List Event) (queue : List ℕ) : Prop where
  ring : s.links.Ring joblist queue
  order : (s.started ++ queue).Sublist (added es)
  count : (s.started ++ queue ++ deleted es).Perm (added es)

theorem added_append (es : List Event) (e : Event) :
    added (es ++ [e]) = added es ++ e.added.toList := by
  rw [added, List.filterMap_append]
  cases h : e.added <;> simp [added, h]

theorem deleted_append (es : List Event) (e : Event) :
    deleted (es ++ [e]) = deleted es ++ e.deleted.toList := by
  rw [deleted, List.filterMap_append]
  cases h : e.deleted <;> simp [deleted, h]

/-- What neither adds nor deletes may call a job. -/
theorem Keeps.move {queue' : List ℕ} (hk : Keeps s es queue) (hadd : e.added = none)
    (hdel : e.deleted = none) (hring : s'.links.Ring joblist queue')
    (heq : s'.started ++ queue' = s.started ++ queue) : Keeps s' (es ++ [e]) queue' where
  ring := hring
  order := by simpa [added_append, hadd, heq] using hk.order
  count := by simpa [added_append, deleted_append, hadd, hdel, heq] using hk.count

theorem Keeps.add {obj : ℕ} (hk : Keeps s es queue) (ha : s.Allowed (.add obj)) :
    Keeps (s.preludeAsyncAdd obj) (es ++ [.add obj]) (queue ++ [obj]) where
  ring := by
    rw [preludeAsyncAdd, condSignal_links]
    exact Links.addTail_head hk.ring (ha queue hk.ring)
  order := by
    rw [preludeAsyncAdd, condSignal_started, added_append, ← List.append_assoc]
    exact hk.order.append_right [obj]
  count := by
    rw [preludeAsyncAdd, condSignal_started, added_append, deleted_append, ← List.append_assoc]
    have hlast : (s.started ++ queue ++ [obj] ++ deleted es).Perm
        (s.started ++ queue ++ deleted es ++ [obj]) := by
      rw [List.append_assoc, List.append_assoc _ (deleted es)]
      exact List.perm_append_comm.append_left _
    simpa [Event.deleted, Event.added] using hlast.trans (hk.count.append_right [obj])

theorem Keeps.del {obj : ℕ} (hk : Keeps s es queue) (ha : s.Allowed (.del obj)) :
    ∃ queue', Keeps (s.preludeAsyncDel obj) (es ++ [.del obj]) queue' := by
  obtain ⟨l₁, l₂, rfl⟩ := List.append_of_mem (ha queue hk.ring)
  refine ⟨l₁ ++ l₂, Links.Ring.unlink hk.ring, ?_, ?_⟩
  · have hsub : (s.started ++ (l₁ ++ l₂)).Sublist (s.started ++ (l₁ ++ obj :: l₂)) :=
      ((List.sublist_cons_self obj l₂).append_left l₁).append_left s.started
    simpa [preludeAsyncDel, added_append, Event.added] using hsub.trans hk.order
  · have hperm : (s.started ++ (l₁ ++ l₂) ++ (deleted es ++ [obj])).Perm
        (s.started ++ (l₁ ++ obj :: l₂) ++ deleted es) := by
      rw [List.perm_iff_count]
      intro a
      simp only [List.count_append, List.count_cons, List.count_nil]
      omega
    simpa [preludeAsyncDel, added_append, deleted_append, Event.added, Event.deleted] using
      hperm.trans hk.count

theorem Keeps.step (hk : Keeps s es queue) (ha : s.Allowed e) (h : s.step e = some s') :
    ∃ queue', Keeps s' (es ++ [e]) queue' := by
  unfold Async.step at h
  split_ifs at h
  cases e with
  | thread now =>
    rcases (threadStep_spec h).jobs hk.ring with ⟨obj, rest, rfl, hring, heq⟩ | ⟨hlinks, heq⟩
    · exact ⟨rest, hk.move rfl rfl hring (by rw [heq, List.append_assoc]; rfl)⟩
    · exact ⟨queue, hk.move rfl rfl (hlinks ▸ hk.ring) (by rw [heq])⟩
  | spurious =>
    dsimp only at h
    split at h
    · cases h
      exact ⟨queue, hk.move rfl rfl hk.ring rfl⟩
    · cases h
  | timeout =>
    dsimp only at h
    split at h
    · cases h
      exact ⟨queue, hk.move rfl rfl hk.ring rfl⟩
    · cases h
  | add obj =>
    cases h
    exact ⟨_, hk.add ha⟩
  | del obj =>
    cases h
    exact hk.del ha
  | setFlags flags =>
    cases h
    exact ⟨queue, hk.move rfl rfl (by simpa [preludeAsyncSetFlags] using hk.ring)
      (by simp [preludeAsyncSetFlags])⟩
  | init created =>
    cases h
    refine ⟨queue, hk.move rfl rfl ?_ ?_⟩
    · unfold preludeAsyncInit; split <;> exact hk.ring
    · unfold preludeAsyncInit; split <;> rfl
  | exit =>
    cases h
    refine ⟨queue, hk.move rfl rfl ?_ ?_⟩
    · unfold preludeAsyncExit; split <;> simpa using hk.ring
    · unfold preludeAsyncExit; split <;> simp
  | join =>
    dsimp only [joinThread] at h
    split at h
    · cases h
      exact ⟨queue, hk.move rfl rfl hk.ring rfl⟩
    · cases h

/-- A thread that sleeps has nothing to do, and one that has ended was told to stop. -/
structure Rests (s : Async) : Prop where
  asleep : ∀ w, s.thread = .asleep w → s.links.preludeListIsEmpty joblist ∧
    s.stopProcessing = false ∧ s.asyncFlags = s.nflags
  stopped : s.thread = .ended → s.stopProcessing = true
  alive : s.thread ≠ .absent → s.isInitialized = true

theorem Rests.of_awake (hasleep : ∀ w, s.thread ≠ .asleep w) (hended : s.thread ≠ .ended)
    (halive : s.thread ≠ .absent → s.isInitialized = true) : Rests s :=
  ⟨fun w h => absurd h (hasleep w), fun h => absurd h hended, halive⟩

theorem rests_start (links : Links ℕ) : Rests (start links) :=
  .of_awake (by simp [start]) (by simp [start]) fun h => absurd rfl h

theorem Rests.condSignal (hstop : s.thread = .ended → s.stopProcessing = true)
    (halive : s.thread ≠ .absent → s.isInitialized = true) : Rests s.condSignal where
  asleep w h := absurd h (condSignal_awake s w)
  stopped h := by
    rw [condSignal_stopProcessing]
    exact hstop ((condSignal_ended s).mp h)
  alive h := by
    rw [condSignal_isInitialized]
    refine halive fun habsent => h ?_
    unfold Async.condSignal
    rw [habsent]
    exact habsent

theorem not_isEmpty_of_del {obj : ℕ} (hring : s.links.Ring joblist queue)
    (ha : s.Allowed (.del obj)) : ¬ s.links.preludeListIsEmpty joblist := by
  intro hempty
  have hmem := ha queue hring
  rw [(Links.isEmpty_iff hring).mp hempty] at hmem
  exact List.not_mem_nil hmem

theorem Rests.step (hr : Rests s) (hring : s.links.Ring joblist queue) (ha : s.Allowed e)
    (h : s.step e = some s') : Rests s' := by
  unfold Async.step at h
  split_ifs at h
  cases e with
  | thread now =>
    have hstep := threadStep_spec h
    obtain ⟨hasleep, hended⟩ := hstep.rest
    have hpresent : s.thread ≠ .absent := by
      intro habsent
      simp [threadStep, habsent] at h
    exact ⟨hasleep, fun h' => (hended h').2, fun _ => hstep.frame.2.1.trans (hr.alive hpresent)⟩
  | spurious =>
    dsimp only at h
    split at h
    · rename_i hthread
      cases h
      exact .of_awake (by simp) (by simp) fun _ => hr.alive (by simp [hthread])
    · cases h
  | timeout =>
    dsimp only at h
    split at h
    · rename_i hthread
      cases h
      exact .of_awake (by simp) (by simp) fun _ => hr.alive (by simp [hthread])
    · cases h
  | add obj =>
    cases h
    exact .condSignal hr.stopped hr.alive
  | del obj =>
    cases h
    refine ⟨fun w hw => ?_, hr.stopped, hr.alive⟩
    exact absurd (hr.asleep w hw).1 (not_isEmpty_of_del hring ha)
  | setFlags flags =>
    cases h
    exact .condSignal hr.stopped hr.alive
  | init created =>
    cases h
    unfold preludeAsyncInit
    split
    · exact hr
    · next hinit =>
      have habsent : s.thread = .absent := by_contra fun h => hinit (hr.alive h)
      exact .of_awake (by cases created <;> simp [habsent]) (by cases created <;> simp [habsent])
        fun _ => rfl
  | exit =>
    cases h
    unfold preludeAsyncExit
    split
    · exact .condSignal (fun _ => rfl) hr.alive
    · exact hr
  | join =>
    dsimp only [joinThread] at h
    split at h
    · cases h
      exact .of_awake (by simp) (by simp) fun h => absurd rfl h
    · cases h

theorem Run.invariant {allowed : Async → Event → Prop} (h : Run allowed es s)
    (hallowed : ∀ s e, allowed s e → s.Allowed e) : (∃ queue, Keeps s es queue) ∧ Rests s := by
  induction h with
  | start links =>
    exact ⟨⟨[], Links.Ring.single links joblist, List.Sublist.refl [], List.Perm.refl []⟩,
      rests_start links⟩
  | step e _ ha hstep ih =>
    obtain ⟨⟨queue, hk⟩, hr⟩ := ih
    exact ⟨hk.step (hallowed _ _ ha) hstep, hr.step hk.ring (hallowed _ _ ha) hstep⟩

end Run

section Progress

/-- All jobs are called, and the thread sleeps, or has ended when it was told to stop. -/
structure Settled (started : List ℕ) (stop : Bool) (s : Async) : Prop where
  ring : s.links.Ring joblist []
  started : s.started = started
  rest : if stop then s.thread = .ended else ∃ w, s.thread = .asleep w

def Looks (s : Async) (w : Wait) (timedOut : Bool) : Prop :=
  (s.thread = .lock w ∧ timedOut = false) ∨ s.thread = .woken w timedOut

theorem Looks.threadStep (h : s.Looks w timedOut) (now : Timespec) :
    s.threadStep now = some (s.check w timedOut) := by
  rcases h with ⟨h, rfl⟩ | h
  · simp [Async.threadStep, h]
  · simp [Async.threadStep, h]

/-- With an empty list it rests, or goes on when the flags are new or a second is over. -/
theorem Checked.empty (hc : Checked s w timedOut s') (hring : s.links.Ring joblist []) :
    Settled s.started s.stopProcessing s' ∨
      (s' = { s with nflags := s.asyncFlags, thread := afterWait w timedOut true } ∧
        (s.asyncFlags = s.nflags → timedOut = true)) := by
  have hempty := (Links.isEmpty_iff hring).mpr rfl
  cases hc with
  | sleep _ hstop => exact .inl ⟨hring, rfl, by simp [hstop]⟩
  | stop _ hstop => exact .inl ⟨hring, rfl, by simp [hstop]⟩
  | go hgo => exact .inr ⟨by rw [hempty], (hgo hempty).2⟩

theorem Checked.nonempty (hc : Checked s w timedOut s') (hring : s.links.Ring joblist queue)
    (hne : queue ≠ []) :
    s' = { s with nflags := s.asyncFlags, thread := afterWait w timedOut false } := by
  have hempty : ¬ s.links.preludeListIsEmpty joblist :=
    fun h => hne ((Links.isEmpty_iff hring).mp h)
  cases hc with
  | sleep h => exact absurd h hempty
  | stop h => exact absurd h hempty
  | go => rw [eq_false_of_ne_true hempty]

abbrev Settles (n : ℕ) (queue : List ℕ) (s : Async) : Prop :=
  Attains threadStep (Settled (s.started ++ queue) s.stopProcessing) n s

theorem settles_looks_known (hring : s.links.Ring joblist []) (hl : s.Looks w false)
    (hflags : s.asyncFlags = s.nflags) : Settles 1 [] s := by
  refine .next fun now => ⟨_, hl.threadStep now, ?_⟩
  rcases (check_spec s w false).empty hring with h | ⟨-, h⟩
  · rw [List.append_nil]
    exact .now h
  · exact absurd (h hflags) Bool.false_ne_true

theorem settles_top_known (hring : s.links.Ring joblist []) (ht : s.thread = .top)
    (hflags : s.asyncFlags = s.nflags) : Settles 2 [] s :=
  .next fun now => ⟨_, by rw [threadStep, ht],
    settles_looks_known (s := { s with thread := .lock _ }) hring (.inl ⟨rfl, rfl⟩) hflags⟩

theorem settles_taking_known (hring : s.links.Ring joblist []) (ht : s.thread = .taking)
    (hflags : s.asyncFlags = s.nflags) : Settles 3 [] s :=
  .next fun now => ⟨{ s with thread := .top }, by simp [threadStep, ht, getNextJob_nil hring],
    settles_top_known (s := { s with thread := .top }) hring rfl hflags⟩

/-- An empty list is looked at twice at most: the second time the flags are known. -/
theorem settles_looks_nil (hring : s.links.Ring joblist []) (hl : s.Looks w timedOut) :
    Settles 4 [] s := by
  refine .next fun now => ⟨_, hl.threadStep now, ?_⟩
  rcases (check_spec s w timedOut).empty hring with h | ⟨h, -⟩
  · rw [List.append_nil]
    exact .now h
  · rw [h]
    cases w with
    | data =>
      exact settles_taking_known (s := { s with nflags := s.asyncFlags, thread := .taking }) hring
        rfl rfl
    | timer lastWakeup =>
      refine Attains.mono (n := 2) (.next fun now => ⟨_, rfl, ?_⟩) (by decide)
      exact settles_looks_known (s := { s with
        nflags := s.asyncFlags, wakeUps := _, thread := .lock (.timer _) }) hring
        (.inl ⟨rfl, rfl⟩) rfl

theorem settles_top_nil (hring : s.links.Ring joblist []) (ht : s.thread = .top) :
    Settles 5 [] s :=
  .next fun now => ⟨_, by rw [threadStep, ht],
    settles_looks_nil (s := { s with thread := .lock _ }) hring (.inl ⟨rfl, rfl⟩)⟩

theorem settles_taking (hring : s.links.Ring joblist queue) (ht : s.thread = .taking) :
    Settles (2 * queue.length + 6) queue s := by
  induction queue generalizing s with
  | nil =>
    exact .next fun now => ⟨{ s with thread := .top }, by
      simp [threadStep, ht, getNextJob_nil hring],
      settles_top_nil (s := { s with thread := .top }) hring rfl⟩
  | cons obj rest ih =>
    obtain ⟨links, hnext, hrest⟩ := getNextJob_cons hring
    refine .next fun now => ⟨{ s with
      links, thread := .running obj, started := s.started ++ [obj] }, by
      simp [threadStep, ht, hnext], .next fun now => ⟨_, rfl, ?_⟩⟩
    have h := ih (s := { s with links, thread := .taking, started := s.started ++ [obj] }) hrest rfl
    rw [Settles, List.append_assoc] at h
    exact h

theorem settles_looks (hring : s.links.Ring joblist queue) (hl : s.Looks w timedOut) :
    Settles (2 * queue.length + 8) queue s := by
  cases queue with
  | nil => exact (settles_looks_nil hring hl).mono (by simp)
  | cons obj rest =>
    have hgo := (check_spec s w timedOut).nonempty hring (List.cons_ne_nil obj rest)
    refine Attains.next fun now => ⟨_, hl.threadStep now, ?_⟩
    rw [hgo]
    cases w with
    | data =>
      exact (settles_taking (s := { s with nflags := s.asyncFlags, thread := .taking }) hring
        rfl).mono (by simp)
    | timer lastWakeup =>
      refine Attains.next fun now => ⟨_, rfl, ?_⟩
      exact settles_taking (s := { s with
        nflags := s.asyncFlags, wakeUps := _, thread := .taking }) hring rfl

theorem settles_top (hring : s.links.Ring joblist queue) (ht : s.thread = .top) :
    Settles (2 * queue.length + 9) queue s :=
  .next fun now => ⟨_, by rw [threadStep, ht],
    settles_looks (s := { s with thread := .lock _ }) hring (.inl ⟨rfl, rfl⟩)⟩

theorem settles (hr : Rests s) (hring : s.links.Ring joblist queue) (habsent : s.thread ≠ .absent)
    (hended : s.thread ≠ .ended) : Settles (2 * queue.length + 10) queue s := by
  cases ht : s.thread with
  | absent => exact absurd ht habsent
  | ended => exact absurd ht hended
  | starting =>
    exact .next fun now => ⟨{ s with nflags := s.asyncFlags, thread := .top }, by
      rw [threadStep, ht], settles_top (s := { s with nflags := s.asyncFlags, thread := .top })
        hring rfl⟩
  | top => exact (settles_top hring ht).mono (by simp)
  | lock w => exact (settles_looks hring (.inl ⟨ht, rfl⟩)).mono (by simp)
  | woken w timedOut => exact (settles_looks hring (.inr ht)).mono (by simp)
  | asleep w =>
    obtain ⟨hempty, hstop, -⟩ := hr.asleep w ht
    obtain rfl := (Links.isEmpty_iff hring).mp hempty
    exact .now ⟨hring, (List.append_nil _).symm, by simp [hstop, ht]⟩
  | unlocked lastWakeup timedOut noJobAvailable =>
    refine .next fun now => ⟨_, by rw [threadStep, ht], ?_⟩
    cases noJobAvailable with
    | true =>
      exact (settles_looks (s := { s with wakeUps := _, thread := .lock (.timer _) }) hring
        (.inl ⟨rfl, rfl⟩)).mono (by simp)
    | false =>
      exact (settles_taking (s := { s with wakeUps := _, thread := .taking }) hring rfl).mono
        (by simp)
  | taking => exact (settles_taking hring ht).mono (by simp)
  | running obj =>
    exact .next fun now => ⟨{ s with thread := .taking }, by rw [threadStep, ht],
      (settles_taking (s := { s with thread := .taking }) hring rfl).mono (by simp)⟩

theorem Run.threads {allowed : Async → Event → Prop} (hall : ∀ s now, allowed s (.thread now))
    {k : ℕ} : ∀ {es : List Event} {s s' : Async} (clock : ℕ → Timespec), Run allowed es s →
      s.destroyed = false → runFor threadStep clock k s = some s' →
      Run allowed (es ++ (List.range k).map fun n => .thread (clock n)) s' := by
  induction k with
  | zero =>
    intro es s s' clock h _ hrun
    cases hrun
    simpa using h
  | succ k ih =>
    intro es s s' clock h hd hrun
    obtain ⟨s₁, hstep, hrun⟩ := Option.bind_eq_some_iff.mp hrun
    have h₁ : Run allowed (es ++ [.thread (clock 0)]) s₁ :=
      .step _ h (hall _ _) (by simpa [Async.step, hd] using hstep)
    have hd₁ : s₁.destroyed = false := (threadStep_spec hstep).frame.2.2.trans hd
    have hk := ih (fun n => clock (n + 1)) h₁ hd₁ hrun
    rw [List.append_assoc, List.singleton_append] at hk
    rw [List.range_succ_eq_map, List.map_cons, List.map_map]
    exact hk

end Progress

/-- Nothing is added once the thread is told to stop. -/
def BeforeExit (s : Async) : Event → Prop
  | .add _ => s.stopProcessing = false
  | _ => True

/-- An end of the thread leaves an empty list. -/
def Drained (s : Async) : Prop :=
  s.thread = .ended ∨ s.destroyed = true → s.links.preludeListIsEmpty joblist

theorem drained_condSignal (h : s.Drained) : s.condSignal.Drained := by
  intro hend
  rw [condSignal_ended, condSignal_destroyed] at hend
  rw [condSignal_links]
  exact h hend

theorem Drained.step (hd : s.Drained) (hr : Rests s) (hring : s.links.Ring joblist queue)
    (ha : s.Allowed e) (hb : s.BeforeExit e) (h : s.step e = some s') : s'.Drained := by
  unfold Async.step at h
  split_ifs at h with hdestroyed
  cases e with
  | thread now =>
    have hstep := threadStep_spec h
    rintro (hended | hdes)
    · exact (hstep.rest.2 hended).1
    · exact absurd (hstep.frame.2.2 ▸ hdes) hdestroyed
  | spurious =>
    dsimp only at h
    split at h
    · cases h
      rintro (hended | hdes)
      · cases hended
      · exact absurd hdes hdestroyed
    · cases h
  | timeout =>
    dsimp only at h
    split at h
    · cases h
      rintro (hended | hdes)
      · cases hended
      · exact absurd hdes hdestroyed
    · cases h
  | add obj =>
    cases h
    refine drained_condSignal ?_
    rintro (hended | hdes)
    · exact absurd ((hr.stopped hended).symm.trans hb) Bool.noConfusion
    · exact absurd hdes hdestroyed
  | del obj =>
    cases h
    rintro (hended | hdes)
    · exact absurd (hd (.inl hended)) (not_isEmpty_of_del hring ha)
    · exact absurd hdes hdestroyed
  | setFlags flags =>
    cases h
    exact drained_condSignal hd
  | init created =>
    cases h
    unfold preludeAsyncInit
    split
    · exact hd
    · rintro (hended | hdes)
      · cases created with
        | true => cases hended
        | false => exact hd (.inl hended)
      · exact absurd hdes hdestroyed
  | exit =>
    cases h
    unfold preludeAsyncExit
    split
    · exact drained_condSignal hd
    · exact hd
  | join =>
    dsimp only [joinThread] at h
    split at h
    · rename_i hthread
      cases h
      exact fun _ => hd (.inl hthread)
    · cases h

theorem Run.drained (h : Run (fun s e => s.Allowed e ∧ s.BeforeExit e) es s) : s.Drained := by
  induction h with
  | start links =>
    rintro (h | h)
    · cases h
    · cases h
  | step e hrun ha hstep ih =>
    obtain ⟨⟨queue, hk⟩, hr⟩ := hrun.invariant fun _ _ => And.left
    exact ih.step hr hk.ring ha.1 ha.2 hstep

theorem Run.mono {allowed allowed' : Async → Event → Prop} (h : Run allowed es s)
    (hle : ∀ s e, allowed s e → allowed' s e) : Run allowed' es s := by
  induction h with
  | start links => exact .start links
  | step e _ ha hstep ih => exact .step e ih (hle _ _ ha) hstep

def oneJob : Async := ((start ⟨id, id⟩).preludeAsyncInit true).preludeAsyncAdd 5

theorem allowed_add {obj : ℕ} (hring : s.links.Ring joblist queue) (h : obj ∉ joblist :: queue) :
    s.Allowed (.add obj) := fun _ hring' => hring.unique hring' ▸ h

theorem allowed_del {obj : ℕ} (hring : s.links.Ring joblist queue) (h : obj ∈ queue) :
    s.Allowed (.del obj) := fun _ hring' => hring.unique hring' ▸ h

theorem oneJob_run : Run (fun s e => s.Allowed e ∧ s.BeforeExit e) [.init true, .add 5] oneJob := by
  have hinit : Run (fun s e => s.Allowed e ∧ s.BeforeExit e) [.init true]
      ((start ⟨id, id⟩).preludeAsyncInit true) := .step _ (.start _) ⟨trivial, trivial⟩ rfl
  exact .step (.add 5) hinit ⟨allowed_add (Links.Ring.single _ _) (by decide), rfl⟩ rfl

section Results

/-- In every interleaving of its thread with the rest of the program, the jobs called so far and
those in the list are the ones added without the deleted ones, each as often and in order. -/
theorem jobs_in_order (h : Run Allowed es s) :
    ∃ queue, s.links.Ring joblist queue ∧ (s.started ++ queue).Sublist (added es) ∧
      (s.started ++ queue ++ deleted es).Perm (added es) := by
  obtain ⟨⟨queue, hk⟩, -⟩ := h.invariant fun _ _ => id
  exact ⟨queue, hk.ring, hk.order, hk.count⟩

/-- Three jobs are added; while the first of them runs, the second one is deleted. -/
theorem jobs_in_order_three : ∃ es s, Run Allowed es s ∧ added es = [5, 6, 7] ∧
    deleted es = [6] ∧ s.started = [5] ∧ ∃ queue, s.links.Ring joblist queue ∧
      (s.started ++ queue).Sublist (added es) ∧
      (s.started ++ queue ++ deleted es).Perm (added es) := by
  have hone := oneJob_run.mono fun _ _ => And.left
  have hring : oneJob.links.Ring joblist [5] :=
    Links.addTail_head (Links.Ring.single _ _) (by decide)
  have htwo := Run.step (.add 6) hone (allowed_add hring (by decide)) rfl
  have hring₂ := Links.addTail_head (x := 6) hring (by decide)
  have hthree := Run.step (.add 7) htwo (allowed_add hring₂ (by decide)) rfl
  have hring₃ : Links.Ring _ joblist ([] ++ 5 :: [6, 7]) :=
    Links.addTail_head (x := 7) hring₂ (by decide)
  have htop := Run.step (.thread ⟨0, 0⟩) hthree trivial rfl
  have hlock := Run.step (.thread ⟨0, 0⟩) htop trivial rfl
  have htaking := Run.step (.thread ⟨0, 0⟩) hlock trivial rfl
  have hrunning := Run.step (.thread ⟨0, 0⟩) htaking trivial rfl
  have hdel := Run.step (.del 6) hrunning
    (allowed_del hring₃.unlink (by decide)) rfl
  exact ⟨_, _, hdel, rfl, rfl, rfl, jobs_in_order hdel⟩

/-- Wherever it is, and whatever the time, the thread that is left alone gets to rest: with the
jobs of the list called in order, it sleeps, or has ended when it was told to stop. -/
theorem thread_settles (h : Run Allowed es s) (habsent : s.thread ≠ .absent)
    (hended : s.thread ≠ .ended) : ∃ queue, s.links.Ring joblist queue ∧
      ∀ clock, ∃ k ≤ 2 * queue.length + 10, ∃ s', runFor threadStep clock k s = some s' ∧
        s'.started = s.started ++ queue ∧ s'.links.Ring joblist [] ∧
        (s.stopProcessing = true → s'.thread = .ended) ∧
        (s.stopProcessing = false → ∃ w, s'.thread = .asleep w) := by
  obtain ⟨⟨queue, hk⟩, hr⟩ := h.invariant fun _ _ => id
  refine ⟨queue, hk.ring, fun clock => ?_⟩
  obtain ⟨k, hle, s', hrun, hs⟩ := (settles hr hk.ring habsent hended).run clock
  exact ⟨k, hle, s', hrun, hs.started, hs.ring, fun hstop => by simpa [hstop] using hs.rest,
    fun hstop => by simpa [hstop] using hs.rest⟩

theorem thread_settles_one : ∃ queue, oneJob.links.Ring joblist queue ∧
    ∀ clock, ∃ k s', runFor threadStep clock k oneJob = some s' ∧
      s'.started = oneJob.started ++ queue ∧ ∃ w, s'.thread = .asleep w := by
  obtain ⟨queue, hring, hrun⟩ :=
    thread_settles (oneJob_run.mono fun _ _ => And.left) ThreadState.noConfusion
      ThreadState.noConfusion
  refine ⟨queue, hring, fun clock => ?_⟩
  obtain ⟨k, -, s', hk, hstarted, -, -, hasleep⟩ := hrun clock
  exact ⟨k, s', hk, hstarted, hasleep rfl⟩

/-- When the thread has ended and nothing was added since it was told to stop, every job that was
not deleted was called. -/
theorem exit_drains (h : Run (fun s e => s.Allowed e ∧ s.BeforeExit e) es s)
    (hend : s.thread = .ended ∨ s.destroyed = true) :
    s.started.Sublist (added es) ∧ (s.started ++ deleted es).Perm (added es) := by
  obtain ⟨⟨queue, hk⟩, -⟩ := h.invariant fun _ _ => And.left
  obtain rfl := (Links.isEmpty_iff hk.ring).mp (h.drained hend)
  have horder := hk.order
  have hcount := hk.count
  rw [List.append_nil] at horder hcount
  exact ⟨horder, hcount⟩

/-- A program that makes a thread, gives it a job and tells it to stop. -/
theorem exit_drains_one : ∃ es, ∃ s : Async, s.thread = .ended ∧ added es = [5] ∧
    s.started.Sublist (added es) ∧ (s.started ++ deleted es).Perm (added es) := by
  have hexit : Run (fun s e => s.Allowed e ∧ s.BeforeExit e) [.init true, .add 5, .exit]
      oneJob.preludeAsyncExit := .step .exit oneJob_run ⟨trivial, trivial⟩ rfl
  obtain ⟨⟨queue, hk⟩, hr⟩ := hexit.invariant fun _ _ => And.left
  have hsettles := settles hr hk.ring ThreadState.noConfusion ThreadState.noConfusion
  obtain ⟨k, -, s', hrun, hs⟩ := hsettles.run fun _ => ⟨0, 0⟩
  have hend : s'.thread = .ended := hs.rest
  have hall := hexit.threads (fun _ _ => ⟨trivial, trivial⟩) _ rfl hrun
  have hthreads : added ((List.range k).map fun _ => Event.thread ⟨0, 0⟩) = [] :=
    List.filterMap_eq_nil_iff.mpr (by simp [Event.added])
  refine ⟨_, s', hend, ?_, exit_drains hall (.inl hend)⟩
  exact (List.filterMap_append ..).trans (congrArg ([5] ++ ·) hthreads)

end Results

end Async

end LibPrelude
