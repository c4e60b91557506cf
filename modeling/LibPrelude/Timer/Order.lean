import LibPrelude.Timer.State

/-! # The order of the timers

The list of timers stays sorted by expiration through every operation, so the searches
find a place and neither assert nor abort. A callback takes its timer out of the list
before it puts it back, so the walk of the list keeps the order too.
-/

namespace LibPrelude

variable {timers : ℕ → Timer} {s s' : TimerState} {t : ℕ} {x : ℤ} {l : List ℕ}

/-- A place in a list between the timers due before and those due after a time. -/
structure Place (timers : ℕ → Timer) (x : ℤ) (l u v : List ℕ) : Prop where
  split : l = u ++ v
  before : ∀ a ∈ u, (timers a).due ≤ x
  after : ∀ a ∈ v, x ≤ (timers a).due

def SortedByDue (timers : ℕ → Timer) (l : List ℕ) : Prop :=
  l.Pairwise fun a b => (timers a).due ≤ (timers b).due

theorem searchPreviousForward_spec (hl : SortedByDue timers l) {hop : ℕ} {prev : Option ℕ}
    (hlast : ∃ a ∈ l, x < (timers a).due)
    (hprev : prev = some hop ∨ ∃ a rest, l = a :: rest ∧ (timers a).due < x) :
    ∃ u v, searchPreviousForward timers x l hop prev = .ok (hop + u.length) ∧
      Place timers x l u v := by
  induction l generalizing hop prev with
  | nil =>
    obtain ⟨a, ha, -⟩ := hlast
    cases ha
  | cons cur rest ih =>
    obtain ⟨hcur, hrest⟩ := List.pairwise_cons.mp hl
    rw [searchPreviousForward]
    split_ifs with hlt heq
    · have hlast' : ∃ a ∈ rest, x < (timers a).due := by
        obtain ⟨a, ha, hx⟩ := hlast
        rcases List.mem_cons.mp ha with rfl | ha
        · omega
        · exact ⟨a, ha, hx⟩
      obtain ⟨u, v, hsearch, hplace⟩ := @ih hrest (hop + 1) (some (hop + 1)) hlast' (.inl rfl)
      refine ⟨cur :: u, v, by rw [hsearch, List.length_cons]; congr 1; omega, ?_, ?_, hplace.after⟩
      · rw [hplace.split, List.cons_append]
      · intro a ha
        rcases List.mem_cons.mp ha with rfl | ha
        · exact hlt.le
        · exact hplace.before a ha
    · refine ⟨[cur], rest, rfl, rfl, ?_, fun a ha => heq ▸ hcur a ha⟩
      intro a ha
      rw [List.mem_singleton.mp ha, heq]
    · have hgt : x < (timers cur).due := by omega
      refine ⟨[], cur :: rest, ?_, rfl, nofun, ?_⟩
      · rcases hprev with rfl | ⟨a, rest', heq', hlt'⟩
        · rfl
        · cases heq'
          exact absurd hlt' hlt
      · intro a ha
        rcases List.mem_cons.mp ha with rfl | ha
        · exact hgt.le
        · exact hgt.le.trans (hcur a ha)

theorem searchPreviousBackward_spec {r : List ℕ}
    (hr : r.Pairwise fun a b => (timers b).due ≤ (timers a).due)
    (hfirst : ∃ a ∈ r, (timers a).due ≤ x) :
    ∃ u v, searchPreviousBackward timers x r = .ok u.length ∧ Place timers x r.reverse u v := by
  induction r with
  | nil =>
    obtain ⟨a, ha, -⟩ := hfirst
    cases ha
  | cons cur rest ih =>
    obtain ⟨hcur, hrest⟩ := List.pairwise_cons.mp hr
    rw [searchPreviousBackward]
    split_ifs with hle
    · refine ⟨(cur :: rest).reverse, [], by simp, by simp, ?_, nofun⟩
      intro a ha
      rcases List.mem_cons.mp (List.mem_reverse.mp ha) with rfl | ha
      · exact hle
      · exact (hcur a ha).trans hle
    · have hfirst' : ∃ a ∈ rest, (timers a).due ≤ x := by
        obtain ⟨a, ha, hx⟩ := hfirst
        rcases List.mem_cons.mp ha with rfl | ha
        · exact absurd hx hle
        · exact ⟨a, ha, hx⟩
      obtain ⟨u, v, hsearch, hplace⟩ := ih hrest hfirst'
      refine ⟨u, v ++ [cur], hsearch, ?_, hplace.before, ?_⟩
      · rw [List.reverse_cons, hplace.split, List.append_assoc]
      · intro a ha
        rcases List.mem_append.mp ha with ha | ha
        · exact hplace.after a ha
        · rw [List.mem_singleton.mp ha]
          omega

/-- Both searches find a place in a sorted list; the comparisons with the ends come before them. -/
theorem searchPreviousTimer_spec {timer : Timer} {first : ℕ} {others : List ℕ}
    (hl : SortedByDue timers (first :: others)) :
    ∃ u v, searchPreviousTimer timers timer first others = .ok u.length ∧
      Place timers timer.due (first :: others) u v := by
  have hfirst : ∀ a ∈ first :: others, (timers first).due ≤ (timers a).due := by
    intro a ha
    rcases List.mem_cons.mp ha with rfl | ha
    · exact le_rfl
    · exact (List.pairwise_cons.mp hl).1 a ha
  obtain ⟨last, hlast⟩ : ∃ last, last = (first :: others).getLast (List.cons_ne_nil _ _) :=
    ⟨_, rfl⟩
  have hmem : last ∈ first :: others := hlast ▸ List.getLast_mem _
  have hmax : ∀ a ∈ first :: others, (timers a).due ≤ (timers last).due := by
    intro a ha
    have hsplit := List.dropLast_concat_getLast (List.cons_ne_nil first others)
    rw [← hlast] at hsplit
    have hl' := hl
    unfold SortedByDue at hl'
    rw [← hsplit] at ha hl'
    rcases List.mem_append.mp ha with ha | ha
    · exact (List.pairwise_append.mp hl').2.2 a ha last (List.mem_singleton_self _)
    · rw [List.mem_singleton.mp ha]
  have hremaining (a : ℕ) : timeRemaining (timers a) timer.startTime =
      (timers a).due - timer.startTime := by
    unfold timeRemaining timeElapsed Timer.due
    omega
  have hdue : timer.due = timer.startTime + timer.expire := rfl
  unfold searchPreviousTimer
  simp only [hremaining, ← hlast]
  split_ifs with h₁ h₂ h₃
  · refine ⟨first :: others, [], rfl, (List.append_nil _).symm, fun a ha => ?_, nofun⟩
    have := hmax a ha
    omega
  · refine ⟨[], first :: others, rfl, rfl, nofun, fun a ha => ?_⟩
    have := hfirst a ha
    omega
  · obtain ⟨u, v, hsearch, hplace⟩ := @searchPreviousForward_spec timers
      (timer.expire + timer.startTime) _ hl 0 none ⟨last, hmem, by omega⟩
      (.inr ⟨first, others, rfl, by omega⟩)
    refine ⟨u, v, by rw [hsearch, Nat.zero_add], ?_⟩
    rwa [hdue, Int.add_comm]
  · obtain ⟨u, v, hsearch, hplace⟩ := @searchPreviousBackward_spec timers
      (timer.expire + timer.startTime) (first :: others).reverse (List.pairwise_reverse.mpr hl)
      ⟨first, by simp, by omega⟩
    refine ⟨u, v, hsearch, ?_⟩
    rwa [List.reverse_reverse, Int.add_comm, ← hdue] at hplace

def running (t : ℕ) (history : List TimerEvent) : Bool :=
  history.foldl (fun b e =>
    match e with
    | .started u => if u = t then true else b
    | .stopped u => if u = t then false else b
    | .called _ => b) false

@[simp] theorem running_started (history : List TimerEvent) (u : ℕ) :
    running t (history ++ [.started u]) = if u = t then true else running t history := by
  rw [running, List.foldl_append]
  rfl

@[simp] theorem running_stopped (history : List TimerEvent) (u : ℕ) :
    running t (history ++ [.stopped u]) = if u = t then false else running t history := by
  rw [running, List.foldl_append]
  rfl

@[simp] theorem running_called (history : List TimerEvent) (u : ℕ) :
    running t (history ++ [.called u]) = running t history := by
  rw [running, List.foldl_append]
  rfl

/-- The list is sorted, the first to expire first, and has no timer twice. -/
structure Ordered (s : TimerState) : Prop where
  sorted : SortedByDue s.timers s.timerList
  nodup : s.timerList.Nodup
  started : ∀ t ∈ s.timerList, 0 ≤ (s.timers t).startTime ∧ (s.timers t).startTime ≤ s.clock

/-- The timers of the list are those that were started and not stopped. -/
def Recorded (s : TimerState) : Prop := ∀ t, t ∈ s.timerList ↔ running t s.history

theorem Ordered.record (h : Ordered s) (e : TimerEvent) : Ordered (s.record e) :=
  ⟨h.sorted, h.nodup, h.started⟩

theorem Recorded.started (h : Recorded s) (hs : s'.history = s.history)
    (hmem : ∀ a, a ∈ s'.timerList ↔ a = t ∨ a ∈ s.timerList) :
    Recorded (s'.record (.started t)) := by
  intro a
  change a ∈ s'.timerList ↔ _
  rw [TimerState.record, running_started, hs, hmem, h a]
  by_cases hat : t = a
  · simp [hat]
  · simp [hat, Ne.symm hat]

theorem Recorded.stopped (h : Recorded s) (hs : s'.history = s.history)
    (hmem : ∀ a, a ∈ s'.timerList ↔ a ≠ t ∧ a ∈ s.timerList) :
    Recorded (s'.record (.stopped t)) := by
  intro a
  change a ∈ s'.timerList ↔ _
  rw [TimerState.record, running_stopped, hs, hmem, h a]
  by_cases hat : t = a
  · simp [hat]
  · simp [hat, Ne.symm hat]

theorem Recorded.called (h : Recorded s) : Recorded (s.record (.called t)) := by
  intro a
  rw [TimerState.record, running_called]
  exact h a

theorem Ordered.erase (h : Ordered s) (hlist : s'.timerList = s.timerList.erase t)
    (htimers : ∀ u ≠ t, s'.timers u = s.timers u) (hclock : s.clock ≤ s'.clock) : Ordered s' := by
  have hne {u : ℕ} (hu : u ∈ s'.timerList) : u ≠ t ∧ u ∈ s.timerList := by
    rwa [hlist, h.nodup.mem_erase_iff] at hu
  refine ⟨?_, by rw [hlist]; exact h.nodup.erase t, fun u hu => ?_⟩
  · have hsub : SortedByDue s.timers s'.timerList := by
      rw [hlist]
      exact h.sorted.sublist List.erase_sublist
    refine hsub.imp_of_mem fun ha hb hab => ?_
    rwa [htimers _ (hne ha).1, htimers _ (hne hb).1]
  · rw [htimers u (hne hu).1]
    have := h.started u (hne hu).2
    omega

def TimerState.insert (s : TimerState) (t : ℕ) (u v : List ℕ) : TimerState :=
  { s with
    timers := Function.update s.timers t { s.timers t with startTime := s.clock }
    timerList := u ++ t :: v
    nextWakeup := min s.nextWakeup (s.timers t).expire }

theorem insertIdx_append (u v : List ℕ) : (u ++ v).insertIdx u.length t = u ++ t :: v := by
  induction u with
  | nil => rfl
  | cons a u ih => simp only [List.cons_append, List.length_cons, List.insertIdx_succ_cons, ih]

theorem mem_insert {u v : List ℕ} (hsplit : s.timerList = u ++ v) (a : ℕ) :
    a ∈ (s.insert t u v).timerList ↔ a = t ∨ a ∈ s.timerList := by
  rw [hsplit]
  simp only [TimerState.insert, List.mem_append, List.mem_cons]
  tauto

theorem timerInitUnlocked_spec (h : Ordered s) (ht : t ∉ s.timerList) :
    ∃ u v, timerInitUnlocked t s = .ok (s.insert t u v) ∧ s.timerList = u ++ v ∧
      Ordered (s.insert t u v) := by
  let timers := Function.update s.timers t { s.timers t with startTime := s.clock }
  have hother {a : ℕ} (ha : a ∈ s.timerList) : timers a = s.timers a := by
    refine Function.update_of_ne ?_ _ _
    rintro rfl
    exact ht ha
  have hsorted : SortedByDue timers s.timerList := by
    refine h.sorted.imp_of_mem fun ha hb hab => ?_
    rwa [hother ha, hother hb]
  obtain ⟨u, v, hinit, hplace⟩ : ∃ u v, timerInitUnlocked t s = .ok (s.insert t u v) ∧
      Place timers (timers t).due s.timerList u v := by
    have hself : timers t = { s.timers t with startTime := s.clock } := Function.update_self _ _ _
    rcases hl : s.timerList with _ | ⟨first, others⟩
    · refine ⟨[], [], ?_, rfl, nofun, nofun⟩
      simp [timerInitUnlocked, hl, TimerState.insert]
    · rw [hl] at hsorted
      obtain ⟨u, v, hsearch, hplace⟩ := @searchPreviousTimer_spec timers (timers t) _ _ hsorted
      refine ⟨u, v, ?_, hplace⟩
      rw [hself] at hsearch
      simp only [timerInitUnlocked, hl]
      rw [hsearch]
      simp only [TimerState.insert, hplace.split, insertIdx_append]
  refine ⟨u, v, hinit, hplace.split, ?_, ?_, fun a ha => ?_⟩
  · have hs := hsorted
    unfold SortedByDue at hs
    rw [hplace.split, List.pairwise_append] at hs
    refine List.pairwise_append.mpr ⟨hs.1, List.pairwise_cons.mpr ⟨hplace.after, hs.2.1⟩, ?_⟩
    intro a ha b hb
    rcases List.mem_cons.mp hb with rfl | hb
    · exact hplace.before a ha
    · exact hs.2.2 a ha b hb
  · have hn := h.nodup
    rw [hplace.split] at hn ht
    exact (List.nodup_middle).mpr (List.nodup_cons.mpr ⟨ht, hn⟩)
  · by_cases hat : a = t
    · rw [hat]
      simp [TimerState.insert]
    · have := h.started a (((mem_insert hplace.split a).mp ha).resolve_left hat)
      simpa [TimerState.insert, Function.update_of_ne hat] using this

theorem timerDestroyUnlocked_ordered (h : Ordered s) : Ordered (timerDestroyUnlocked t s) :=
  h.erase rfl (fun _ _ => rfl) le_rfl

theorem not_mem_timerDestroyUnlocked (h : Ordered s) :
    t ∉ (timerDestroyUnlocked t s).timerList := h.nodup.not_mem_erase

theorem mem_insert_erase {u v : List ℕ} (h : Ordered s) (hlist : s'.timerList = s.timerList.erase t)
    (hsplit : s'.timerList = u ++ v) (a : ℕ) :
    a ∈ (s'.insert t u v).timerList ↔ a = t ∨ a ∈ s.timerList := by
  rw [mem_insert hsplit, hlist, h.nodup.mem_erase_iff]
  tauto

/-- The state in which a callback has its timer out of the list. -/
def TimerState.woken (s : TimerState) (t : ℕ) (delay : ℕ) (timer : Timer) : TimerState :=
  { s with
    timers := Function.update s.timers t timer
    timerList := s.timerList.erase t
    clock := s.clock + delay
    history := s.history ++ [TimerEvent.called t] }

theorem woken_ordered (h : Ordered s) (delay : ℕ) (timer : Timer) :
    Ordered (s.woken t delay timer) :=
  h.erase rfl (fun _ hu => Function.update_of_ne hu _ _) (Nat.le_add_right _ _)

/-- A timer with time left stays; the callback of one that expired takes it out of the list and
perhaps puts it back. -/
theorem wakeUpIfNeeded_spec (h : Ordered s) (ht : t ∈ s.timerList) (now : ℕ) (r : TimerReaction) :
    (now < (s.timers t).due ∧
      wakeUpIfNeeded t now r s = .ok (toInt ((s.timers t).due - now), s)) ∨
    ((s.timers t).due ≤ now ∧ ∃ s', wakeUpIfNeeded t now r s = .ok (0, s') ∧ Ordered s' ∧
      (Recorded s → Recorded s') ∧
      match r with
      | .destroy delay =>
        s' = (s.woken t delay ⟨(s.timers t).expire, -1⟩).record (.stopped t)
      | .reset delay expire => ∃ u v,
        (s.woken t delay ⟨expire, -1⟩).timerList = u ++ v ∧
          s' = ((s.woken t delay ⟨expire, -1⟩).insert t u v).record (.started t)) := by
  have hstart := h.started t ht
  have hne : (s.timers t).startTime ≠ -1 := by omega
  have hnow : ¬ (now : ℤ) = -1 := by omega
  have hdue : (s.timers t).due = (s.timers t).startTime + (s.timers t).expire := rfl
  by_cases hexp : (s.timers t).due ≤ now
  · refine .inr ⟨hexp, ?_⟩
    have hif : (now : ℤ) = -1 ∨ timeElapsed (s.timers t) now ≥ (s.timers t).expire := by
      unfold timeElapsed
      omega
    cases r with
    | destroy delay =>
      refine ⟨_, ?_, (woken_ordered h delay _).record _, fun hrec => ?_, rfl⟩
      · simp only [wakeUpIfNeeded, if_neg hne, if_pos hif, callback]
        rfl
      · exact hrec.called.stopped rfl fun a => h.nodup.mem_erase_iff
    | reset delay expire =>
      have hord := woken_ordered (t := t) h delay ⟨expire, -1⟩
      obtain ⟨u, v, hinit, hsplit, hins⟩ := timerInitUnlocked_spec hord
        (show t ∉ (s.woken t delay ⟨expire, -1⟩).timerList from h.nodup.not_mem_erase)
      refine ⟨_, ?_, hins.record _, fun hrec => ?_, u, v, hsplit, rfl⟩
      · have hstate : timerDestroyUnlocked t (preludeTimerSetExpire t expire (TimerState.tick delay
            (TimerState.record (.called t) { s with
              timers := Function.update s.timers t { s.timers t with startTime := -1 } }))) =
            s.woken t delay ⟨expire, -1⟩ := by
          simp [timerDestroyUnlocked, preludeTimerSetExpire, TimerState.tick, TimerState.woken,
            TimerState.record]
        simp only [wakeUpIfNeeded, if_neg hne, if_pos hif, callback, preludeTimerReset, hstate,
          hinit, Except.map]
      · exact hrec.called.started rfl (mem_insert_erase (h.record _) rfl hsplit)
  · refine .inl ⟨by omega, ?_⟩
    have hif : ¬ ((now : ℤ) = -1 ∨ timeElapsed (s.timers t) now ≥ (s.timers t).expire) := by
      unfold timeElapsed
      omega
    have hrem : timeRemaining (s.timers t) now = (s.timers t).due - now := by
      unfold timeRemaining timeElapsed
      omega
    simp only [wakeUpIfNeeded, if_neg hne, if_neg hif, hrem]

theorem walk_ordered (h : Ordered s) (now : ℕ) (fuel : ℕ) (reactions : ℕ → TimerReaction)
    {res : Except TimerFailure TimerState}
    (hwalk : walkAndWakeUpTimer now fuel reactions s = some res) :
    ∃ s', res = .ok s' ∧ Ordered s' ∧ (Recorded s → Recorded s') := by
  induction fuel generalizing s reactions with
  | zero => cases hwalk
  | succ fuel ih =>
    rw [walkAndWakeUpTimer] at hwalk
    rcases hl : s.timerList with _ | ⟨t, others⟩
    · rw [hl] at hwalk
      cases hwalk
      exact ⟨s, rfl, h, id⟩
    · rw [hl] at hwalk
      simp only at hwalk
      rcases wakeUpIfNeeded_spec h (by rw [hl]; exact List.mem_cons_self) now (reactions 0) with
        ⟨-, hwake⟩ | ⟨-, s₁, hwake, hord, hrec₁, -⟩
      · rw [hwake] at hwalk
        simp only at hwalk
        split_ifs at hwalk
        · cases hwalk
          exact ⟨_, rfl, ⟨h.sorted, h.nodup, h.started⟩, id⟩
        · exact ih h _ hwalk
      · rw [hwake] at hwalk
        obtain ⟨s', hres, hord', hrec'⟩ := ih hord _ hwalk
        exact ⟨s', hres, hord', fun hrec => hrec' (hrec₁ hrec)⟩

/-- The operations on timers. -/
inductive TimerOp where
  | tick (seconds : ℕ)
  | setExpire (t : ℕ) (expire : ℤ)
  | init (t : ℕ)
  | reset (t : ℕ)
  | destroy (t : ℕ)
  | wakeUp (fuel : ℕ) (reactions : ℕ → TimerReaction)

namespace TimerOp

/-- An operation of the program, which notes what it does. -/
def run : TimerOp → TimerState → Option (Except TimerFailure TimerState)
  | tick seconds, s => some (.ok (s.tick seconds))
  | setExpire t expire, s => some (.ok (preludeTimerSetExpire t expire s))
  | init t, s => some ((preludeTimerInit t s).map (·.record (.started t)))
  | reset t, s => some ((preludeTimerReset t s).map (·.record (.started t)))
  | destroy t, s => some (.ok ((preludeTimerDestroy t s).record (.stopped t)))
  | wakeUp fuel reactions, s => (preludeTimerWakeUp fuel reactions s).map fun res => res.map (·.2)

/-- A timer in the list is neither given another expiration nor initialised again. -/
def Allowed (s : TimerState) : TimerOp → Prop
  | setExpire t _ => t ∉ s.timerList
  | init t => t ∉ s.timerList
  | _ => True

/-- An operation that returns keeps the order, and none fails. -/
theorem run_ordered (h : Ordered s) {op : TimerOp} (hop : op.Allowed s)
    {res : Except TimerFailure TimerState} (hrun : op.run s = some res) :
    ∃ s', res = .ok s' ∧ Ordered s' ∧ (Recorded s → Recorded s') := by
  cases op with
  | tick seconds =>
    cases hrun
    refine ⟨_, rfl, ⟨h.sorted, h.nodup, fun t ht => ?_⟩, id⟩
    have := h.started t ht
    simp only [TimerState.tick, Int.natCast_add]
    omega
  | setExpire t expire =>
    cases hrun
    have hne {a : ℕ} (ha : a ∈ s.timerList) : a ≠ t := fun heq => hop (heq ▸ ha)
    refine ⟨_, rfl, ⟨?_, h.nodup, fun a ha => ?_⟩, id⟩
    · refine h.sorted.imp_of_mem fun ha hb hab => ?_
      simpa only [preludeTimerSetExpire, Function.update_of_ne (hne ha),
        Function.update_of_ne (hne hb)] using hab
    · simpa only [preludeTimerSetExpire, Function.update_of_ne (hne ha)] using h.started a ha
  | init t =>
    obtain ⟨u, v, hinit, hsplit, hord⟩ := timerInitUnlocked_spec h hop
    cases hrun
    rw [preludeTimerInit, hinit]
    exact ⟨_, rfl, hord.record _, fun hrec => hrec.started rfl (mem_insert hsplit)⟩
  | reset t =>
    obtain ⟨u, v, hinit, hsplit, hord⟩ := timerInitUnlocked_spec
      (timerDestroyUnlocked_ordered (t := t) h) (not_mem_timerDestroyUnlocked h)
    cases hrun
    rw [preludeTimerReset, hinit]
    exact ⟨_, rfl, hord.record _, fun hrec => hrec.started rfl (mem_insert_erase h rfl hsplit)⟩
  | destroy t =>
    cases hrun
    exact ⟨_, rfl, (timerDestroyUnlocked_ordered h).record _,
      fun hrec => hrec.stopped rfl fun a => h.nodup.mem_erase_iff⟩
  | wakeUp fuel reactions =>
    simp only [run, preludeTimerWakeUp, Option.map_eq_some_iff] at hrun
    obtain ⟨r, hr, rfl⟩ := hrun
    split_ifs at hr
    · rcases hw : walkAndWakeUpTimer s.clock fuel reactions s with _ | res
      · rw [hw] at hr
        cases hr
      · obtain ⟨s', rfl, hord, hrec'⟩ := walk_ordered h s.clock fuel reactions hw
        rw [hw] at hr
        cases hr
        exact ⟨_, rfl, ⟨hord.sorted, hord.nodup, hord.started⟩, hrec'⟩
    · cases hr
      exact ⟨s, rfl, h, id⟩

end TimerOp

/-- The states reached from an empty list. -/
inductive TimerRun : TimerState → Prop
  | start (timers : ℕ → Timer) (clock : ℕ) : TimerRun ⟨timers, [], 0, 0, clock, []⟩
  | step {s s' : TimerState} {op : TimerOp} : TimerRun s → op.Allowed s →
      op.run s = some (.ok s') → TimerRun s'

theorem TimerRun.ordered (h : TimerRun s) : Ordered s ∧ Recorded s := by
  induction h with
  | start timers clock =>
    exact ⟨⟨.nil, .nil, List.forall_mem_nil _⟩,
      fun t => iff_of_false List.not_mem_nil Bool.false_ne_true⟩
  | step _ hop hrun ih =>
    obtain ⟨s', heq, hord, hrec⟩ := TimerOp.run_ordered ih.1 hop hrun
    cases heq
    exact ⟨hord, hrec ih.2⟩

/-- In every run the list is sorted and has each timer once that was started and not stopped, and
nothing asserts or aborts. -/
theorem timers_ordered (h : TimerRun s) :
    SortedByDue s.timers s.timerList ∧ s.timerList.Nodup ∧
      (∀ t, t ∈ s.timerList ↔ running t s.history) ∧
      ∀ op : TimerOp, op.Allowed s → ∀ e, op.run s ≠ some (.error e) := by
  obtain ⟨hord, hrec⟩ := h.ordered
  refine ⟨hord.sorted, hord.nodup, hrec, fun op hop e hrun => ?_⟩
  obtain ⟨s', heq, -⟩ := TimerOp.run_ordered hord hop hrun
  cases heq

/-- Two timers of five seconds: the first is called and started again, the second is started again
before it is due and goes behind the first, which is stopped and started. -/
theorem timers_ordered_again : ∃ s, TimerRun s ∧ s.timerList = [1, 0] ∧
    s.history = [.started 0, .started 1, .called 0, .started 0, .started 1, .stopped 0,
      .started 0] ∧
    SortedByDue s.timers s.timerList ∧ s.timerList.Nodup ∧
      (∀ t, t ∈ s.timerList ↔ running t s.history) ∧
      ∀ op : TimerOp, op.Allowed s → ∀ e, op.run s ≠ some (.error e) := by
  have hstart : TimerRun ⟨fun _ => ⟨5, 0⟩, [], 0, 0, 10, []⟩ := .start _ 10
  have hinit := @TimerRun.step _ _ (.init 0) hstart List.not_mem_nil rfl
  have hlater := @TimerRun.step _ _ (.tick 2) hinit trivial rfl
  have hsecond := @TimerRun.step _ _ (.init 1) hlater (show 1 ∉ [0] by decide) rfl
  have hdue := @TimerRun.step _ _ (.tick 3) hsecond trivial rfl
  have hcalled := @TimerRun.step _ _ (.wakeUp 3 fun _ => .reset 0 5) hdue trivial rfl
  have hreset := @TimerRun.step _ _ (.reset 1) hcalled trivial rfl
  have hstopped := @TimerRun.step _ _ (.destroy 0) hreset trivial rfl
  have hrun := @TimerRun.step _ _ (.init 0) hstopped (show 0 ∉ [1] by decide) rfl
  exact ⟨_, hrun, rfl, rfl, timers_ordered hrun⟩

end LibPrelude
