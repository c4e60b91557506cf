import Mathlib.Data.List.InsertIdx
import Mathlib.Algebra.Group.Nat.Defs
import Mathlib.Algebra.Order.Group.Int
import Mathlib.Data.List.Nodup
import Mathlib.Logic.Function.Basic

/-! # Timers

The timers that run are in one list, the next to expire first. Inserting a timer
searches from the end that its expiration is nearer to. Waking up runs the callbacks of
the expired timers, which reset or destroy their timer; the walk is skipped while the
time that the last one found is not over.
-/

namespace LibPrelude

/-- What ends the program. -/
inductive TimerFailure where
  | assertion
  | abort
  deriving DecidableEq

structure Timer where
  expire : ℤ
  startTime : ℤ

def Timer.due (timer : Timer) : ℤ := timer.startTime + timer.expire

/-- What was done with a timer: the program or a callback started or stopped it, or its callback
was run. -/
inductive TimerEvent where
  | started (t : ℕ)
  | stopped (t : ℕ)
  | called (t : ℕ)
  deriving DecidableEq

/-- The timers, the list of those that run, the globals of waking up, the clock, and what the
program and the callbacks did so far, which the timers do not look at. -/
structure TimerState where
  timers : ℕ → Timer
  timerList : List ℕ
  nextWakeup : ℤ
  lastWakeup : ℤ
  clock : ℕ
  history : List TimerEvent

/-- What a callback does with its timer after some seconds. -/
inductive TimerReaction where
  | destroy (delay : ℕ)
  | reset (delay : ℕ) (expire : ℤ)

def timeElapsed (timer : Timer) (now : ℤ) : ℤ := now - timer.startTime

def timeRemaining (timer : Timer) (now : ℤ) : ℤ := timer.expire - timeElapsed timer now

def toInt (x : ℤ) : ℤ := Int.bmod x (2 ^ 32)

/-- Walk from the first timer to the one after which a timer that is due at `expire` goes. The
result is the number of timers before the place. -/
def searchPreviousForward (timers : ℕ → Timer) (expire : ℤ) :
    List ℕ → ℕ → Option ℕ → Except TimerFailure ℕ
  | [], _, _ => .error .abort
  | cur :: rest, hop, prev =>
    if (timers cur).due < expire then
      searchPreviousForward timers expire rest (hop + 1) (some (hop + 1))
    else if (timers cur).due = expire then .ok (hop + 1)
    else prev.elim (.error .assertion) .ok

/-- Walk from the last timer; the list is in that order. -/
def searchPreviousBackward (timers : ℕ → Timer) (expire : ℤ) : List ℕ → Except TimerFailure ℕ
  | [] => .error .abort
  | cur :: rest =>
    if (timers cur).due ≤ expire then .ok (rest.length + 1)
    else searchPreviousBackward timers expire rest

/-- Where a timer goes in the list of the others. -/
def searchPreviousTimer (timers : ℕ → Timer) (timer : Timer) (first : ℕ) (others : List ℕ) :
    Except TimerFailure ℕ :=
  let last := (first :: others).getLast (List.cons_ne_nil _ _)
  let lastRemaining := timeRemaining (timers last) timer.startTime
  let firstRemaining := timeRemaining (timers first) timer.startTime
  if timer.expire ≥ lastRemaining then .ok (first :: others).length
  else if timer.expire ≤ firstRemaining then .ok 0
  else if lastRemaining - timer.expire > timer.expire - firstRemaining then
    searchPreviousForward timers (timer.expire + timer.startTime) (first :: others) 0 none
  else searchPreviousBackward timers (timer.expire + timer.startTime) (first :: others).reverse

def timerDestroyUnlocked (t : ℕ) (s : TimerState) : TimerState :=
  { s with timerList := s.timerList.erase t }

def timerInitUnlocked (t : ℕ) (s : TimerState) : Except TimerFailure TimerState :=
  let timer : Timer := { s.timers t with startTime := s.clock }
  let timers := Function.update s.timers t timer
  let prev : Except TimerFailure ℕ :=
    match s.timerList with
    | [] => .ok 0
    | first :: others => searchPreviousTimer timers timer first others
  match prev with
  | .error e => .error e
  | .ok prev => .ok { s with
      timers
      timerList := s.timerList.insertIdx prev t
      nextWakeup := min s.nextWakeup timer.expire }

def preludeTimerInit (t : ℕ) (s : TimerState) : Except TimerFailure TimerState :=
  timerInitUnlocked t s

def preludeTimerReset (t : ℕ) (s : TimerState) : Except TimerFailure TimerState :=
  timerInitUnlocked t (timerDestroyUnlocked t s)

def preludeTimerDestroy (t : ℕ) (s : TimerState) : TimerState := timerDestroyUnlocked t s

def preludeTimerSetExpire (t : ℕ) (expire : ℤ) (s : TimerState) : TimerState :=
  { s with timers := Function.update s.timers t { s.timers t with expire } }

def TimerState.tick (seconds : ℕ) (s : TimerState) : TimerState :=
  { s with clock := s.clock + seconds }

def TimerState.record (e : TimerEvent) (s : TimerState) : TimerState :=
  { s with history := s.history ++ [e] }

@[simp] theorem TimerState.record_timers (e : TimerEvent) (s : TimerState) :
    (s.record e).timers = s.timers := rfl

@[simp] theorem TimerState.record_timerList (e : TimerEvent) (s : TimerState) :
    (s.record e).timerList = s.timerList := rfl

/-- The callback of a timer, which notes that it runs and what it does. -/
def callback (t : ℕ) : TimerReaction → TimerState → Except TimerFailure TimerState
  | .destroy delay, s =>
    .ok ((preludeTimerDestroy t ((s.record (.called t)).tick delay)).record (.stopped t))
  | .reset delay expire, s =>
    (preludeTimerReset t (preludeTimerSetExpire t expire ((s.record (.called t)).tick delay))).map
      (·.record (.started t))

def wakeUpIfNeeded (t : ℕ) (now : ℤ) (r : TimerReaction) (s : TimerState) :
    Except TimerFailure (ℤ × TimerState) :=
  let timer := s.timers t
  if timer.startTime = -1 then .error .assertion
  else if now = -1 ∨ timeElapsed timer now ≥ timer.expire then
    match callback t r
      { s with timers := Function.update s.timers t { timer with startTime := -1 } } with
    | .error e => .error e
    | .ok s => .ok (0, s)
  else .ok (toInt (timeRemaining timer now), s)

/-- Wake up the first timer until one has time left. The reactions are those of the calls of
`wakeUpIfNeeded` in turn. -/
def walkAndWakeUpTimer (now : ℤ) :
    ℕ → (ℕ → TimerReaction) → TimerState → Option (Except TimerFailure TimerState)
  | 0, _, _ => none
  | fuel + 1, reactions, s =>
    match s.timerList with
    | [] => some (.ok s)
    | timer :: _ =>
      match wakeUpIfNeeded timer now (reactions 0) s with
      | .error e => some (.error e)
      | .ok (ret, s) =>
        if ret ≠ 0 then some (.ok { s with nextWakeup := ret })
        else walkAndWakeUpTimer now fuel (fun i => reactions (i + 1)) s

/-- Whether the time that the last walk found is over. -/
def TimerState.walks (s : TimerState) : Bool := s.clock - s.lastWakeup ≥ s.nextWakeup

/-- Wake up the timers that need it; the result is the time until the next call. -/
def preludeTimerWakeUp (fuel : ℕ) (reactions : ℕ → TimerReaction) (s : TimerState) :
    Option (Except TimerFailure (ℤ × TimerState)) :=
  let now := s.clock
  if s.walks then
    match walkAndWakeUpTimer now fuel reactions s with
    | none => none
    | some (.error e) => some (.error e)
    | some (.ok s) => some (.ok (s.nextWakeup, { s with lastWakeup := now }))
  else some (.ok (s.nextWakeup, s))

end LibPrelude
