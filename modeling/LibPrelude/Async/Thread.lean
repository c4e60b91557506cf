import LibPrelude.Common.Lists
import Mathlib.Data.Int.Notation

/-! # The asynchronous thread

Jobs are linked to the end of a list, and one thread takes them from its head and calls them.
The list, the flags and the order to stop are behind a lock; the thread waits on a
condition while there is nothing to do, for a second at most when it has timers to wake up.
Whatever is done under the lock is one step here, and so is a callback.
-/

namespace LibPrelude

def preludeAsyncFlagsTimer : UInt32 := 1

structure Timespec where
  sec : ℤ
  nsec : ℤ

def timespecElapsed (last start : Timespec) : ℤ :=
  let diff := last.sec - start.sec
  if last.nsec < start.nsec then diff - 1 else diff

def timespecExpired (last start : Timespec) : Bool := timespecElapsed last start ≠ 0

/-- How the thread waits: for data alone, or with the time of the last wake-up of the timers. -/
inductive Wait where
  | data
  | timer (lastWakeup : Timespec)

inductive ThreadState where
  | absent
  | starting
  | top
  | lock (w : Wait)
  | asleep (w : Wait)
  | woken (w : Wait) (timedOut : Bool)
  | unlocked (lastWakeup : Timespec) (timedOut noJobAvailable : Bool)
  | taking
  | running (obj : ℕ)
  | ended

/-- The variables of the module, those of its thread, and the callbacks called so far. -/
structure Async where
  links : Links ℕ
  asyncFlags : UInt32
  stopProcessing : Bool
  isInitialized : Bool
  destroyed : Bool
  nflags : UInt32
  thread : ThreadState
  started : List ℕ
  wakeUps : ℕ

namespace Async

/-- The address of the head of the list of jobs. -/
def joblist : ℕ := 0

/-- Where a wait that is over goes on. -/
def afterWait (w : Wait) (timedOut noJobAvailable : Bool) : ThreadState :=
  match w with
  | .data => .taking
  | .timer lastWakeup => .unlocked lastWakeup timedOut noJobAvailable

/-- The condition of the inner loops: to wait, to end, or to go on with the current flags. -/
def check (s : Async) (w : Wait) (timedOut : Bool) : Async :=
  let noJobAvailable := s.links.preludeListIsEmpty joblist
  if noJobAvailable ∧ ¬ s.stopProcessing ∧ s.asyncFlags = s.nflags ∧ ¬ timedOut then
    { s with thread := .asleep w }
  else if noJobAvailable ∧ s.stopProcessing then { s with thread := .ended }
  else { s with nflags := s.asyncFlags, thread := afterWait w timedOut noJobAvailable }

def getNextJob (links : Links ℕ) : Option (ℕ × Links ℕ) :=
  let tmp := links.next joblist
  if tmp = joblist then none else some (tmp, links.preludeListDel tmp)

def threadStep (now : Timespec) (s : Async) : Option Async :=
  match s.thread with
  | .absent | .asleep _ | .ended => none
  | .starting => some { s with nflags := s.asyncFlags, thread := .top }
  | .top => some { s with
      thread := .lock (if s.nflags &&& preludeAsyncFlagsTimer ≠ 0 then
        .timer { now with sec := now.sec - 1 } else .data) }
  | .lock w => some (s.check w false)
  | .woken w timedOut => some (s.check w timedOut)
  | .unlocked lastWakeup timedOut noJobAvailable =>
    let wakeUp := timedOut || timespecExpired now lastWakeup
    let ts := if timedOut then { lastWakeup with sec := lastWakeup.sec + 1 } else now
    let lastWakeup := if wakeUp then ts else lastWakeup
    some { s with
      wakeUps := s.wakeUps + if wakeUp then 1 else 0
      thread := if noJobAvailable then .lock (.timer lastWakeup) else .taking }
  | .taking =>
    match getNextJob s.links with
    | none => some { s with thread := .top }
    | some (obj, links) =>
      some { s with links, thread := .running obj, started := s.started ++ [obj] }
  | .running _ => some { s with thread := .taking }

def condSignal (s : Async) : Async :=
  match s.thread with
  | .asleep w => { s with thread := .woken w false }
  | _ => s

/-- What happens to the module; the thread may also wake up by itself. -/
inductive Event where
  | thread (now : Timespec)
  | spurious
  | timeout
  | add (obj : ℕ)
  | del (obj : ℕ)
  | setFlags (flags : UInt32)
  | init (created : Bool)
  | exit
  | join

def preludeAsyncAdd (obj : ℕ) (s : Async) : Async :=
  condSignal { s with links := s.links.preludeListAddTail joblist obj }

def preludeAsyncDel (obj : ℕ) (s : Async) : Async :=
  { s with links := s.links.preludeListDel obj }

def preludeAsyncSetFlags (flags : UInt32) (s : Async) : Async :=
  condSignal { s with asyncFlags := flags }

/-- The flags are changed also when no thread can be created. -/
def preludeAsyncInit (created : Bool) (s : Async) : Async :=
  if s.isInitialized then s
  else { s with
    isInitialized := true
    stopProcessing := false
    thread := if created then .starting else s.thread }

def preludeAsyncExit (s : Async) : Async :=
  if s.isInitialized then condSignal { s with stopProcessing := true } else s

/-- The thread that was told to stop has ended, and the lock is destroyed. -/
def joinThread (s : Async) : Option Async :=
  match s.thread with
  | .ended => some { s with thread := .absent, isInitialized := false, destroyed := true }
  | _ => none

/-- Nothing uses a lock that is destroyed. -/
def step (s : Async) (e : Event) : Option Async :=
  if s.destroyed then none
  else
    match e with
    | .thread now => s.threadStep now
    | .spurious =>
      match s.thread with
      | .asleep w => some { s with thread := .woken w false }
      | _ => none
    | .timeout =>
      match s.thread with
      | .asleep (.timer lastWakeup) => some { s with thread := .woken (.timer lastWakeup) true }
      | _ => none
    | .add obj => some (s.preludeAsyncAdd obj)
    | .del obj => some (s.preludeAsyncDel obj)
    | .setFlags flags => some (s.preludeAsyncSetFlags flags)
    | .init created => some (s.preludeAsyncInit created)
    | .exit => some s.preludeAsyncExit
    | .join => s.joinThread

def start (links : Links ℕ) : Async where
  links := links.preludeListInit joblist
  asyncFlags := 0
  stopProcessing := false
  isInitialized := false
  destroyed := false
  nflags := 0
  thread := .absent
  started := []
  wakeUps := 0

/-- An object is added when it is in no list, and deleted when it is in this one. -/
def Allowed (s : Async) : Event → Prop
  | .add obj => ∀ queue, s.links.Ring joblist queue → obj ∉ joblist :: queue
  | .del obj => ∀ queue, s.links.Ring joblist queue → obj ∈ queue
  | _ => True

/-- The states that a program leads to, with what happened on the way. -/
inductive Run (allowed : Async → Event → Prop) : List Event → Async → Prop
  | start (links : Links ℕ) : Run allowed [] (start links)
  | step {es : List Event} {s s' : Async} (e : Event) : Run allowed es s → allowed s e →
      s.step e = some s' → Run allowed (es ++ [e]) s'

end Async

end LibPrelude
