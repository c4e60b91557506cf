import LibPrelude.Pool.State

/-! # Sending to a pool

A broadcast goes to the first list that is not wholly dead. A connection that is
dead, or dies of the send, gets the message into its store; when all lists are
dead the store of the pool gets it. A connection that comes back alive is first
sent its own stored messages, and then its list those of the pool if it is whole.
-/

namespace LibPrelude

namespace Pool

def gettimeofday (p : Pool) : Timeval × Pool := (p.env.clock p.ticks, p.tick)

/-- The peer of `c` gets some bytes; its descriptor has `left` to answer. -/
def accept (c : ℕ) (bs : List UInt8) (left : List (Except ErrorCode ℕ)) (p : Pool) : Pool :=
  { p with env := { p.env with writes := Function.update p.env.writes c left } }.modifyCnx c
    fun x => { x with sent := x.sent ++ bs }

def write (c : ℕ) (buf : List UInt8) (p : Pool) : Except ErrorCode ℕ × Pool :=
  match p.env.writes c with
  | [] => (.ok buf.length, p.accept c buf [])
  | .error e :: left => (.error e, p.accept c [] left)
  | .ok n :: left => (.ok (buf.take n).length, p.accept c (buf.take n) left)

end Pool

/-- Whether the peer has closed its end. -/
def isTcpConnectionStillEstablished (c : ℕ) (p : Pool) : Ret × Pool :=
  match p.env.polls c with
  | [] => (.ok (), p)
  | r :: left => (r.1, { p with env := { p.env with polls := Function.update p.env.polls c left } })

def preludeConnectionSend (c : ℕ) (m : Msg) (p : Pool) : Option (Ret × Msg × Pool) :=
  if ¬ (p.cnx c).established then some (.error .generic, m, p)
  else (preludeMsgWrite Pool.gettimeofday (Pool.write c) m p).map fun
    | (.error e, m, p) => (.error e, m, p)
    | (.ok (), m, p) => let (ret, p) := isTcpConnectionStillEstablished c p; (ret, m, p)

/-- Send again while the descriptor would block. -/
def doSendLoop (c : ℕ) : ℕ → Msg → Pool → Option (Ret × Msg × Pool)
  | 0, _, _ => none
  | fuel + 1, m, p => (preludeConnectionSend c m p).bind fun (ret, m, p) =>
    if ret = .error .eagain then doSendLoop c fuel m p else some (ret, m, p)

/-- The answers of the descriptor bound the number of attempts. -/
def doSend (c : ℕ) (m : Msg) (p : Pool) : Option (Ret × Msg × Pool) :=
  doSendLoop c ((p.env.writes c).length + 1) m p

/-- Save a message, if there is a store; an error is only logged. -/
def failoverSaveMsg (store : Option Failover) (m : Msg) (p : Pool) :
    Option (Option Failover × Msg × Pool) :=
  match store with
  | none => some (none, m, p)
  | some f => let (tv, p) := p.gettimeofday
    (preludeFailoverSaveMsg tv m f).map fun (_, m, f) => (some f, m, p)

def saveToCnx (c : ℕ) (m : Msg) (p : Pool) : Option (Msg × Pool) :=
  (failoverSaveMsg (p.cnx c).failover m p).map fun (store, m, p) =>
    (m, p.modifyCnx c fun x => { x with failover := store })

def saveToPool (m : Msg) (p : Pool) : Option (Msg × Pool) :=
  (failoverSaveMsg p.failover m p).map fun (store, m, p) => (m, { p with failover := store })

/-- Send to the connections of a list one after the other. -/
def broadcastMessage : List ℕ → Msg → Pool → Option (Msg × Pool)
  | [], m, p => some (m, p)
  | c :: cs, m, p =>
    if (p.cnx c).established then (doSend c m p).bind fun
      | (.ok (), m, p) => broadcastMessage cs m p
      | (.error _, m, p) => (saveToCnx c m (setStateDead c true p)).bind fun (m, p) =>
        broadcastMessage cs m p
    else (saveToCnx c m p).bind fun (m, p) => broadcastMessage cs m p

/-- Whether a list is passed over by a broadcast. -/
def CnxList.skipped (l : CnxList) (p : Pool) : Bool := l.dead = l.total ∧ p.flagFailover

def walkManagerLists (m : Msg) (p : Pool) : Option (Msg × Pool) :=
  match p.orList.find? fun l => ¬ l.skipped p with
  | some l => broadcastMessage l.and m p
  | none => saveToPool m p

def preludeConnectionPoolBroadcast (m : Msg) (p : Pool) : Option Pool :=
  (walkManagerLists m p).map Prod.snd

/-- Where the messages of a store are flushed to: a connection, or a list of them. -/
inductive Target where
  | one (c : ℕ)
  | any (i : ℕ)

namespace Pool

/-- The store that is flushed to a target. -/
def store (p : Pool) : Target → Option Failover
  | .one c => (p.cnx c).failover
  | .any _ => p.failover

def setStore (p : Pool) (f : Failover) : Target → Pool
  | .one c => p.modifyCnx c fun x => { x with failover := some f }
  | .any _ => { p with failover := some f }

def listAt (p : Pool) (i : ℕ) : CnxList := p.orList.getD i ⟨[], 0, 0⟩

end Pool

def flushMsg (m : Msg) (p : Pool) : Target → Option (Ret × Pool)
  | .one c => (doSend c m p).bind fun
    | (.ok (), _, p) => some (.ok (), p)
    | (.error e, m, p) => (saveToCnx c m (setStateDead c true p)).map fun (_, p) => (.error e, p)
  | .any i => (broadcastMessage (p.listAt i).and m p).map fun (_, p) =>
    (if (p.listAt i).dead ≠ 0 then .error .generic else .ok (), p)

def failoverFlushLoop (target : Target) : ℕ → Pool → Option (Ret × Pool)
  | 0, _ => none
  | fuel + 1, p => match p.store target with
    | none => some (.ok (), p)
    | some f => (preludeFailoverGetSavedMsg f).bind fun
      | (.ok size, some m, f) =>
        if size = 0 then some (.ok (), p.setStore f target)
        else (flushMsg m (p.setStore f target) target).bind fun
          | (.ok (), p) => failoverFlushLoop target fuel p
          | (.error e, p) => some (.error e, p)
      | (_, _, f) => some (.ok (), p.setStore f target)

/-- Every message takes at least one byte of the data file; their number is taken for an
`unsigned int`. -/
def failoverFlush (target : Target) (p : Pool) : Option (Ret × Pool) :=
  match p.store target with
  | none => some (.ok (), p)
  | some f =>
    if f.count.toUInt32 = 0 then some (.ok (), p)
    else failoverFlushLoop target (f.data.bytes.length + 1) p

/-- The descriptor is polled only when both flushes went through. -/
def setStateAlive (c : ℕ) (globalNotice : Bool) (p : Pool) : Option (Ret × Pool) :=
  let p := p.modifyCnx c fun x => { x with timer := false, expire := initialExpirationTime }
  let p := p.modifyParent c fun l => { l with dead := l.dead - 1 }
  let p := notifyEvent .alive c globalNotice p
  let i := (p.cnx c).parent
  (failoverFlush (.one c) p).bind fun
    | (.error e, p) => some (.error e, p)
    | (.ok (), p) =>
      let flushed := if p.failover.isSome ∧ (p.listAt i).dead = 0 then failoverFlush (.any i) p
        else some (.ok (), p)
      flushed.map fun
        | (.error e, p) => (.error e, p)
        | (.ok (), p) => (.ok (),
          { p with
            fds := insert (p.cnx c).fd p.fds
            nfd := max ((p.cnx c).fd + 1) p.nfd })

end LibPrelude
