import LibPrelude.Pool.Broadcast

/-! # Operations on a pool

What a program does with a pool, and what its timers do. A deleted connection is
freed but stays linked; every walk through the lists after that reads freed memory,
so a pool with such a connection has no next state.
-/

namespace LibPrelude

def parseConfigString : Option (List Char) → Option (List Char × Option (List Char))
  | none => none
  | some line =>
    let str := line.dropWhile (· = ' ')
    let out := str.takeWhile (· ≠ ' ')
    match str.dropWhile (· ≠ ' ') with
    | [] => some (out, none)
    | _ :: rest => some (out, some rest)

/-- Link a connection at the end of a list, with a store of its own if the pool wants one. -/
def newConnection (i : ℕ) (established : Bool) (fd : ℕ) (p : Pool) : Ret × Pool :=
  let link (store : Option Failover) (p : Pool) : Pool :=
    { p with
      orList := p.orList.modify i fun l => { l with and := l.and ++ [p.next], total := l.total + 1 }
      cnx := Function.update p.cnx p.next
        ⟨established, fd, i, false, initialExpirationTime, store, [], false⟩
      next := p.next + 1 }
  if p.flagFailover then
    let p' := { p with env := { p.env with stores := p.env.stores.tail } }
    match p.env.stores.headD (.ok ⟨.empty, 0, [], 0, 0, 0, false⟩) with
    | .error e => (.error e, p')
    | .ok f => (.ok (), link (some f) p')
  else (.ok (), link none p)

/-- A connection to an address is not established at first. -/
def newConnectionFromAddress (i : ℕ) (addr : List Char) (p : Pool) : Ret × Pool :=
  match p.env.resolve addr with
  | .error e => (.error e, p)
  | .ok () => newConnection i false 0 p

def createConnectionList (p : Pool) : Pool := { p with orList := p.orList ++ [⟨[], 0, 0⟩] }

def parseConfigWords : ℕ → Option (List Char) → Pool → Ret × Pool
  | 0, _, p => (.ok (), p)
  | fuel + 1, line, p => match parseConfigString line with
    | none => (.ok (), p)
    | some (word, line) =>
      if word = ['|', '|'] then parseConfigWords fuel line (createConnectionList p)
      else if word = ['&', '&'] then parseConfigWords fuel line p
      else match newConnectionFromAddress (p.orList.length - 1) word p with
        | (.error e, p) => (.error e, p)
        | (.ok (), p) => parseConfigWords fuel line p

/-- A line has fewer words than it has characters, or one. -/
def parseConfigLine (p : Pool) : Ret × Pool :=
  let line := p.connectionString
  parseConfigWords ((line.getD []).length + 2) line (createConnectionList { p with orList := [] })

/-- A destroyed connection has no timer. -/
def destroyConnectionSingle (c : ℕ) (p : Pool) : Pool :=
  (closeConnectionFdBlock c p).modifyCnx c fun x => { x with timer := false, freed := true }

def connectionListDestroy (p : Pool) : Pool :=
  p.cnxs.foldl (fun p c => destroyConnectionSingle c p) p

/-- Connect one connection while the pool is initialised; only a profile error is passed on. -/
def initConnection (c : ℕ) (p : Pool) : Option (Ret × Bool × Pool) :=
  if (p.cnx c).established then some (.ok (), false, p)
  else match preludeConnectionConnect c p with
    | (.error e, p) =>
      if e = .profile then some (.error e, true, p)
      else some (.ok (), true, setStateDead c false p)
    | (.ok (), p) => (setStateAlive c false p).map fun (_, p) => (.ok (), true, p)

def initConnections : List ℕ → Pool → Option (Ret × Bool × Pool)
  | [], p => some (.ok (), false, p)
  | c :: cs, p => (initConnection c p).bind fun
    | (.error e, tried, p) => some (.error e, tried, p)
    | (.ok (), tried, p) => (initConnections cs p).map fun (ret, tried', p) =>
      (ret, tried || tried', p)

/-- The store of the pool is opened once. -/
def initFailover (p : Pool) : Ret × Pool :=
  if p.failover.isNone ∧ p.flagFailover then
    let p' := { p with env := { p.env with stores := p.env.stores.tail } }
    match p.env.stores.headD (.ok ⟨.empty, 0, [], 0, 0, 0, false⟩) with
    | .error e => (.error e, p')
    | .ok f => (.ok (), { p' with failover := some f })
  else (.ok (), p)

/-- The lists are built anew when the connection string changed; the polled set is not. -/
def initLists (p : Pool) : Ret × Pool :=
  if (¬ p.connectionStringChanged ∨ p.connectionString.isNone) ∧ p.orList = [] then
    (.error .connectionString, p)
  else if p.connectionStringChanged then
    let p := connectionListDestroy { p with connectionStringChanged := false }
    parseConfigLine { p with nfd := 0, orList := [] }
  else (.ok (), p)

def preludeConnectionPoolInit (p : Pool) : Option (Ret × Pool) :=
  match initFailover p with
  | (.error e, p) => some (.error e, p)
  | (.ok (), p) => match initLists p with
    | (.error e, p) => some (.error e, p)
    | (.ok (), p) => (initConnections p.cnxs p).map fun
      | (.error e, _, p) => (.error e, p)
      | (.ok (), tried, p) =>
        let p := if tried then react (p.env.poolHandler p.ticks) p.tick else p
        (.ok (), { p with initialized := true })

/-- A new connection of an initialised pool is connected, and the pool's store flushed. -/
def preludeConnectionPoolAddConnection (established : Bool) (fd : ℕ) (p : Pool) :
    Option (Ret × Pool) :=
  let p := if p.orList = [] then createConnectionList p else p
  let c := p.next
  match newConnection 0 established fd p with
  | (.error e, p) => some (.error e, p)
  | (.ok (), p) =>
    let connected : Option (Ret × Pool) :=
      if p.initialized ∧ ¬ established then
        match preludeConnectionConnect c p with
        | (.error e, p) => some (.error e, setStateDead c true p)
        | (.ok (), p) => (setStateAlive c true p).map fun (_, p) => (.ok (), p)
      else some (.ok (), p)
    connected.bind fun (ret, p) =>
      if (p.listAt 0).dead = 0 ∧ p.failover.isSome then failoverFlush (.any 0) p
      else some (ret, p)

def preludeConnectionPoolDelConnection (c : ℕ) (p : Pool) : Ret × Pool :=
  if c ∉ p.cnxs then (.error .generic, p) else (.ok (), destroyConnectionSingle c p)

def preludeConnectionPoolSetConnectionAlive (c : ℕ) (p : Pool) : Option (Ret × Pool) :=
  if c ∉ p.cnxs then some (.error .generic, p)
  else if (p.listAt (p.cnx c).parent).dead = 0 then some (.ok (), p)
  else setStateAlive c false p

def preludeConnectionPoolSetConnectionString (s : List Char) (p : Pool) : Pool :=
  { p with connectionString := some s, connectionStringChanged := true }

/-- The timer is pending until it is reset or destroyed. -/
def connectionTimerExpire (c : ℕ) (p : Pool) : Option Pool :=
  match preludeConnectionConnect c p with
  | (.ok (), p) => (setStateAlive c true p).map Prod.snd
  | (.error _, p) => some <| p.modifyCnx c fun x =>
    { x with
      expire := if x.expire < maximumExpirationTime then x.expire * 2 else x.expire
      timer := true }

def checkConnectionEvent (c : ℕ) (p : Pool) : Pool :=
  let (ret, p) := eventHandler .input c p
  if ret ≠ .ok () ∨ ¬ (p.cnx c).established then setStateDead c false p else p

/-- Look at the connections whose descriptors are in the set; also whether there was one. -/
def checkConnections (rfds : Finset ℕ) : List ℕ → Pool → Bool × Pool
  | [], p => (false, p)
  | c :: cs, p =>
    if (p.cnx c).established ∧ (p.cnx c).fd ∈ rfds then
      (true, (checkConnections rfds cs (checkConnectionEvent c p)).2)
    else checkConnections rfds cs p

/-- One round of polling in which the descriptors in `ready` are readable. -/
def connectionPoolCheckEvent (ready : Finset ℕ) (p : Pool) : Pool :=
  let (event, p) := checkConnections (ready ∩ p.fds) p.cnxs p
  if event then react (p.env.poolHandler p.ticks) p.tick else p

/-- What happens to a pool. Before `alive` the program may have established the connection
itself, with a new descriptor; after a round of polling in which the connection string turned
out to be changed, `init` follows. -/
inductive PoolOp where
  | add (established : Bool) (fd : ℕ)
  | del (c : ℕ)
  | dead (c : ℕ)
  | alive (c : ℕ) (reestablished : Option ℕ)
  | broadcast (m : Msg)
  | timer (c : ℕ)
  | check (ready : Finset ℕ)
  | string (s : List Char)
  | init

namespace Pool

/-- The program establishes a connection of its own accord. -/
def reestablish (p : Pool) (c : ℕ) : Option ℕ → Pool
  | none => p
  | some fd => p.modifyCnx c fun x => { x with established := true, fd := p.newFd fd }

def apply (p : Pool) : PoolOp → Option Pool
  | .add established fd => (preludeConnectionPoolAddConnection established fd p).map Prod.snd
  | .del c => some (preludeConnectionPoolDelConnection c p).2
  | .dead c => some (preludeConnectionPoolSetConnectionDead c p).2
  | .alive c fd => (preludeConnectionPoolSetConnectionAlive c (p.reestablish c fd)).map Prod.snd
  | .broadcast m => preludeConnectionPoolBroadcast m p
  | .timer c => if (p.cnx c).timer then connectionTimerExpire c p else none
  | .check ready => some (connectionPoolCheckEvent ready p)
  | .string s => some (preludeConnectionPoolSetConnectionString s p)
  | .init => (preludeConnectionPoolInit p).map Prod.snd

def step (p : Pool) (env : Env) (op : PoolOp) : Option Pool :=
  if ∃ c ∈ p.cnxs, (p.cnx c).freed then none else { p with env }.apply op

/-- The pool that `prelude_connection_pool_new` creates, with its flags set. -/
def new (flagReconnect flagFailover : Bool) : Pool where
  orList := []
  cnx _ := ⟨false, 0, 0, false, initialExpirationTime, none, [], false⟩
  next := 0
  initialized := false
  failover := none
  nfd := 0
  fds := ∅
  flagReconnect := flagReconnect
  flagFailover := flagFailover
  connectionString := none
  connectionStringChanged := false
  env := .quiet
  ticks := 0

/-- The pools that a new one becomes by allowed steps. -/
inductive Run (allowed : Pool → PoolOp → Prop) : Pool → Prop
  | new (flagReconnect flagFailover : Bool) : Run allowed (new flagReconnect flagFailover)
  | step {p p' : Pool} (env : Env) (op : PoolOp) :
      Run allowed p → allowed { p with env } op → p.step env op = some p' → Run allowed p'

end Pool

end LibPrelude
