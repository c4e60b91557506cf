import Mathlib.Data.Finset.Lattice.Fold
import Mathlib.Data.Finset.Image
import Mathlib.Order.Lattice.Nat
import LibPrelude.Failover.Store

/-! # Connection pools

A pool is an OR of lists, each of them an AND of connections. A list counts its
connections and those of them that are dead; the pool holds the set of descriptors
to poll. Descriptors, name resolution and the callbacks of the user are outside of
the library: their answers are scripted in an environment. A failed assertion ends
the program, so what follows it is not part of a run.
-/

namespace LibPrelude

def initialExpirationTime : ℕ := 10
def maximumExpirationTime : ℕ := 3600

inductive Event where
  | input
  | dead
  | alive
  deriving DecidableEq

/-- What a callback does: declare connections dead one after the other; the callback for the
dead event of each of them is `nested`. -/
inductive Reaction where
  | done
  | kill (c : ℕ) (nested rest : Reaction)

inductive Connect where
  | refused (e : ErrorCode) (fd : Option ℕ)
  | established (fd : ℕ)

/-- What is outside of the library answers. Each list holds the answers in order, the functions
of a number those of the connection with that number; after the last answer a descriptor
accepts everything, a close succeeds, nobody accepts connections and new stores are empty. -/
structure Env where
  connects : List Connect
  closes : List Ret
  writes : ℕ → List (Except ErrorCode ℕ)
  polls : ℕ → List {r : Ret // r ≠ .error .eagain}
  stores : List (Except ErrorCode Failover)
  resolve : List Char → Ret
  clock : ℕ → Timeval
  handler : ℕ → Event → ℕ → Ret × Reaction
  globalHandler : ℕ → Event → ℕ → Reaction
  poolHandler : ℕ → Reaction

/-- An environment in which everything succeeds but connecting. -/
def Env.quiet : Env where
  connects := []
  closes := []
  writes _ := []
  polls _ := []
  stores := []
  resolve _ := .ok ()
  clock _ := ⟨0, 0⟩
  handler _ _ _ := (.ok (), .done)
  globalHandler _ _ _ := .done
  poolHandler _ := .done

/-- A connection of a pool: whether it is established, the number in its descriptor object, the
list it belongs to, its reconnection timer and its store. `sent` is what its peer was sent. -/
structure Cnx where
  established : Bool
  fd : ℕ
  parent : ℕ
  timer : Bool
  expire : ℕ
  failover : Option Failover
  sent : List UInt8
  freed : Bool

/-- A boolean AND of connections. -/
structure CnxList where
  and : List ℕ
  dead : ℕ
  total : ℕ
  deriving DecidableEq

structure Pool where
  orList : List CnxList
  cnx : ℕ → Cnx
  next : ℕ
  initialized : Bool
  failover : Option Failover
  nfd : ℕ
  fds : Finset ℕ
  flagReconnect : Bool
  flagFailover : Bool
  connectionString : Option (List Char)
  connectionStringChanged : Bool
  env : Env
  ticks : ℕ

namespace Pool

def cnxs (p : Pool) : List ℕ := p.orList.flatMap CnxList.and

def modifyCnx (p : Pool) (c : ℕ) (f : Cnx → Cnx) : Pool :=
  { p with cnx := Function.update p.cnx c (f (p.cnx c)) }

def modifyParent (p : Pool) (c : ℕ) (f : CnxList → CnxList) : Pool :=
  { p with orList := p.orList.modify (p.cnx c).parent f }

def openFds (p : Pool) : Finset ℕ :=
  (p.cnxs.toFinset.filter fun c => (p.cnx c).established).image fun c => (p.cnx c).fd

/-- The number that the system gives to a new descriptor is not in use. -/
def newFd (p : Pool) (fd : ℕ) : ℕ := if fd ∈ p.openFds then p.openFds.sup id + 1 else fd

def tick (p : Pool) : Pool := { p with ticks := p.ticks + 1 }

end Pool

def preludeIoIsErrorFatal (e : ErrorCode) : Bool :=
  e ≠ .eagain ∧ e ≠ .eintr ∧ e ≠ .tlsWarningAlert

/-- Whether a close with this answer leaves the connection closed. -/
def closes : Ret → Bool
  | .ok () => true
  | .error e => preludeIoIsErrorFatal e

/-- A close that is to be tried again leaves the connection established. -/
def preludeConnectionClose (c : ℕ) (p : Pool) : Ret × Pool :=
  if ¬ (p.cnx c).established then (.error .generic, p)
  else
    let ret := p.env.closes.headD (.ok ())
    let p := { p with env := { p.env with closes := p.env.closes.tail } }
    (ret, if closes ret then p.modifyCnx c fun x => { x with established := false } else p)

def closeConnectionFdBlock (c : ℕ) (p : Pool) : Pool :=
  if ¬ (p.cnx c).established then p
  else
    let left := (p.env.closes.dropWhile fun ret => ¬ closes ret).tail
    { p with env := { p.env with closes := left } }.modifyCnx c fun x =>
      { x with established := false }

def preludeConnectionConnect (c : ℕ) (p : Pool) : Ret × Pool :=
  let p := closeConnectionFdBlock c p
  let answer := p.env.connects.headD (.refused .generic none)
  let p := { p with env := { p.env with connects := p.env.connects.tail } }
  match answer with
  | .refused e fd => (.error e, p.modifyCnx c fun x => { x with fd := fd.getD x.fd })
  | .established fd =>
    (.ok (), p.modifyCnx c fun x => { x with established := true, fd := p.newFd fd })

def initCnxTimer (c : ℕ) (p : Pool) : Pool :=
  if p.flagReconnect then p.modifyCnx c fun x => { x with timer := true } else p

/-- `setStateDead` with a given callback for the event; the descriptor is removed last. -/
def setStateDeadWith (notify : Pool → Pool) (c : ℕ) (p : Pool) : Pool :=
  let p := (preludeConnectionClose c p).2
  let p := p.modifyParent c fun l => { l with dead := l.dead + 1 }
  let p := notify (initCnxTimer c p)
  { p with fds := p.fds.erase (p.cnx c).fd }

/-- A connection that is not in the pool or not alive is not declared dead. -/
def setConnectionDeadWith (notify : Pool → Pool) (c : ℕ) (p : Pool) : Ret × Pool :=
  if c ∉ p.cnxs then (.error .generic, p)
  else if ¬ (p.cnx c).established then (.ok (), p)
  else (.ok (), setStateDeadWith notify c (p.modifyCnx c fun x => { x with established := false }))

def react : Reaction → Pool → Pool
  | .done, p => p
  | .kill c nested rest, p => react rest (setConnectionDeadWith (react nested) c p).2

def eventHandler (ev : Event) (c : ℕ) (p : Pool) : Ret × Pool :=
  let (ret, r) := p.env.handler p.ticks ev c
  (ret, react r p.tick)

def notifyEvent (ev : Event) (c : ℕ) (globalNotice : Bool) (p : Pool) : Pool :=
  let p := (eventHandler ev c p).2
  if globalNotice then react (p.env.globalHandler p.ticks ev c) p.tick else p

def setStateDead (c : ℕ) (globalNotice : Bool) (p : Pool) : Pool :=
  setStateDeadWith (notifyEvent .dead c globalNotice) c p

def preludeConnectionPoolSetConnectionDead (c : ℕ) (p : Pool) : Ret × Pool :=
  setConnectionDeadWith (notifyEvent .dead c false) c p

end LibPrelude
