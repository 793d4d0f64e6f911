import IsabelleGym.ThyStatus
import Mathlib.Logic.Function.Basic

/-!
# Leased sessions and their worker threads

The server as a step function over the moments at which its threads interleave:
a request is authorised under the manager lock, its session method counts itself
and puts jobs on the queue of the session's worker, and the worker runs them one
after another. A wait that times out leaves its job where it is. Between the
checks of a release and the end of the lease the manager lock is held, which
stops authorisation but not the methods that already run. The `exit` job that
closes a backend is no request's job and is left out.
-/

namespace IsabelleGym

/-- The ids of `uuid4` and the keys of `build_dependency_key`, which are only compared. -/
abbrev SessionId := ℕ

abbrev LeaseId := String

abbrev DependencyKey := String

/-- The raw backend of a session, used by its worker thread only. -/
structure BackendApi (F L : Type) where
  create : L
  run : F → L → L

/-- A queued call of a backend function with the request that waits on its future. -/
structure Job (F : Type) where
  fn : F
  call : ℕ
deriving DecidableEq

/-- What a session method does between its accounting. `_call_backend` submits and waits; its
exceptions end the method unless the method catches them. -/
inductive Instr (F : Type)
  | callBackend (fn : F) (caught : Bool)
  | resetBookkeeping
  | appendHistory (command : Text)

/-- A session method, `accounted` when it runs between `_acquire_request` and
`_release_request`. -/
structure Method (F : Type) where
  accounted : Bool
  body : List (Instr F)

inductive Accounting
  | unaccounted | pending | held | released
deriving DecidableEq

/-- Where the thread of a request stands: between two instructions, behind the shutdown check
of `submit`, or waiting on the future. -/
inductive Phase (F : Type)
  | ready
  | submitting (fn : F) (caught : Bool)
  | waiting (caught : Bool)

structure Call (F : Type) where
  session : SessionId
  lease : LeaseId
  accounting : Accounting
  body : List (Instr F)
  phase : Phase F

structure Session (F L : Type) where
  dependencyKey : DependencyKey
  lease : Option LeaseId
  backend : L
  activeRequests : ℕ := 0
  commandHistory : List Text := []
  queue : List (Job F) := []
  running : Option (Job F) := none
  shuttingDown : Bool := false
  closed : Bool := false

/-- How far a release or a close has come: past the checks of a release, past the first look
of a close at the requests, or past its second look. -/
inductive LeaseEndStage
  | releasing | closing | popped
deriving DecidableEq

/-- A release or a close that passed its checks and holds the manager lock. -/
structure LeaseEnd where
  session : SessionId
  stage : LeaseEndStage

/-- The session manager with its pool in least recently used order, and the requests. -/
structure Server (F L : Type) where
  poolSize : ℕ
  lru : List SessionId := []
  sessions : SessionId → Option (Session F L) := fun _ => none
  calls : List (Call F) := []
  leaseEnd : Option LeaseEnd := none

namespace Call

variable {F : Type} (c : Call F)

def isReady : Bool := match c.phase with
  | .ready => true
  | _ => false

def isWaiting : Bool := match c.phase with
  | .waiting _ => true
  | _ => false

def isHeld : Bool := c.accounting = .held

def isOpen : Bool :=
  !c.isReady || !c.body.isEmpty || c.accounting = .pending || c.accounting = .held

/-- An exception of the backend call: caught, or the end of the body. -/
def fails (caught : Bool) : Call F :=
  { c with phase := .ready, body := if caught then c.body else [] }

def settle (raises : Bool) : Call F :=
  match c.phase with
  | .waiting caught => if raises then c.fails caught else { c with phase := .ready }
  | _ => c

end Call

namespace Session

variable {F L : Type} (x : Session F L)

def inUse : Bool := 0 < x.activeRequests

def jobs : List (Job F) := x.running.toList ++ x.queue

end Session

namespace Server

variable {F L : Type} (B : BackendApi F L) (s : Server F L)

def inUse (sid : SessionId) : Bool := (s.sessions sid).any Session.inUse

def leased (sid : SessionId) : Bool := (s.sessions sid).any fun x => x.lease.isSome

/-- The session is in the pool, not closed, and its lease is the given one where one is
required. -/
def usable (sid : SessionId) (lease : Option LeaseId) : Bool :=
  decide (sid ∈ s.lru) &&
    (s.sessions sid).any fun x => !x.closed && (lease.isNone || x.lease = lease)

def modifySession (sid : SessionId) (f : Session F L → Session F L) : Server F L :=
  { s with sessions := Function.update s.sessions sid ((s.sessions sid).map f) }

def setCall (i : ℕ) (c : Call F) : Server F L := { s with calls := s.calls.set i c }

def moveToEnd (sid : SessionId) : Server F L := { s with lru := s.lru.erase sid ++ [sid] }

/-- The eviction loop of `_create_session`: the oldest session that is neither in use nor
leased goes, but never the new one, which goes itself when there is no other. -/
def evictExcess (new : SessionId) : ℕ → List SessionId → List SessionId
  | 0, lru => lru
  | fuel + 1, lru =>
    if lru.length ≤ s.poolSize then lru
    else
      match lru.find? fun sid => sid ≠ new && !s.inUse sid && !s.leased sid with
      | none => lru.erase new
      | some oldest => evictExcess new fuel (lru.erase oldest)

/-- `_create_session` under a new id. -/
def createSession (sid : SessionId) (lease : Option LeaseId) (key : DependencyKey) :
    Server F L :=
  if (s.sessions sid).isSome then s
  else
    let s := { s with
      sessions := Function.update s.sessions sid
        (some { dependencyKey := key, lease, backend := B.create })
      lru := s.lru ++ [sid] }
    { s with lru := s.evictExcess sid s.lru.length s.lru }

/-- The search of `_find_and_lease_session_locked`, most recently used first. -/
def findReusable (key : DependencyKey) (reuseDirty : Bool) : Option SessionId :=
  s.lru.reverse.find? fun sid => (s.sessions sid).any fun x =>
    !x.closed && x.lease.isNone && x.dependencyKey = key &&
      (reuseDirty || x.commandHistory.isEmpty)

/-- The reusing half of `acquire_session`; without a match a session is created. -/
def acquireSession (lease : LeaseId) (key : DependencyKey) (reuseDirty : Bool) : Server F L :=
  match s.findReusable key reuseDirty with
  | none => s
  | some sid => (s.modifySession sid fun x => { x with lease := some lease }).moveToEnd sid

/-- `_pop_oldest_idle_locked`, under memory pressure. -/
def popOldestIdle : Server F L :=
  match s.lru.find? fun sid => !s.inUse sid && !s.leased sid with
  | none => s
  | some sid => { s with lru := s.lru.erase sid }

/-- `get_session` for a request to an endpoint, whose method then runs in its own thread. -/
def getSession (sid : SessionId) (lease : LeaseId) (method : Method F) : Server F L :=
  if s.usable sid (some lease) then
    { s.moveToEnd sid with calls := s.calls ++
        [⟨sid, lease, if method.accounted then .pending else .unaccounted, method.body, .ready⟩] }
  else s

def acquireRequest (i : ℕ) (c : Call F) : Server F L :=
  if c.accounting = .pending then
    (s.modifySession c.session fun x => { x with activeRequests := x.activeRequests + 1 }).setCall i
      { c with accounting := .held }
  else s

/-- The shutdown check of `submit`, where the next instruction calls the backend. -/
def submit (i : ℕ) (c : Call F) : Server F L :=
  match c.phase, c.body with
  | .ready, .callBackend fn caught :: rest =>
    if c.accounting = .pending then s
    else if (s.sessions c.session).any Session.shuttingDown then
      s.setCall i ({ c with body := rest }.fails caught)
    else s.setCall i { c with body := rest, phase := .submitting fn caught }
  | _, _ => s

def enqueue (i : ℕ) (c : Call F) : Server F L :=
  match c.phase with
  | .submitting fn caught =>
    (s.modifySession c.session fun x => { x with queue := x.queue ++ [⟨fn, i⟩] }).setCall i
      { c with phase := .waiting caught }
  | _ => s

/-- The wait on the future times out; the job stays. -/
def timeOut (i : ℕ) (c : Call F) : Server F L :=
  match c.phase with
  | .waiting caught => s.setCall i (c.fails caught)
  | _ => s

/-- Any other exception between two instructions. -/
def raise (i : ℕ) (c : Call F) : Server F L :=
  if c.isReady && c.accounting ≠ .pending then s.setCall i { c with body := [] } else s

def bookkeep (i : ℕ) (c : Call F) : Server F L :=
  match c.phase, c.body with
  | .ready, .resetBookkeeping :: rest =>
    if c.accounting = .pending then s
    else (s.modifySession c.session fun x => { x with commandHistory := [] }).setCall i
      { c with body := rest }
  | .ready, .appendHistory command :: rest =>
    if c.accounting = .pending then s
    else (s.modifySession c.session fun x =>
      { x with commandHistory := x.commandHistory ++ [command] }).setCall i { c with body := rest }
  | _, _ => s

/-- `_release_request`, behind the body of the method. -/
def releaseRequest (i : ℕ) (c : Call F) : Server F L :=
  if c.isReady && c.body.isEmpty && c.isHeld then
    (s.modifySession c.session fun x => { x with activeRequests := x.activeRequests - 1 }).setCall i
      { c with accounting := .released }
  else s

def settleCall (i : ℕ) (raises : Bool) : Server F L :=
  match s.calls[i]? with
  | none => s
  | some c => s.setCall i (c.settle raises)

def startJob (sid : SessionId) (x : Session F L) : Server F L :=
  match x.running, x.queue with
  | none, job :: rest =>
    if x.closed then s
    else s.modifySession sid fun x => { x with running := some job, queue := rest }
  | _, _ => s

def finishJob (sid : SessionId) (x : Session F L) (raises : Bool) : Server F L :=
  match x.running with
  | none => s
  | some job =>
    (s.modifySession sid fun x =>
      { x with running := none, backend := B.run job.fn x.backend }).settleCall job.call raises

/-- The checks of `release_session` and of `close_session`, where the lease is required or not. -/
def beginLeaseEnd (sid : SessionId) (lease : Option LeaseId) (stage : LeaseEndStage) :
    Server F L :=
  if s.usable sid lease && !s.inUse sid then { s with leaseEnd := some ⟨sid, stage⟩ } else s

/-- The rest of `release_session`, or of `close_session`: the popped session is looked at again,
and either put back or its lease ended. -/
def continueLeaseEnd (e : LeaseEnd) : Server F L :=
  match e.stage with
  | .releasing => { (s.modifySession e.session fun x => { x with lease := none }).moveToEnd
      e.session with leaseEnd := none }
  | .closing =>
    if s.inUse e.session then { s.moveToEnd e.session with leaseEnd := none }
    else { s with leaseEnd := some ⟨e.session, .popped⟩ }
  | .popped => { s.modifySession e.session fun x => { x with lease := none } with
      lru := s.lru.erase e.session
      leaseEnd := none }

/-- The first step of `ThreadedBackend.close`, on a session that left the pool. -/
def shutdown (sid : SessionId) : Server F L :=
  if sid ∈ s.lru then s else s.modifySession sid fun x => { x with shuttingDown := true }

/-- The drain loop cancels one queued job. -/
def cancelJob (sid : SessionId) (x : Session F L) : Server F L :=
  match x.queue with
  | job :: rest =>
    if x.shuttingDown then
      (s.modifySession sid fun x => { x with queue := rest }).settleCall job.call true
    else s
  | [] => s

/-- The end of `close`: the worker takes no further job. -/
def stop (sid : SessionId) (x : Session F L) : Server F L :=
  if x.shuttingDown then s.modifySession sid fun x => { x with closed := true } else s

end Server

inductive Event (F : Type)
  | createSession (sid : SessionId) (lease : Option LeaseId) (key : DependencyKey)
  | acquireSession (lease : LeaseId) (key : DependencyKey) (reuseDirty : Bool)
  | popOldestIdle
  | getSession (sid : SessionId) (lease : LeaseId) (method : Method F)
  | releaseSession (sid : SessionId) (lease : LeaseId)
  | closeSession (sid : SessionId) (lease : Option LeaseId)
  | continueLeaseEnd
  | acquireRequest (i : ℕ)
  | submit (i : ℕ)
  | enqueue (i : ℕ)
  | timeOut (i : ℕ)
  | raise (i : ℕ)
  | bookkeep (i : ℕ)
  | releaseRequest (i : ℕ)
  | startJob (sid : SessionId)
  | finishJob (sid : SessionId) (raises : Bool)
  | shutdown (sid : SessionId)
  | cancelJob (sid : SessionId)
  | stop (sid : SessionId)

namespace Server

variable {F L : Type} (B : BackendApi F L) (s : Server F L)

/-- A step under the manager lock, which waits while a lease is being ended. -/
def locked (s' : Server F L) : Server F L := if s.leaseEnd.isSome then s else s'

def withCall (i : ℕ) (f : Call F → Server F L) : Server F L := (s.calls[i]?.map f).getD s

def withSession (sid : SessionId) (f : Session F L → Server F L) : Server F L :=
  ((s.sessions sid).map f).getD s

def step : Event F → Server F L
  | .createSession sid lease key => s.locked (s.createSession B sid lease key)
  | .acquireSession lease key reuseDirty => s.locked (s.acquireSession lease key reuseDirty)
  | .popOldestIdle => s.locked s.popOldestIdle
  | .getSession sid lease method => s.locked (s.getSession sid lease method)
  | .releaseSession sid lease => s.locked (s.beginLeaseEnd sid (some lease) .releasing)
  | .closeSession sid lease => s.locked (s.beginLeaseEnd sid lease .closing)
  | .continueLeaseEnd => (s.leaseEnd.map s.continueLeaseEnd).getD s
  | .acquireRequest i => s.withCall i (s.acquireRequest i)
  | .submit i => s.withCall i (s.submit i)
  | .enqueue i => s.withCall i (s.enqueue i)
  | .timeOut i => s.withCall i (s.timeOut i)
  | .raise i => s.withCall i (s.raise i)
  | .bookkeep i => s.withCall i (s.bookkeep i)
  | .releaseRequest i => s.withCall i (s.releaseRequest i)
  | .startJob sid => s.withSession sid (s.startJob sid)
  | .finishJob sid raises => s.withSession sid fun x => s.finishJob B sid x raises
  | .shutdown sid => s.shutdown sid
  | .cancelJob sid => s.withSession sid (s.cancelJob sid)
  | .stop sid => s.withSession sid (s.stop sid)

end Server
end IsabelleGym
