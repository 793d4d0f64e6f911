import IsabelleGym.Sessions

/-!
# The session manager around the pool

`_create_session` as the chain of its steps, each with its failure exit; the
gateway with its liveness probe and its recovery; the clock, the activity of the
sessions and the sweeps of the cleanup loop; and the closes of the sessions that
have left the pool. Whoever takes a session out of the pool closes it afterwards,
outside the manager lock. A raw backend goes by the id of the session that it is
created for: a creation calls the gateway once.
-/

namespace IsabelleGym

/-- The methods of the Scala object `ReplBackendGateway`. -/
def replBackendGateway : List String :=
  ["get_repl_backend", "get_repl_backend_with_cache", "get_repl_backend_with_full_cache_config",
    "get_repl_backend_with_memory_management", "get_repl_backend_with_initial_theories",
    "get_shared_session_manager", "get_repl_backend_with_shared_cache",
    "clear_shared_session_manager"]

/-- A gateway process; `answers` while every probe of it would come back in time. -/
structure Gateway where
  number : ℕ
  terminated : Bool := false
  answers : Bool := true

namespace Gateway

variable (gw : Gateway)

/-- A call of a method through Py4J, which raises where the object has no such method. -/
def callSucceeds (method : String) : Bool :=
  !gw.terminated && decide (method ∈ replBackendGateway)

/-- `is_alive`: every error of the probe reads as not alive. -/
def isAlive : Bool := gw.callSucceeds "alive" && gw.answers

def healthy : Bool := !gw.terminated && gw.answers

end Gateway

/-- How far `_create_session` has come: in `_ensure_gateway`, preparing the theory file and the
memory, waiting on the thread that calls the gateway, given up while that thread runs on, with
the raw backend, with its worker thread, with the session object. -/
inductive CreationStage
  | ensuring | preparing | calling | abandoned | arrived | wrapped | built
deriving DecidableEq

structure Creation where
  lease : Option LeaseId
  key : DependencyKey
  stage : CreationStage

/-- How far `_ensure_gateway` has come behind its probe: before the purge of a recovery, closing
the sessions it purged, or starting a gateway. -/
inductive EnsureStage
  | recovering
  | purged (dead : List SessionId)
  | starting

/-- The holder of `_gateway_lock`, called by a creation or else by the start of the server or
the cleanup loop. -/
structure EnsureGateway where
  creation : Option SessionId
  stage : EnsureStage

inductive Sweep
  | sleeping
  | woken (now : ℕ)
  | closing (toClose : List SessionId)

structure RawBackend where
  session : SessionId
  gateway : ℕ

/-- `reaping` says that the close under way is the one of the cleanup loop. The sessions in
`popped` have left the pool, those in `closing` are past the shutdown flag of their backend, and
for those in `exits` the exit job was submitted. -/
structure Manager (F L : Type) where
  server : Server F L
  idleTimeout : ℕ
  maxLeaseAge : ℕ
  gateway : Option Gateway := none
  gateways : ℕ := 0
  gatewayLock : Option EnsureGateway := none
  creations : SessionId → Option Creation := fun _ => none
  returned : List RawBackend := []
  now : ℕ := 0
  lastActivity : SessionId → ℕ := fun _ => 0
  active : List ℕ := []
  sweep : Sweep := .sleeping
  reaping : Bool := false
  popped : List SessionId := []
  closing : List SessionId := []
  exits : List SessionId := []
  down : Bool := false

namespace Manager

variable {F L : Type} (B : BackendApi F L) (m : Manager F L)

/-- The sessions that a step of the server took out of the pool. -/
def left (s s' : Server F L) : List SessionId := s.lru.filter fun sid => decide (sid ∉ s'.lru)

/-- The session whose lease a step of the server takes or drops, which counts as activity. -/
def touched (s : Server F L) : Event F → Option SessionId
  | .acquireSession _ key reuseDirty =>
    if s.leaseEnd.isSome then none else s.findReusable key reuseDirty
  | .continueLeaseEnd => s.leaseEnd.bind fun e =>
    match e.stage with
    | .releasing => some e.session
    | .closing => none
    | .popped => if s.leased e.session then some e.session else none
  | _ => none

def touch (sid : SessionId) : SessionId → ℕ := Function.update m.lastActivity sid m.now

def serve (e : Event F) : Manager F L :=
  let server := m.server.step B e
  { m with
    server
    lastActivity := ((touched m.server e).map m.touch).getD m.lastActivity
    reaping := m.server.leaseEnd.isSome && m.reaping
    popped := m.popped ++ left m.server server }

/-- Registrations and closes are steps of the manager; a request is counted behind its
`update_activity`, and a worker stopped behind its exit job. -/
def allows : Event F → Bool
  | .createSession _ _ _ | .shutdown _ => false
  | .acquireRequest i => decide (i ∈ m.active)
  | .stop sid => decide (sid ∈ m.exits)
  | _ => true

def updateActivity (i : ℕ) (c : Call F) : Manager F L :=
  if c.accounting = .pending then
    { m with lastActivity := m.touch c.session, active := i :: m.active }
  else m

section Creation

def withCreation (sid : SessionId) (f : Creation → Manager F L) : Manager F L :=
  ((m.creations sid).map f).getD m

def setStage (sid : SessionId) (c : Creation) (stage : CreationStage) : Manager F L :=
  { m with creations := Function.update m.creations sid (some { c with stage }) }

def endCreation (sid : SessionId) : Manager F L :=
  { m with creations := Function.update m.creations sid none }

def createSession (sid : SessionId) (lease : Option LeaseId) (key : DependencyKey) :
    Manager F L :=
  if (m.creations sid).isSome || (m.server.sessions sid).isSome ||
      decide (sid ∈ m.returned.map RawBackend.session) then m
  else m.setStage sid ⟨lease, key, .ensuring⟩ .ensuring

def refuse (sid : SessionId) (c : Creation) : Manager F L :=
  if c.stage = .preparing then m.endCreation sid else m

def callGateway (sid : SessionId) (c : Creation) : Manager F L :=
  if c.stage = .preparing then m.setStage sid c .calling else m

/-- The request gives up: `SESSION_CREATE` has passed, or it is cancelled where it awaits. -/
def giveUp (sid : SessionId) (c : Creation) : Manager F L :=
  match c.stage with
  | .calling => m.setStage sid c .abandoned
  | .ensuring | .preparing | .arrived => m.endCreation sid
  | .abandoned | .wrapped | .built => m

def threadReturns (sid : SessionId) (c : Creation) : Manager F L :=
  match m.gatewayLock, m.gateway with
  | none, some gw =>
    if gw.callSucceeds "get_repl_backend_with_initial_theories" then
      match c.stage with
      | .calling => { m.setStage sid c .arrived with returned := m.returned ++ [⟨sid, gw.number⟩] }
      -- nobody awaits the result any more
      | .abandoned => { m.endCreation sid with returned := m.returned ++ [⟨sid, gw.number⟩] }
      | _ => m
    else m
  | _, _ => m

def threadFails (sid : SessionId) (c : Creation) : Manager F L :=
  match c.stage with
  | .calling | .abandoned => m.endCreation sid
  | _ => m

def wrap (sid : SessionId) (c : Creation) : Manager F L :=
  if c.stage = .arrived then m.setStage sid c .wrapped else m

def wrapFails (sid : SessionId) (c : Creation) : Manager F L :=
  if c.stage = .arrived then m.endCreation sid else m

def build (sid : SessionId) (c : Creation) : Manager F L :=
  if c.stage = .wrapped then { m.setStage sid c .built with lastActivity := m.touch sid } else m

def buildFails (sid : SessionId) (c : Creation) : Manager F L :=
  if c.stage = .wrapped then { m.endCreation sid with popped := m.popped ++ [sid] } else m

/-- The insertion with its evictions. Where every session is busy the new one is taken back, and
the evicted ones are not closed. -/
def register (sid : SessionId) (c : Creation) : Manager F L :=
  if c.stage = .built ∧ m.server.leaseEnd = none then
    let server := m.server.step B (.createSession sid c.lease c.key)
    { m.endCreation sid with
      server
      lastActivity := if c.lease.isSome then m.touch sid else m.lastActivity
      popped := m.popped ++ if sid ∈ server.lru then left m.server server else [sid] }
  else m

end Creation

section GatewayLock

/-- `_ensure_gateway` returns to its caller, or raises. -/
def finishEnsure (creation : Option SessionId) (ok : Bool) : Manager F L :=
  let m : Manager F L := { m with gatewayLock := none }
  match creation with
  | none => m
  | some sid => m.withCreation sid fun c =>
    if c.stage = .ensuring then
      if ok then m.setStage sid c .preparing else m.endCreation sid
    else m

def ensureGateway (creation : Option SessionId) : Manager F L :=
  if m.gatewayLock.isSome ||
      creation.any fun sid => !(m.creations sid).any fun c => c.stage = .ensuring then m
  else
    match m.gateway with
    | some gw =>
      if gw.isAlive then m.finishEnsure creation true
      else { m with gatewayLock := some ⟨creation, .recovering⟩ }
    | none => { m with gatewayLock := some ⟨creation, .starting⟩ }

/-- All sessions leave the pool, under the manager lock. -/
def clearPool : Manager F L :=
  { m with server := { m.server with lru := [] }, popped := m.popped ++ m.server.lru }

def purge : Manager F L :=
  match m.gatewayLock with
  | some ⟨creation, .recovering⟩ =>
    if m.server.leaseEnd.isSome then m
    else { m.clearPool with gatewayLock := some ⟨creation, .purged m.server.lru⟩ }
  | _ => m

def dropGateway : Manager F L :=
  match m.gatewayLock with
  | some ⟨creation, .purged dead⟩ =>
    if dead.all fun sid => decide (sid ∉ m.popped) && decide (sid ∉ m.closing) then
      { m with gateway := none, gatewayLock := some ⟨creation, .starting⟩ }
    else m
  | _ => m

def startGateway (ok : Bool) : Manager F L :=
  match m.gatewayLock with
  | some ⟨creation, .starting⟩ =>
    if ok then
      { m with gateway := some { number := m.gateways }, gateways := m.gateways + 1 }.finishEnsure
        creation true
    else m.finishEnsure creation false
  | _ => m

end GatewayLock

section CleanupLoop

def isIdle (sid : SessionId) (timeout now : ℕ) : Bool := timeout < now - m.lastActivity sid

def wake : Manager F L :=
  match m.sweep with
  | .sleeping => { m with sweep := .woken m.now }
  | _ => m

/-- The selection of `cleanup_idle_sessions`. -/
def idleSessions (now : ℕ) : List SessionId :=
  m.server.lru.filter fun sid => (m.server.sessions sid).any fun x =>
    !x.closed && m.isIdle sid (if x.lease.isSome then m.maxLeaseAge else m.idleTimeout) now

def select : Manager F L :=
  match m.sweep with
  | .woken now =>
    if m.server.leaseEnd.isSome then m else { m with sweep := .closing (m.idleSessions now) }
  | _ => m

def reap : Manager F L :=
  match m.sweep with
  | .closing (sid :: rest) =>
    if m.server.leaseEnd.isSome then m
    else { m.serve B (.closeSession sid none) with reaping := true, sweep := .closing rest }
  | .closing [] => { m with sweep := .sleeping }
  | _ => m

end CleanupLoop

/-- `session.close()`, or `backend.close()` where there is no session object, up to the shutdown
flag. -/
def beginClose (sid : SessionId) : Manager F L :=
  if sid ∈ m.popped then
    if (m.server.sessions sid).any Session.closed then { m with popped := m.popped.erase sid }
    else
      { m with
        server := m.server.step B (.shutdown sid)
        popped := m.popped.erase sid
        closing := m.closing ++ [sid] }
  else m

/-- The exit job is submitted, behind the drain of the queue. -/
def putExit (sid : SessionId) : Manager F L :=
  if sid ∈ m.closing then
    { m with closing := m.closing.erase sid, exits := m.exits ++ [sid] }
  else m

/-- `shutdown` of the manager, whose last step ends the gateway. -/
def shutdown : Manager F L :=
  if m.server.leaseEnd.isSome then m else { m.clearPool with down := true }

def endGateway : Manager F L := if m.down then { m with gateway := none } else m

end Manager

inductive ManagerEvent (F : Type)
  | serve (e : Event F)
  | updateActivity (i : ℕ)
  | tick (seconds : ℕ)
  | createSession (sid : SessionId) (lease : Option LeaseId) (key : DependencyKey)
  | refuse (sid : SessionId)
  | callGateway (sid : SessionId)
  | giveUp (sid : SessionId)
  | threadReturns (sid : SessionId)
  | threadFails (sid : SessionId)
  | wrap (sid : SessionId)
  | wrapFails (sid : SessionId)
  | build (sid : SessionId)
  | buildFails (sid : SessionId)
  | register (sid : SessionId)
  | ensureGateway (creation : Option SessionId)
  | purge
  | dropGateway
  | startGateway (ok : Bool)
  | gatewayTerminates
  | gatewayHangs
  | wake
  | select
  | reap
  | beginClose (sid : SessionId)
  | putExit (sid : SessionId)
  | shutdown
  | endGateway

namespace Manager

variable {F L : Type} (B : BackendApi F L) (m : Manager F L)

def step : ManagerEvent F → Manager F L
  | .serve e => if m.allows e then m.serve B e else m
  | .updateActivity i => (m.server.calls[i]?.map (m.updateActivity i)).getD m
  | .tick seconds => { m with now := m.now + seconds }
  | .createSession sid lease key => m.createSession sid lease key
  | .refuse sid => m.withCreation sid (m.refuse sid)
  | .callGateway sid => m.withCreation sid (m.callGateway sid)
  | .giveUp sid => m.withCreation sid (m.giveUp sid)
  | .threadReturns sid => m.withCreation sid (m.threadReturns sid)
  | .threadFails sid => m.withCreation sid (m.threadFails sid)
  | .wrap sid => m.withCreation sid (m.wrap sid)
  | .wrapFails sid => m.withCreation sid (m.wrapFails sid)
  | .build sid => m.withCreation sid (m.build sid)
  | .buildFails sid => m.withCreation sid (m.buildFails sid)
  | .register sid => m.withCreation sid (m.register B sid)
  | .ensureGateway creation => m.ensureGateway creation
  | .purge => m.purge
  | .dropGateway => m.dropGateway
  | .startGateway ok => m.startGateway ok
  | .gatewayTerminates =>
    { m with gateway := m.gateway.map fun gw => { gw with terminated := true } }
  | .gatewayHangs => { m with gateway := m.gateway.map fun gw => { gw with answers := false } }
  | .wake => m.wake
  | .select => m.select
  | .reap => m.reap B
  | .beginClose sid => m.beginClose B sid
  | .putExit sid => m.putExit sid
  | .shutdown => m.shutdown
  | .endGateway => m.endGateway

end Manager
end IsabelleGym
