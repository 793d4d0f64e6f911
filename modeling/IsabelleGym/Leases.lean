import IsabelleGym.Endpoints
import IsabelleGym.LeaseInvariant
import IsabelleGym.Runs
import IsabelleGym.ServerConcurrency

/-!
# Lease isolation

A release looks at the number of counted requests only. Requests between their
authorisation and their counting, methods that never count themselves and jobs
whose wait has timed out escape it. Where none of these is there when a lease
ends, the server refines the abstract model and every job runs under the lease
of its request.
-/

namespace IsabelleGym
namespace Server

variable {F L : Type} (B : BackendApi F L) (s : Server F L)

def view (x : Session F L) : ServerConcurrency.SessionState LeaseId (Job F) L :=
  ⟨x.lease, x.queue, x.running, x.backend⟩

def systemState : ServerConcurrency.SystemState SessionId LeaseId (Job F) L :=
  fun sid => ((s.sessions sid).map view).getD ⟨none, [], none, B.create⟩

/-- The step is one of the abstract model, and afterwards every running job runs under the
lease that authorised its request. A lease ends only when the session is idle. -/
structure Isolated (e : Event F) : Prop where
  steps : ServerConcurrency.Steps (s.systemState B) ((s.step B e).systemState B)
  leased : ∀ sid x j, (s.step B e).sessions sid = some x → x.running = some j →
    ∃ c, (s.step B e).calls[j.call]? = some c ∧ c.session = sid ∧ x.lease = some c.lease
  idle : ∀ sid x x', s.sessions sid = some x → (s.step B e).sessions sid = some x' →
    x.lease.isSome = true → x'.lease = none → x.queue = [] ∧ x.running = none

variable {B s}

section Refinement

open ServerConcurrency

theorem systemState_apply (B : BackendApi F L) {sid : SessionId} {x : Session F L}
    (hx : s.sessions sid = some x) : s.systemState B sid = view x := by
  simp [systemState, hx]

theorem systemState_update (B : BackendApi F L) {s' : Server F L} {sid : SessionId}
    {x : Session F L} (hs' : s'.sessions = Function.update s.sessions sid (some x)) :
    s'.systemState B = Function.update (s.systemState B) sid (view x) := by
  funext n
  by_cases hn : n = sid
  · subst hn
    simp [systemState, hs']
  · simp [systemState, hs', Function.update_of_ne hn]

/-- A new session is an unused one that is acquired where it has a lease. -/
theorem steps_create (B : BackendApi F L) {sid : SessionId} {lease : Option LeaseId}
    {key : DependencyKey} (hnone : s.sessions sid = none) :
    Steps (s.systemState B) (Function.update (s.systemState B) sid
      (view { dependencyKey := key, lease, backend := B.create })) := by
  have hstate : s.systemState B sid = ⟨none, [], none, B.create⟩ := by
    simp [systemState, hnone]
  cases lease with
  | none =>
    left
    rw [view, ← hstate, Function.update_eq_self]
  | some c =>
    right
    refine ⟨.acquire c sid, by simp [Enabled, hstate], ?_⟩
    simp [exec, updSess, hstate, view]

/-- The end of a lease is a release, or nothing where there is no lease. -/
theorem steps_endLease (h : s.LeaseInv) (B : BackendApi F L) {e : LeaseEnd} {x : Session F L}
    (hx : s.sessions e.session = some x) (he : s.leaseEnd = some e) :
    Steps (s.systemState B)
      (Function.update (s.systemState B) e.session (view { x with lease := none })) := by
  have hjobs := (h.ending e he).jobs x hx
  simp only [Session.jobs, List.append_eq_nil_iff, Option.toList_eq_nil_iff] at hjobs
  have hstate := systemState_apply B hx
  cases hl : x.lease with
  | none =>
    left
    have hview : view { x with lease := none } = s.systemState B e.session := by
      rw [hstate, view, view, hl]
    rw [hview, Function.update_eq_self]
  | some c =>
    right
    refine ⟨.release c e.session, ?_, ?_⟩
    · simp [Enabled, Idle, hstate, view, hl, hjobs]
    · simp [exec, updSess, hstate, view]

/-- Every change of a session is an action of the abstract model on it, or is not seen there. -/
theorem steps_change (h : s.LeaseInv) (hpool : s.PoolInv) (B : BackendApi F L) {e : Event F}
    {sid : SessionId} {x x' : Session F L} (hx : s.sessions sid = some x)
    (hchange : SessionChange B s sid x e x') :
    Steps (s.systemState B) (Function.update (s.systemState B) sid (view x')) := by
  have hstate := systemState_apply B hx
  have hunseen : view x' = view x →
      Steps (s.systemState B) (Function.update (s.systemState B) sid (view x')) := by
    intro hview
    left
    rw [hview, ← hstate, Function.update_eq_self]
  cases hchange with
  | @acquire lease _ _ hfree =>
    right
    refine ⟨.acquire lease sid, ?_, ?_⟩
    · simp [Enabled, hstate, view, hfree]
    · simp [exec, updSess, hstate, view]
  | endLease he hsid =>
    subst hsid
    exact steps_endLease h B hx he
  | @enqueue i c fn caught hc hsid hphase =>
    subst hsid
    have hopen : c.isOpen = true := by simp [Call.isOpen, Call.isReady, hphase]
    have hl := h.openCall c (List.mem_of_getElem? hc) hopen x hx
    right
    refine ⟨.enqueue c.lease c.session ⟨fn, i⟩, ?_, ?_⟩
    · simp [Enabled, hstate, view, hl]
    · simp [exec, updSess, hstate, view]
  | @startJob job rest hrun hqueue =>
    obtain ⟨c, _, _, hl⟩ := h.job sid x hx job (by simp [Session.jobs, hqueue])
    right
    refine ⟨.start sid, ?_, ?_⟩
    · simp [Enabled, hstate, view, hl, hrun, hqueue]
    · simp [exec, updSess, hstate, view, hqueue]
  | @finishJob job raises hrun =>
    obtain ⟨c, _, _, hl⟩ := h.job sid x hx job (by simp [Session.jobs, hrun])
    right
    refine ⟨.finish sid (B.run job.fn x.backend), ?_, ?_⟩
    · simp [Enabled, hstate, view, hl, hrun]
    · simp [exec, updSess, hstate, view]
  | @cancelJob job rest hqueue hshut =>
    -- the drained queue of a session outside the pool is empty already
    have hjobs := (h.unpooled sid (hpool.shut sid x hx hshut)).jobs x hx
    simp [Session.jobs, hqueue] at hjobs
  | count | uncount | bookkeep | shutdown | stop => exact hunseen rfl

theorem steps_step (h : s.LeaseInv) (hpool : s.PoolInv) (B : BackendApi F L) (e : Event F) :
    Steps (s.systemState B) ((s.step B e).systemState B) := by
  have hstep := sessions_step B s e
  generalize hs' : s.step B e = s' at hstep ⊢
  generalize hsessions : s'.sessions = sessions' at hstep
  cases hstep with
  | same =>
    left
    unfold systemState
    rw [hsessions]
  | create _ hnone =>
    rw [systemState_update B hsessions]
    exact steps_create B hnone
  | change hx hchange =>
    rw [systemState_update B hsessions]
    exact steps_change h hpool B hx hchange

theorem isolated_step (h : s.LeaseInv) (hpool : s.PoolInv) (B : BackendApi F L) {e : Event F}
    (he : s.EndsAccounted e) : s.Isolated B e where
  steps := steps_step h hpool B e
  leased sid x j hx hrun := by
    refine (h.step B he).job sid x hx j ?_
    simp [Session.jobs, hrun]
  idle sid x x' hx hx' hl hl' := by
    have hsteps := steps_step h hpool B e
    have hidle := hsteps.idle_of_released (s := sid)
      (by simpa [systemState_apply B hx, view] using Option.ne_none_iff_isSome.mpr hl)
      (by simpa [systemState_apply B hx', view] using hl')
    simpa [Idle, systemState_apply B hx, view] using hidle

structure ServerInv (s : Server F L) : Prop where
  leases : s.LeaseInv
  pool : s.PoolInv

/-- In every run whose releases and closes find the requests of their session accounted, the
server refines the abstract model and every job runs under the lease of its request. -/
theorem leases_isolated (B : BackendApi F L) (poolSize : ℕ) (events : List (Event F))
    (h : Runs.EveryStep (Server.step B) EndsAccounted { poolSize } events) :
    Runs.EveryStep (Server.step B) (Isolated B) { poolSize } events := by
  have hinv : ServerInv ({ poolSize } : Server F L) :=
    ⟨leaseInv_initial poolSize, poolInv_initial poolSize⟩
  exact Runs.everyStep_of_invariant
    (fun s e (hs : ServerInv s) he => ⟨hs.leases.step B he, hs.pool.step B e⟩)
    (fun s e hs he => isolated_step hs.leases hs.pool B he) hinv h

end Refinement

section Example

open SessionMethod

def wordBackend : BackendApi BackendFn ReplSession := replBackend OuterSyntax.isabelle "c" []

/-- A rollback runs while its session is released. -/
def rollbackEvents : List (Event BackendFn) :=
  [.createSession 0 (some "a") "k", .getSession 0 "a" rollback, .submit 0, .enqueue 0, .startJob 0,
    .releaseSession 0 "a", .continueLeaseEnd]

theorem release_during_rollback :
    ¬ Runs.EveryStep (Server.step wordBackend) (Isolated wordBackend) { poolSize := 1 }
      rollbackEvents := by
  rintro ⟨_, _, _, _, _, _, hlast, _⟩
  have hidle := hlast.idle 0 _ _ rfl rfl rfl rfl
  exact absurd hidle.2 (by decide)

/-- A command runs to its end before its session is released. -/
def commandEvents : List (Event BackendFn) :=
  [.createSession 0 (some "a") "k",
    .getSession 0 "a" (executeCommand (fun _ => .ok) "by simp".toList none), .acquireRequest 0,
    .submit 0, .enqueue 0, .startJob 0, .finishJob 0 false, .bookkeep 0, .releaseRequest 0,
    .releaseSession 0 "a", .continueLeaseEnd]

theorem accounted_of_all {sid : SessionId}
    (hcalls : (s.calls.all fun c => !c.isOpen) = true)
    (hjobs : ((s.sessions sid).all fun x => x.jobs.isEmpty) = true) : s.Accounted sid := by
  constructor
  · intro c hc _ ho
    have hclosed := List.all_eq_true.mp hcalls c hc
    simp [ho] at hclosed
  · intro x hx j hj
    rw [hx] at hjobs
    have hnil : x.jobs = [] := by simpa using hjobs
    rw [hnil] at hj
    cases hj

theorem leases_isolated_command :
    Runs.EveryStep (Server.step wordBackend) (Isolated wordBackend) { poolSize := 1 }
      commandEvents := by
  refine leases_isolated wordBackend 1 commandEvents
    ⟨trivial, trivial, trivial, trivial, trivial, trivial, trivial, trivial, trivial, ?_, trivial,
      trivial⟩
  exact fun _ _ _ => accounted_of_all (by decide +kernel) (by decide +kernel)

end Example

end Server
end IsabelleGym
