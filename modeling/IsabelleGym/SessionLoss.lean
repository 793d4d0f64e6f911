import IsabelleGym.Leases
import IsabelleGym.ManagerSteps
import IsabelleGym.Runs

/-!
# How a session in use leaves the pool

Five events take sessions out of the pool. The gateway has no method that the
liveness probe calls, so `_ensure_gateway` takes every gateway for a dead one and
purges the pool. The eviction and the relief of memory pressure look at the
counted requests only, and the cleanup loop closes what it has selected before.
-/

namespace IsabelleGym

/-- No running gateway passes the probe. -/
@[simp] theorem Gateway.isAlive_eq_false (gw : Gateway) : gw.isAlive = false := by
  have hmissing : "alive" ∉ replBackendGateway := by simp [replBackendGateway]
  simp [isAlive, callSucceeds, hmissing]

namespace Manager

variable {F L : Type} {B : BackendApi F L} {m : Manager F L}

/-- The events that take a session out of the pool, with what precedes them. -/
inductive Removal (m : Manager F L) : ManagerEvent F → SessionId → Prop
  | purge {creation : Option SessionId} {sid : SessionId} :
    m.gatewayLock = some ⟨creation, .recovering⟩ → m.server.leaseEnd = none →
    sid ∈ m.server.lru → Removal m .purge sid
  | shutdown {sid : SessionId} : m.server.leaseEnd = none → sid ∈ m.server.lru →
    Removal m .shutdown sid
  | evict {new sid : SessionId} {c : Creation} : m.creations new = some c → c.stage = .built →
    m.server.leaseEnd = none → m.server.lru.length = m.server.poolSize →
    m.server.oldestIdle = some sid → Removal m (.register new) sid
  | pop {sid : SessionId} : m.server.leaseEnd = none → m.server.oldestIdle = some sid →
    Removal m (.serve .popOldestIdle) sid
  | close {sid : SessionId} : m.server.leaseEnd = some ⟨sid, .popped⟩ →
    Removal m (.serve .continueLeaseEnd) sid

theorem removal_of_lruStep {e : Event F} {lru : List SessionId} {sid : SessionId}
    (hstep : m.server.LruStep e lru) (hin : sid ∈ m.server.lru) (hout : sid ∉ lru) :
    m.Removal (.serve e) sid := by
  have hgone : ∀ {n : SessionId}, sid ∉ m.server.lru.erase n → sid = n := by
    intro n hn
    by_contra hne
    exact hn ((List.mem_erase_of_ne hne).mpr hin)
  cases hstep with
  | perm hperm => exact absurd (hperm.mem_iff.mpr hin) hout
  | pop hlock hidle =>
    rw [hgone hout]
    exact .pop hlock hidle
  | close hend =>
    rw [hgone hout]
    exact .close hend

theorem removal_of_insertion {sid new : SessionId} {c : Creation} {lru : List SessionId}
    (hc : m.creations new = some c) (hbuilt : c.stage = .built) (hlock : m.server.leaseEnd = none)
    (hins : m.server.Insertion new lru) (hin : sid ∈ m.server.lru) (hout : sid ∉ lru) :
    m.Removal (.register new) sid := by
  cases hins with
  | room _ => exact absurd (List.mem_append_left _ hin) hout
  | @evict oldest hfull hidle =>
    have hsid : sid = oldest := by
      by_contra hne
      exact hout (List.mem_append_left _ ((List.mem_erase_of_ne hne).mpr hin))
    rw [hsid]
    exact .evict hc hbuilt hlock hfull hidle
  | full _ _ => exact absurd hin hout

theorem PoolBound.removal (h : m.PoolBound) {e : ManagerEvent F} {sid : SessionId}
    (hin : sid ∈ m.server.lru) (hout : sid ∉ (m.step B e).server.lru) : m.Removal e sid := by
  have hmove := server_step B m e
  generalize (m.step B e).server = s' at hmove hout
  cases hmove with
  | same => exact absurd hin hout
  | serve hallows => exact removal_of_lruStep (h.lruStep B (allows_spec hallows).1) hin hout
  | register hc hbuilt hlock =>
    exact removal_of_insertion hc hbuilt hlock (h.insertion B hc hlock) hin hout
  | purge hrecovering hlock => exact .purge hrecovering hlock hin
  | shutdown hlock => exact .shutdown hlock hin
  | reap hsweep hlock => cases removal_of_lruStep (h.lruStep B (by simp)) hin hout
  | beginClose _ => cases removal_of_lruStep (h.lruStep B (by simp)) hin hout

theorem lru_of_evict (h : m.PoolBound) {new sid : SessionId} {c : Creation}
    (hc : m.creations new = some c) (hbuilt : c.stage = .built) (hlock : m.server.leaseEnd = none)
    (hfull : m.server.lru.length = m.server.poolSize) (hidle : m.server.oldestIdle = some sid) :
    (m.step B (.register new)).server.lru = m.server.lru.erase sid ++ [new] := by
  have hserver : (m.step B (.register new)).server =
      m.server.step B (.createSession new c.lease c.key) := by
    simp only [step, withCreation, hc, Option.map_some, Option.getD_some, register, hbuilt, hlock,
      and_self, if_true]
  have hins := h.insertion B hc hlock
  rw [hserver]
  generalize (m.server.step B (.createSession new c.lease c.key)).lru = lru at hins ⊢
  cases hins with
  | room hroom => omega
  | evict _ hidle' => rw [Option.some.inj (hidle.symm.trans hidle')]
  | full _ hnone =>
    rw [hidle] at hnone
    cases hnone

/-- A removal does remove. -/
theorem PoolBound.mem_of_removal (h : m.PoolBound) {e : ManagerEvent F} {sid : SessionId}
    (hrem : m.Removal e sid) : sid ∈ m.server.lru ∧ sid ∉ (m.step B e).server.lru := by
  cases hrem with
  | purge hrecovering hlock hin =>
    exact ⟨hin, by simp [Manager.step, Manager.purge, hrecovering, hlock, clearPool]⟩
  | shutdown hlock hin => exact ⟨hin, by simp [Manager.step, Manager.shutdown, hlock, clearPool]⟩
  | @evict new _ c hc hbuilt hlock hfull hidle =>
    have hin := Server.mem_of_oldestIdle hidle
    refine ⟨hin, ?_⟩
    rw [lru_of_evict h hc hbuilt hlock hfull hidle]
    intro hmem
    rcases List.mem_append.mp hmem with hold | hlast
    · exact h.nodup.not_mem_erase hold
    · rw [List.mem_singleton.mp hlast] at hin
      exact h.not_mem hc hin
  | pop hlock hidle =>
    refine ⟨Server.mem_of_oldestIdle hidle, ?_⟩
    have hfind : (m.server.lru.find? fun n => !m.server.inUse n && !m.server.leased n) =
        some sid := hidle
    simp only [Manager.step, allows, if_true, serve, Server.step, Server.locked, hlock,
      Option.isSome_none, Bool.false_eq_true, if_false, Server.popOldestIdle, hfind]
    exact h.nodup.not_mem_erase
  | close hend =>
    refine ⟨h.pool.ending _ hend, ?_⟩
    simp only [Manager.step, allows, if_true, serve, Server.step_continueLeaseEnd_of_some hend,
      Server.continueLeaseEnd]
    exact h.nodup.not_mem_erase

/-- A request authorised on the session has not come to its end. -/
def Requested (s : Server F L) (sid : SessionId) : Prop :=
  ∃ c ∈ s.calls, c.session = sid ∧ c.isOpen = true

def Needed (s : Server F L) (sid : SessionId) : Prop := s.leased sid = true ∨ Requested s sid

/-- The lease is abandoned by the clock of the cleanup loop. -/
def Abandoned (m : Manager F L) (sid : SessionId) : Prop :=
  m.server.leased sid = true ∧ m.isIdle sid m.maxLeaseAge m.now = true

/-- The session leaves by a close, and where it is the close of the cleanup loop its lease is
abandoned. -/
def LeavesByRight (m : Manager F L) (sid : SessionId) : Prop :=
  m.server.leaseEnd = some ⟨sid, .popped⟩ ∧ (m.reaping = true → m.Abandoned sid)

/-- While the gateway is healthy, and short of the shutdown of the server, no session that is
leased or has a request in flight leaves the pool otherwise than by right. -/
def KeepsSessions (B : BackendApi F L) (m : Manager F L) (e : ManagerEvent F) : Prop :=
  m.gateway.any Gateway.healthy = true → e ≠ .shutdown → ∀ sid ∈ m.server.lru,
    Needed m.server sid → sid ∉ (m.step B e).server.lru → m.LeavesByRight sid

/-- While the gateway is healthy, a recovery finds no session that is leased or has a request in
flight; the session that an eviction or the relief of memory pressure picks has no uncounted
request; and the session that the cleanup loop closes has an abandoned lease, or neither lease
nor request. -/
def SparesNeeded (m : Manager F L) (e : ManagerEvent F) : Prop :=
  m.gateway.any Gateway.healthy = true →
    match e with
    | .purge => ∀ creation, m.gatewayLock = some ⟨creation, .recovering⟩ →
      m.server.leaseEnd = none → ∀ sid ∈ m.server.lru, ¬ Needed m.server sid
    | .register new => ∀ c, m.creations new = some c → c.stage = .built →
      m.server.leaseEnd = none → m.server.lru.length = m.server.poolSize →
      ∀ sid, m.server.oldestIdle = some sid → ¬ Requested m.server sid
    | .serve .popOldestIdle => m.server.leaseEnd = none →
      ∀ sid, m.server.oldestIdle = some sid → ¬ Requested m.server sid
    | .serve .continueLeaseEnd => m.reaping = true → ∀ sid,
      m.server.leaseEnd = some ⟨sid, .popped⟩ → Needed m.server sid → m.Abandoned sid
    | _ => True

theorem requested_of_oldestIdle {s : Server F L} {sid : SessionId}
    (hidle : s.oldestIdle = some sid) (hneeded : Needed s sid) : Requested s sid := by
  rcases hneeded with hleased | hreq
  · rw [Server.not_leased_of_oldestIdle hidle] at hleased
    cases hleased
  · exact hreq

theorem keepsSessions_of_spares (h : m.PoolBound) {e : ManagerEvent F}
    (hspares : m.SparesNeeded e) : KeepsSessions B m e := by
  intro hhealthy hshutdown sid hin hneeded hout
  have hcond := hspares hhealthy
  cases h.removal hin hout with
  | purge hrecovering hlock _ => exact absurd hneeded (hcond _ hrecovering hlock sid hin)
  | shutdown _ _ => exact absurd rfl hshutdown
  | evict hc hbuilt hlock hfull hidle =>
    exact absurd (requested_of_oldestIdle hidle hneeded) (hcond _ hc hbuilt hlock hfull sid hidle)
  | pop hlock hidle =>
    exact absurd (requested_of_oldestIdle hidle hneeded) (hcond hlock sid hidle)
  | close hend => exact ⟨hend, fun hreaping => hcond hreaping sid hend hneeded⟩

theorem spares_of_keepsSessions (h : m.PoolBound) {e : ManagerEvent F}
    (hkeeps : KeepsSessions B m e) : m.SparesNeeded e := by
  intro hhealthy
  have hright : e ≠ .shutdown → ∀ sid, m.Removal e sid → Needed m.server sid →
      m.LeavesByRight sid := by
    intro hshutdown sid hrem hneeded
    obtain ⟨hin, hout⟩ := h.mem_of_removal (B := B) hrem
    exact hkeeps hhealthy hshutdown sid hin hneeded hout
  -- where no lease is being ended, nothing leaves by right
  have hlost : m.server.leaseEnd = none → e ≠ .shutdown → ∀ sid, m.Removal e sid →
      ¬ Needed m.server sid := by
    intro hlock hshutdown sid hrem hneeded
    have hend := (hright hshutdown sid hrem hneeded).1
    rw [hlock] at hend
    cases hend
  cases e with
  | purge =>
    intro creation hrecovering hlock sid hin
    exact hlost hlock (by simp) sid (.purge hrecovering hlock hin)
  | register new =>
    intro c hc hbuilt hlock hfull sid hidle hreq
    exact hlost hlock (by simp) sid (.evict hc hbuilt hlock hfull hidle) (Or.inr hreq)
  | serve e =>
    cases e with
    | popOldestIdle =>
      intro hlock sid hidle hreq
      exact hlost hlock (by simp) sid (.pop hlock hidle) (Or.inr hreq)
    | continueLeaseEnd =>
      intro hreaping sid hend hneeded
      exact (hright (by simp) sid (.close hend) hneeded).2 hreaping
    | _ => trivial
  | _ => trivial

/-- A run of the manager loses no session in use exactly when all its removals spare them. -/
theorem keepsSessions_iff (B : BackendApi F L) (poolSize idleTimeout maxLeaseAge : ℕ)
    (events : List (ManagerEvent F)) :
    Runs.EveryStep (Manager.step B) (KeepsSessions B)
        { server := { poolSize }, idleTimeout, maxLeaseAge } events ↔
      Runs.EveryStep (Manager.step B) SparesNeeded
        { server := { poolSize }, idleTimeout, maxLeaseAge } events :=
  Runs.everyStep_iff_of_invariant (fun _ e (h : PoolBound _) _ => h.step B e)
    (fun _ _ h => ⟨spares_of_keepsSessions h, keepsSessions_of_spares h⟩)
    (poolBound_initial poolSize idleTimeout maxLeaseAge)

section Example

/-- The creation of a session up to its registration, on a running gateway or a new one. -/
def createEvents (sid : SessionId) (lease : LeaseId) (start : List (ManagerEvent F)) :
    List (ManagerEvent F) :=
  [.createSession sid (some lease) "k", .ensureGateway (some sid)] ++ start ++
    [.callGateway sid, .threadReturns sid, .wrap sid, .build sid, .register sid]

/-- A second session is created while the first one is leased. -/
def purgeEvents : List (ManagerEvent BackendFn) :=
  createEvents 0 "a" [.startGateway true] ++
    [.createSession 1 (some "b") "k", .ensureGateway (some 1), .purge]

theorem leased_session_purged :
    ¬ Runs.EveryStep (Manager.step Server.wordBackend)
      (KeepsSessions Server.wordBackend)
      { server := { poolSize := 2 }, idleTimeout := 1800, maxLeaseAge := 7200 } purgeEvents := by
  rintro ⟨_, _, _, _, _, _, _, _, _, _, hpurge, _⟩
  have hlost := hpurge (by decide) (by simp) 0 (by decide) (Or.inl (by decide)) (by decide)
  have hend : (none : Option LeaseEnd) = some ⟨0, .popped⟩ := hlost.1
  cases hend

end Example

end Manager
end IsabelleGym
