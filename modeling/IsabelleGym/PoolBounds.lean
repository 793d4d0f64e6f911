import IsabelleGym.SessionLoss

/-!
# The bound of the pool and what a creation evicts

A registration finds room, evicts one session, or is refused. Under memory
pressure a creation has evicted idle sessions before that, one at a time, as many
as it takes.
-/

namespace IsabelleGym

/-- The events of the manager, with the relief of memory pressure by a creation apart from the one
by the cleanup loop. -/
inductive PoolEvent (F : Type)
  | manager (e : ManagerEvent F)
  | relieve (creation : SessionId)

namespace Server

variable {F L : Type} {B : BackendApi F L} {s : Server F L}

def busy (s : Server F L) (sid : SessionId) : Bool := s.inUse sid || s.leased sid

/-- The session leaves the pool: it is the least recently used one that is neither in use nor
leased, and the others stay in their order. -/
inductive Eviction (s : Server F L) : SessionId → List SessionId → Prop
  | mk {sid : SessionId} {before after : List SessionId} : s.lru = before ++ sid :: after →
    (∀ n ∈ before, s.busy n = true) → s.busy sid = false → Eviction s sid (before ++ after)

/-- The pool behind a registration, and the sessions that its creation closes then. -/
inductive Admission (s : Server F L) (sid : SessionId) : List SessionId → List SessionId → Prop
  | room : s.lru.length < s.poolSize → Admission s sid (s.lru ++ [sid]) []
  | evict {oldest : SessionId} {rest : List SessionId} : s.lru.length = s.poolSize →
    Eviction s oldest rest → Admission s sid (rest ++ [sid]) [oldest]
  | refuse : s.lru.length = s.poolSize → (∀ n ∈ s.lru, s.busy n = true) →
    Admission s sid s.lru [sid]

theorem not_busy_of_oldestIdle {sid : SessionId} (h : s.oldestIdle = some sid) :
    s.busy sid = false := by
  have hidle := List.find?_some h
  simp only [Bool.and_eq_true, Bool.not_eq_true'] at hidle
  simp [busy, hidle]

theorem eviction_of_oldestIdle {sid : SessionId} (h : s.oldestIdle = some sid) :
    Eviction s sid (s.lru.erase sid) := by
  obtain ⟨hidle, before, after, hlru, hbusy⟩ := List.find?_eq_some_iff_append.mp h
  have hnot : sid ∉ before := by
    intro hin
    have hnotIdle := hbusy sid hin
    rw [hidle] at hnotIdle
    cases hnotIdle
  rw [hlru, List.erase_append_right _ hnot, List.erase_cons_head]
  refine .mk hlru (fun n hn => ?_) (not_busy_of_oldestIdle h)
  have hnotIdle := hbusy n hn
  cases hu : s.inUse n <;> cases hl : s.leased n <;> simp_all [busy]

theorem busy_of_oldestIdle_none (h : s.oldestIdle = none) {n : SessionId} (hn : n ∈ s.lru) :
    s.busy n = true := by
  have hnotIdle := List.find?_eq_none.mp h n hn
  cases hu : s.inUse n <;> cases hl : s.leased n <;> simp_all [busy]

theorem left_erase {s' : Server F L} {sid oldest : SessionId} (hnodup : s.lru.Nodup)
    (hin : oldest ∈ s.lru) (hnew : sid ∉ s.lru) (hs' : s'.lru = s.lru.erase oldest ++ [sid]) :
    Manager.left s s' = [oldest] := by
  have hmem : ∀ n ∈ s.lru, (n ∉ s'.lru ↔ n = oldest) := by
    intro n hn
    have hne : n ≠ sid := fun h => hnew (h ▸ hn)
    rw [hs', List.mem_append, List.mem_singleton, hnodup.mem_erase_iff]
    simp [hn, hne]
  have hfilter : Manager.left s s' = s.lru.filter fun n => n == oldest := by
    apply List.filter_congr
    intro n hn
    rw [decide_eq_decide.mpr (hmem n hn)]
    rfl
  rw [hfilter, List.filter_beq, List.count_eq_one_of_mem hnodup hin]
  rfl

/-- What a registration does to the pool, with the sessions that its creation is to close. -/
theorem Insertion.admission {s' : Server F L} {sid : SessionId} (h : Insertion s sid s'.lru)
    (hnodup : s.lru.Nodup) (hnew : sid ∉ s.lru) :
    Admission s sid s'.lru (if sid ∈ s'.lru then Manager.left s s' else [sid]) := by
  generalize hlru : s'.lru = lru at h
  cases h with
  | room hroom =>
    have hleft : Manager.left s s' = [] := by
      apply List.filter_eq_nil_iff.mpr
      intro n hn
      simp [hlru, hn]
    rw [if_pos (by simp), hleft]
    exact .room hroom
  | evict hfull hidle =>
    rw [if_pos (by simp), left_erase hnodup (mem_of_oldestIdle hidle) hnew hlru]
    exact .evict hfull (eviction_of_oldestIdle hidle)
  | full hfull hnone =>
    rw [if_neg hnew]
    exact .refuse hfull fun n hn => busy_of_oldestIdle_none hnone hn

end Server

namespace Manager

variable {F L : Type} (B : BackendApi F L) (m : Manager F L)

/-- `_relieve_memory_pressure` of a creation takes one more session out of the pool. -/
def relieve (c : Creation) : Manager F L :=
  if c.stage = .preparing then m.serve B .popOldestIdle else m

def poolStep : PoolEvent F → Manager F L
  | .manager e => m.step B e
  | .relieve sid => m.withCreation sid (m.relieve B)

/-- The registration of a session that is built, under the manager lock. -/
def Registers (sid : SessionId) : Prop :=
  ∃ c, m.creations sid = some c ∧ c.stage = .built ∧ m.server.leaseEnd = none

/-- The pool keeps its bound. A registration finds room, evicts the least recently used idle
session, or is refused and closes the new session only, and the relief of memory pressure takes
the least recently used idle session at a time. -/
def KeepsPool (B : BackendApi F L) (m : Manager F L) (e : PoolEvent F) : Prop :=
  (m.poolStep B e).server.lru.length ≤ m.server.poolSize ∧
    match e with
    | .manager (.register sid) => m.Registers sid →
      ∃ closed, Server.Admission m.server sid (m.poolStep B e).server.lru closed ∧
        (m.poolStep B e).popped = m.popped ++ closed
    | .manager (.serve .popOldestIdle) | .relieve _ =>
      (m.poolStep B e).server.lru = m.server.lru ∨
        ∃ sid, Server.Eviction m.server sid (m.poolStep B e).server.lru
    | _ => True

variable {B m}

theorem poolStep_relieve (sid : SessionId) :
    m.poolStep B (.relieve sid) = m ∨
      m.poolStep B (.relieve sid) = m.step B (.serve .popOldestIdle) := by
  refine withCreation_of (P := fun m' => m' = m ∨ m' = m.step B (.serve .popOldestIdle))
    (Or.inl rfl) fun c _ => ?_
  unfold relieve
  split_ifs
  · exact Or.inr rfl
  · exact Or.inl rfl

theorem PoolBound.poolStep (h : m.PoolBound) (e : PoolEvent F) : (m.poolStep B e).PoolBound := by
  cases e with
  | manager e => exact h.step B e
  | relieve sid =>
    rcases poolStep_relieve (B := B) (m := m) sid with hsame | hpop
    · rwa [hsame]
    · rw [hpop]
      exact h.step B _

theorem poolSize_step (B : BackendApi F L) (m : Manager F L) (e : ManagerEvent F) :
    (m.step B e).server.poolSize = m.server.poolSize := by
  have hmove := server_step B m e
  generalize (m.step B e).server = s' at hmove ⊢
  cases hmove with
  | same | purge | shutdown => rfl
  | serve | register | reap | beginClose => exact Server.poolSize_step B _ _

theorem PoolBound.length_poolStep (h : m.PoolBound) (e : PoolEvent F) :
    (m.poolStep B e).server.lru.length ≤ m.server.poolSize := by
  cases e with
  | manager e =>
    rw [← poolSize_step B m e]
    exact (h.step B e).bound
  | relieve sid =>
    rcases poolStep_relieve (B := B) (m := m) sid with hsame | hpop
    · rw [hsame]
      exact h.bound
    · rw [hpop, ← poolSize_step B m (.serve .popOldestIdle)]
      exact (h.step B _).bound

theorem eviction_popOldestIdle (B : BackendApi F L) (m : Manager F L) :
    (m.step B (.serve .popOldestIdle)).server.lru = m.server.lru ∨
      ∃ sid, Server.Eviction m.server sid (m.step B (.serve .popOldestIdle)).server.lru := by
  simp only [Manager.step, allows, if_true, serve, Server.step, Server.locked]
  split_ifs with hend
  · exact Or.inl rfl
  · unfold Server.popOldestIdle
    split
    case h_1 => exact Or.inl rfl
    case h_2 sid hidle => exact Or.inr ⟨sid, Server.eviction_of_oldestIdle hidle⟩

theorem admission_register (h : m.PoolBound) {sid : SessionId} (hreg : m.Registers sid) :
    ∃ closed, Server.Admission m.server sid (m.step B (.register sid)).server.lru closed ∧
      (m.step B (.register sid)).popped = m.popped ++ closed := by
  obtain ⟨c, hc, hbuilt, hlock⟩ := hreg
  simp only [Manager.step, withCreation, hc, Option.map_some, Option.getD_some, register, hbuilt,
    hlock, and_self, if_true]
  exact ⟨_, (h.insertion B hc hlock).admission h.nodup (h.not_mem hc), rfl⟩

theorem keepsPool_step (h : m.PoolBound) (e : PoolEvent F) : KeepsPool B m e := by
  refine ⟨h.length_poolStep e, ?_⟩
  cases e with
  | relieve sid =>
    rcases poolStep_relieve (B := B) (m := m) sid with hsame | hpop
    · exact Or.inl (by rw [hsame])
    · dsimp only
      rw [hpop]
      exact eviction_popOldestIdle B m
  | manager e =>
    cases e with
    | register sid => exact admission_register h
    | serve e =>
      cases e with
      | popOldestIdle => exact eviction_popOldestIdle B m
      | _ => trivial
    | _ => trivial

/-- Every run keeps the pool within its bound, registration by registration. -/
theorem keepsPool (B : BackendApi F L) (poolSize idleTimeout maxLeaseAge : ℕ)
    (events : List (PoolEvent F)) :
    Runs.EveryStep (Manager.poolStep B) (KeepsPool B)
      { server := { poolSize }, idleTimeout, maxLeaseAge } events :=
  Runs.everyStep_of_kept (poolBound_initial poolSize idleTimeout maxLeaseAge)
    (fun _ e h => h.poolStep e) (fun _ e h => keepsPool_step h e) events

/-- The sessions that an event evicts, each with the creation that evicts it. -/
def evictions (B : BackendApi F L) (m : Manager F L) (e : PoolEvent F) :
    List (SessionId × SessionId) :=
  match e with
  | .manager (.register sid) | .relieve sid =>
    (left m.server (m.poolStep B e).server).map fun n => (sid, n)
  | _ => []

/-- A creation that succeeds has evicted at most one session from its beginning on. -/
def EvictsAtMostOne (B : BackendApi F L) (x : Manager F L × List (SessionId × SessionId))
    (e : PoolEvent F) : Prop :=
  match e with
  | .manager (.register sid) =>
    sid ∉ x.1.server.lru → sid ∈ (x.1.poolStep B e).server.lru →
      ((evictions B x.1 e ++ x.2).filter fun p => p.1 = sid).length ≤ 1
  | _ => True

section Example

def finishCreation (sid : SessionId) : List (ManagerEvent F) :=
  [.callGateway sid, .threadReturns sid, .wrap sid, .build sid, .register sid]

/-- Three creations pass `_ensure_gateway` before two of them register their sessions, which are
released. -/
def releasedEvents : List (ManagerEvent BackendFn) :=
  [.createSession 0 (some "a") "k", .ensureGateway (some 0), .startGateway true,
    .createSession 1 (some "b") "k", .ensureGateway (some 1), .purge, .dropGateway,
    .startGateway true, .createSession 2 (some "c") "k", .ensureGateway (some 2), .purge,
    .dropGateway, .startGateway true] ++ finishCreation 0 ++ finishCreation 1 ++
  [.serve (.releaseSession 0 "a"), .serve .continueLeaseEnd, .serve (.releaseSession 1 "b"),
    .serve .continueLeaseEnd]

def closeEvents (sid : SessionId) : List (PoolEvent BackendFn) :=
  [.manager (.beginClose sid), .manager (.putExit sid), .manager (.serve (.stop sid))]

/-- The memory is short when the third creation comes to ask for it. -/
def reliefEvents : List (PoolEvent BackendFn) :=
  releasedEvents.map .manager ++ [.relieve 2] ++ closeEvents 0 ++ [.relieve 2] ++ closeEvents 1 ++
  [.manager (.callGateway 2), .manager (.threadReturns 2), .manager (.wrap 2),
    .manager (.build 2)]

set_option maxRecDepth 2000 in
theorem creation_evicts_two :
    ¬ Runs.EveryStep (Runs.logged (Manager.poolStep Server.wordBackend)
        (evictions Server.wordBackend)) (EvictsAtMostOne Server.wordBackend)
      ({ server := { poolSize := 24 }, idleTimeout := 1800, maxLeaseAge := 7200 }, [])
      (reliefEvents ++ [.manager (.register 2)]) := by
  rw [Runs.everyStep_append]
  rintro ⟨_, hregister, _⟩
  have hone := hregister (by decide) (by decide)
  exact absurd hone (by decide)

end Example

end Manager
end IsabelleGym
