import IsabelleGym.GatewayPool
import IsabelleGym.LeaseInvariant
import IsabelleGym.PoolChanges

/-!
# The moves of the session manager

What an event does to the server and to the creations under way. The pool keeps
its bound: the sessions it lists are known, listed once, and at most `pool_size`
many in every reachable state.
-/

namespace IsabelleGym

/-- The creation has a raw backend that nobody else has. -/
def CreationStage.holdsBackend : CreationStage → Bool
  | .arrived | .wrapped | .built => true
  | _ => false

namespace Manager

variable {F L : Type} {B : BackendApi F L} {m : Manager F L}

theorem withCreation_of {sid : SessionId} {f : Creation → Manager F L}
    {P : Manager F L → Prop} (h : P m) (h' : ∀ c, m.creations sid = some c → P (f c)) :
    P (m.withCreation sid f) := by
  unfold withCreation
  cases hc : m.creations sid with
  | none => exact h
  | some c => exact h' c hc

inductive ServerMove (B : BackendApi F L) (m : Manager F L) :
    ManagerEvent F → Server F L → Prop
  | same {e : ManagerEvent F} : ServerMove B m e m.server
  | serve {e : Event F} : m.allows e = true → ServerMove B m (.serve e) (m.server.step B e)
  | register {sid : SessionId} {c : Creation} : m.creations sid = some c → c.stage = .built →
    m.server.leaseEnd = none →
    ServerMove B m (.register sid) (m.server.step B (.createSession sid c.lease c.key))
  | purge {creation : Option SessionId} : m.gatewayLock = some ⟨creation, .recovering⟩ →
    m.server.leaseEnd = none → ServerMove B m .purge { m.server with lru := [] }
  | shutdown : m.server.leaseEnd = none →
    ServerMove B m .shutdown { m.server with lru := [] }
  | reap {sid : SessionId} {rest : List SessionId} : m.sweep = .closing (sid :: rest) →
    m.server.leaseEnd = none →
    ServerMove B m .reap (m.server.step B (.closeSession sid none))
  | beginClose {sid : SessionId} : sid ∈ m.popped →
    ServerMove B m (.beginClose sid) (m.server.step B (.shutdown sid))

theorem server_finishEnsure (creation : Option SessionId) (ok : Bool) :
    (m.finishEnsure creation ok).server = m.server := by
  cases creation with
  | none => rfl
  | some sid =>
    refine withCreation_of (P := fun m' => m'.server = m.server) rfl fun c _ => ?_
    (repeat' split) <;> rfl

theorem server_step (B : BackendApi F L) (m : Manager F L) (e : ManagerEvent F) :
    ServerMove B m e (m.step B e).server := by
  have hcreation : ∀ {sid : SessionId} {f : Creation → Manager F L},
      (∀ c, m.creations sid = some c → ServerMove B m e (f c).server) →
        ServerMove B m e (m.withCreation sid f).server :=
    fun hf => withCreation_of (P := fun m' => ServerMove B m e m'.server) .same hf
  cases e with
  | serve e =>
    simp only [step]
    split_ifs with hallows
    · exact .serve hallows
    · exact .same
  | updateActivity i =>
    simp only [step]
    cases m.server.calls[i]? with
    | none => exact .same
    | some c =>
      simp only [Option.map_some, Option.getD_some, updateActivity]
      split <;> exact .same
  | tick | gatewayTerminates | gatewayHangs => exact .same
  | createSession sid lease key =>
    simp only [step, createSession]
    split <;> exact .same
  | refuse sid | callGateway sid | giveUp sid | threadFails sid | wrap sid | wrapFails sid
  | build sid | buildFails sid | threadReturns sid =>
    refine hcreation fun c _ => ?_
    simp only [refuse, callGateway, giveUp, threadFails, wrap, wrapFails, build, buildFails,
      threadReturns]
    (repeat' split) <;> exact .same
  | register sid =>
    refine hcreation fun c hc => ?_
    unfold register
    by_cases hready : c.stage = .built ∧ m.server.leaseEnd = none
    · rw [if_pos hready]
      exact .register hc hready.1 hready.2
    · rw [if_neg hready]
      exact .same
  | ensureGateway creation =>
    simp only [step, ensureGateway]
    split_ifs
    · exact .same
    · split
      · split_ifs
        · rw [server_finishEnsure]
          exact .same
        · exact .same
      · exact .same
  | purge =>
    simp only [step, purge]
    split
    case h_1 creation hlock =>
      split_ifs with hend
      · exact .same
      · exact .purge hlock (by simpa using hend)
    case h_2 => exact .same
  | dropGateway | wake | select | putExit | endGateway =>
    simp only [step, dropGateway, wake, select, putExit, endGateway]
    (repeat' split) <;> exact .same
  | startGateway ok =>
    simp only [step, startGateway]
    split
    · split_ifs
      · rw [server_finishEnsure]
        exact .same
      · rw [server_finishEnsure]
        exact .same
    · exact .same
  | reap =>
    simp only [step, reap]
    split
    case h_1 sid rest hsweep =>
      split_ifs with hend
      · exact .same
      · exact .reap hsweep (by simpa using hend)
    all_goals exact .same
  | beginClose sid =>
    simp only [step, beginClose]
    split_ifs with hpopped _
    · exact .same
    · exact .beginClose hpopped
    · exact .same
  | shutdown =>
    simp only [step, shutdown]
    split_ifs with hend
    · exact .same
    · exact .shutdown (by simpa using hend)

/-- A creation goes on with its lease, its key and its backend, or it is one of a new session. -/
def Continues (m : Manager F L) (e : ManagerEvent F) (creations : SessionId → Option Creation) :
    Prop :=
  ∀ sid c', creations sid = some c' →
    (∃ c, m.creations sid = some c ∧ c'.lease = c.lease ∧ c'.key = c.key ∧
      (c.stage.holdsBackend = true → c'.stage.holdsBackend = true)) ∨
      e = .createSession sid c'.lease c'.key ∧ m.creations sid = none ∧
        m.server.sessions sid = none ∧ sid ∉ m.returned.map RawBackend.session

theorem continues_same (e : ManagerEvent F) : Continues m e m.creations :=
  fun _ c' hc' => Or.inl ⟨c', hc', rfl, rfl, id⟩

theorem continues_setStage (e : ManagerEvent F) {sid : SessionId} {c : Creation}
    (hc : m.creations sid = some c) {stage : CreationStage}
    (hstage : c.stage.holdsBackend = true → stage.holdsBackend = true) :
    Continues m e (m.setStage sid c stage).creations := by
  intro n c' hc'
  by_cases hn : n = sid
  · subst hn
    obtain rfl : { c with stage } = c' := by simpa [setStage] using hc'
    exact Or.inl ⟨c, hc, rfl, rfl, hstage⟩
  · exact Or.inl ⟨c', by simpa [setStage, Function.update_of_ne hn] using hc', rfl, rfl, id⟩

theorem continues_endCreation (e : ManagerEvent F) (sid : SessionId) :
    Continues m e (m.endCreation sid).creations := by
  intro n c' hc'
  by_cases hn : n = sid
  · subst hn
    simp [endCreation] at hc'
  · exact Or.inl ⟨c', by simpa [endCreation, Function.update_of_ne hn] using hc', rfl, rfl, id⟩

theorem continues_finishEnsure (e : ManagerEvent F) (creation : Option SessionId) (ok : Bool) :
    Continues m e (m.finishEnsure creation ok).creations := by
  cases creation with
  | none => exact continues_same e
  | some sid =>
    refine withCreation_of (P := fun m' => Continues m e m'.creations) (continues_same e)
      fun c hc => ?_
    dsimp only at hc
    split_ifs with hstage
    · exact continues_setStage e hc (by simp [hstage, CreationStage.holdsBackend])
    · exact continues_endCreation e sid
    · exact continues_same e

theorem continues_step (B : BackendApi F L) (m : Manager F L) (e : ManagerEvent F) :
    Continues m e (m.step B e).creations := by
  have hsame : Continues m e m.creations := continues_same e
  have hcreation : ∀ {sid : SessionId} {f : Creation → Manager F L},
      (∀ c, m.creations sid = some c → Continues m e (f c).creations) →
        Continues m e (m.withCreation sid f).creations :=
    fun hf => withCreation_of (P := fun m' => Continues m e m'.creations) hsame hf
  cases e with
  | createSession sid lease key =>
    simp only [step, createSession]
    split_ifs with hused
    · exact hsame
    · intro n c' hc'
      by_cases hn : n = sid
      · subst hn
        obtain rfl : (⟨lease, key, .ensuring⟩ : Creation) = c' := by simpa [setStage] using hc'
        refine Or.inr ⟨rfl, ?_⟩
        simpa [and_assoc] using hused
      · exact Or.inl ⟨c', by simpa [setStage, Function.update_of_ne hn] using hc', rfl, rfl, id⟩
  | refuse sid | callGateway sid | giveUp sid | threadFails sid | wrap sid | wrapFails sid
  | build sid | buildFails sid | threadReturns sid | register sid =>
    refine hcreation fun c hc => ?_
    simp only [refuse, callGateway, giveUp, threadFails, wrap, wrapFails, build, buildFails,
      threadReturns, register]
    (repeat' split) <;>
      first
        | exact hsame
        | exact continues_endCreation _ sid
        | exact continues_setStage _ hc (by simp [CreationStage.holdsBackend, *])
  | ensureGateway creation =>
    simp only [step, ensureGateway]
    (repeat' split) <;> first | exact hsame | exact continues_finishEnsure _ creation _
  | startGateway ok =>
    simp only [step, startGateway]
    (repeat' split) <;> first | exact hsame | exact continues_finishEnsure _ _ _
  | updateActivity i =>
    simp only [step]
    cases m.server.calls[i]? with
    | none => exact hsame
    | some c =>
      simp only [Option.map_some, Option.getD_some, updateActivity]
      split <;> exact hsame
  | serve | tick | gatewayTerminates | gatewayHangs | purge | dropGateway | wake | select | reap
  | beginClose | putExit | shutdown | endGateway =>
    simp only [step, purge, dropGateway, wake, select, reap, beginClose, putExit, shutdown,
      endGateway]
    (repeat' split) <;> exact hsame

/-- A step that registers a session ends its creation. -/
theorem creations_register {sid : SessionId} {c : Creation} (hc : m.creations sid = some c)
    (hbuilt : c.stage = .built) (hlock : m.server.leaseEnd = none) :
    (m.step B (.register sid)).creations sid = none := by
  simp [step, withCreation, hc, register, hbuilt, hlock, endCreation]

/-- The pool lists at most `pool_size` sessions, each once, and none that is being created. -/
structure PoolBound (m : Manager F L) : Prop where
  nodup : m.server.lru.Nodup
  bound : m.server.lru.length ≤ m.server.poolSize
  known : ∀ sid ∈ m.server.lru, m.server.sessions sid ≠ none
  pool : m.server.PoolInv
  creating : ∀ sid c, m.creations sid = some c → m.server.sessions sid = none

theorem poolBound_initial (poolSize idleTimeout maxLeaseAge : ℕ) :
    PoolBound ({ server := { poolSize }, idleTimeout, maxLeaseAge } : Manager F L) where
  nodup := List.nodup_nil
  bound := Nat.zero_le _
  known := by simp
  pool := Server.poolInv_initial poolSize
  creating := by simp

theorem allows_spec {e : Event F} (h : m.allows e = true) :
    (∀ sid lease key, e ≠ .createSession sid lease key) ∧ (∀ sid, e ≠ .shutdown sid) ∧
      ∀ sid, e = .stop sid → sid ∈ m.exits := by
  cases e with
  | createSession | shutdown => simp [allows] at h
  | stop sid =>
    refine ⟨by simp, by simp, fun n hn => ?_⟩
    cases hn
    simpa [allows] using h
  | _ => simp

section Step

variable (h : m.PoolBound) (B)
include h

theorem PoolBound.lruStep {e : Event F}
    (he : ∀ sid lease key, e ≠ .createSession sid lease key) :
    Server.LruStep m.server e (m.server.step B e).lru :=
  Server.lru_step B h.pool.ending he

theorem PoolBound.not_mem {sid : SessionId} {c : Creation} (hc : m.creations sid = some c) :
    sid ∉ m.server.lru :=
  fun hin => h.known sid hin (h.creating sid c hc)

theorem PoolBound.insertion {sid : SessionId} {c : Creation} (hc : m.creations sid = some c)
    (hlock : m.server.leaseEnd = none) :
    Server.Insertion m.server sid (m.server.step B (.createSession sid c.lease c.key)).lru :=
  Server.lru_createSession h.bound hlock (h.creating sid c hc) (h.not_mem hc) c.lease c.key

theorem PoolBound.nodup_move {e : ManagerEvent F} {s' : Server F L}
    (hmove : ServerMove B m e s') : s'.lru.Nodup := by
  cases hmove with
  | same => exact h.nodup
  | serve hallows => exact (h.lruStep B (allows_spec hallows).1).nodup h.nodup
  | register hc _ hlock => exact (h.insertion B hc hlock).nodup h.nodup (h.not_mem hc)
  | purge _ _ => exact List.nodup_nil
  | shutdown _ => exact List.nodup_nil
  | reap _ _ => exact (h.lruStep B (by simp)).nodup h.nodup
  | beginClose _ => exact (h.lruStep B (by simp)).nodup h.nodup

theorem PoolBound.bound_move {e : ManagerEvent F} {s' : Server F L}
    (hmove : ServerMove B m e s') : s'.lru.length ≤ s'.poolSize := by
  have hle := h.bound
  cases hmove with
  | same => exact hle
  | @serve e hallows =>
    rw [Server.poolSize_step]
    exact (h.lruStep B (allows_spec hallows).1).length_le.trans hle
  | register hc _ hlock =>
    rw [Server.poolSize_step]
    exact (h.insertion B hc hlock).length_le
  | purge _ _ => exact Nat.zero_le _
  | shutdown _ => exact Nat.zero_le _
  | reap _ _ =>
    rw [Server.poolSize_step]
    exact (h.lruStep B (by simp)).length_le.trans hle
  | beginClose _ =>
    rw [Server.poolSize_step]
    exact (h.lruStep B (by simp)).length_le.trans hle

theorem PoolBound.known_move {e : ManagerEvent F} {s' : Server F L}
    (hmove : ServerMove B m e s') {sid : SessionId} (hin : sid ∈ s'.lru) :
    s'.sessions sid ≠ none := by
  have hstep : ∀ {e : Event F}, sid ∈ m.server.lru → (m.server.step B e).sessions sid ≠ none :=
    fun hold => Server.sessions_kept B _ (h.known sid hold)
  cases hmove with
  | same => exact h.known sid hin
  | serve hallows => exact hstep ((h.lruStep B (allows_spec hallows).1).subset hin)
  | register hc _ hlock =>
    rcases (h.insertion B hc hlock).mem hin with hold | rfl
    · exact hstep hold
    · simp [Server.step, Server.locked, hlock, Server.createSession, h.creating _ _ hc]
  | purge _ _ => cases hin
  | shutdown _ => cases hin
  | reap _ _ => exact hstep ((h.lruStep B (by simp)).subset hin)
  | beginClose _ => exact hstep ((h.lruStep B (by simp)).subset hin)

theorem PoolBound.pool_move {e : ManagerEvent F} {s' : Server F L}
    (hmove : ServerMove B m e s') : s'.PoolInv := by
  cases hmove with
  | same => exact h.pool
  | purge _ hlock => exact ⟨by simp, fun e he => absurd (hlock.symm.trans he) (by simp)⟩
  | shutdown hlock => exact ⟨by simp, fun e he => absurd (hlock.symm.trans he) (by simp)⟩
  | serve | register | reap | beginClose => exact h.pool.step B _

theorem PoolBound.creating_step {e : ManagerEvent F} {sid : SessionId} {c' : Creation}
    (hc' : (m.step B e).creations sid = some c') : (m.step B e).server.sessions sid = none := by
  have hnone : m.server.sessions sid = none := by
    rcases continues_step B m e sid c' hc' with ⟨c, hc, _⟩ | ⟨_, _, hnone, _⟩
    · exact h.creating sid c hc
    · exact hnone
  have hmove := server_step B m e
  generalize hs' : (m.step B e).server = s' at hmove ⊢
  cases hmove with
  | same => exact hnone
  | serve hallows =>
    exact Server.sessions_of_step B (fun lease key => (allows_spec hallows).1 sid lease key) hnone
  | @register n c hc hbuilt hlock =>
    by_cases hn : sid = n
    · subst hn
      rw [creations_register hc hbuilt hlock] at hc'
      cases hc'
    · refine Server.sessions_of_step B (fun lease key heq => ?_) hnone
      cases heq
      exact hn rfl
  | purge _ _ => exact hnone
  | shutdown _ => exact hnone
  | reap _ _ => exact Server.sessions_of_step B (by simp) hnone
  | beginClose _ => exact Server.sessions_of_step B (by simp) hnone

theorem PoolBound.step (e : ManagerEvent F) : (m.step B e).PoolBound where
  nodup := h.nodup_move B (server_step B m e)
  bound := h.bound_move B (server_step B m e)
  known _ hin := h.known_move B (server_step B m e) hin
  pool := h.pool_move B (server_step B m e)
  creating _ _ hc' := h.creating_step B hc'

end Step

end Manager
end IsabelleGym
