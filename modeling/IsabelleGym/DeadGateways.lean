import IsabelleGym.BackendConservation
import IsabelleGym.LeaseLog
import IsabelleGym.PoolBounds

/-!
# Sessions of dead gateways

Gateways are numbered as they start, and a recovery that has come to its end
makes all of them old. Its purge empties the pool; but a creation that has its
backend from the old gateway registers the session afterwards, whether the
recovery is still closing what it purged or has ended long ago.
-/

namespace IsabelleGym
namespace Manager

variable {F L : Type} (B : BackendApi F L) (m : Manager F L)

/-- The next step of `_recover_gateway_locked` is its last. -/
def recovers : Bool :=
  match m.gatewayLock with
  | some ⟨_, .purged dead⟩ =>
    dead.all fun sid => decide (sid ∉ m.popped) && decide (sid ∉ m.closing)
  | _ => false

/-- How many gateways had been started where a recovery ends. -/
def recoveries : ManagerEvent F → List ℕ
  | .dropGateway => if m.recovers then [m.gateways] else []
  | _ => []

def recoveryStep : Manager F L × List ℕ → ManagerEvent F → Manager F L × List ℕ :=
  Runs.logged (Manager.step B) recoveries

/-- The backend of the session belongs to a gateway started after every completed recovery. -/
def SurvivesRecoveries (log : List ℕ) (sid : SessionId) : Prop :=
  ∀ b ∈ m.returned, b.session = sid → ∀ n ∈ log, n ≤ b.gateway

structure PurgesDead (B : BackendApi F L) (x : Manager F L × List ℕ) (e : ManagerEvent F) :
    Prop where
  pooled : ∀ sid ∈ (recoveryStep B x e).1.server.lru,
    (recoveryStep B x e).1.SurvivesRecoveries (recoveryStep B x e).2 sid
  acquired : ∀ lease key reuseDirty sid, e = .serve (.acquireSession lease key reuseDirty) →
    touched x.1.server (.acquireSession lease key reuseDirty : Event F) = some sid →
    x.1.SurvivesRecoveries x.2 sid

/-- A session that finds a place in the pool has no backend of a recovered gateway, and a recovery
ends with the pool as empty as its purge left it. -/
def RegistersLive (x : Manager F L × List ℕ) (e : ManagerEvent F) : Prop :=
  match e with
  | .register sid => x.1.Registers sid →
    (x.1.server.lru.length < x.1.server.poolSize ∨ x.1.server.oldestIdle ≠ none) →
    x.1.SurvivesRecoveries x.2 sid
  | .dropGateway => x.1.recovers = true → x.1.server.lru = []
  | _ => True

/-- Who is in the pool or in a creation has a backend, and gateways are numbered in order. -/
structure Numbered (m : Manager F L) (log : List ℕ) : Prop where
  pool : m.PoolBound
  backed : ∀ sid ∈ m.server.lru, ∃ b ∈ m.returned, b.session = sid
  creating : ∀ sid c, m.creations sid = some c → c.stage.holdsBackend = true →
    ∃ b ∈ m.returned, b.session = sid
  started : ∀ b ∈ m.returned, b.gateway < m.gateways
  current : ∀ gw, m.gateway = some gw → gw.number < m.gateways
  live : ∀ sid ∈ m.server.lru, m.SurvivesRecoveries log sid

theorem numbered_initial (poolSize idleTimeout maxLeaseAge : ℕ) :
    Numbered ({ server := { poolSize }, idleTimeout, maxLeaseAge } : Manager F L) [] where
  pool := poolBound_initial poolSize idleTimeout maxLeaseAge
  backed := by simp
  creating := by simp
  started := by simp
  current := by simp
  live := by simp

variable {B m} {log : List ℕ}

section Gateways

theorem gateway_finishEnsure (creation : Option SessionId) (ok : Bool) :
    (m.finishEnsure creation ok).gateway = m.gateway ∧
      (m.finishEnsure creation ok).gateways = m.gateways ∧
      (m.finishEnsure creation ok).returned = m.returned := by
  cases creation with
  | none => exact ⟨rfl, rfl, rfl⟩
  | some sid =>
    refine withCreation_of (P := fun m' => m'.gateway = m.gateway ∧ m'.gateways = m.gateways ∧
      m'.returned = m.returned) ⟨rfl, rfl, rfl⟩ fun c _ => ?_
    (repeat' split) <;> exact ⟨rfl, rfl, rfl⟩

inductive GatewayMove (m : Manager F L) : Option Gateway → ℕ → List RawBackend → Prop
  | same : GatewayMove m m.gateway m.gateways m.returned
  | down : GatewayMove m none m.gateways m.returned
  | start : GatewayMove m (some { number := m.gateways }) (m.gateways + 1) m.returned
  | ails {f : Gateway → Gateway} : (∀ gw, (f gw).number = gw.number) →
    GatewayMove m (m.gateway.map f) m.gateways m.returned
  | returns {gw : Gateway} {sid : SessionId} {c : Creation} : m.gateway = some gw →
    m.creations sid = some c →
    GatewayMove m m.gateway m.gateways (m.returned ++ [⟨sid, gw.number⟩])

theorem gateway_step (B : BackendApi F L) (m : Manager F L) (e : ManagerEvent F) :
    GatewayMove m (m.step B e).gateway (m.step B e).gateways (m.step B e).returned := by
  have hsame : GatewayMove m m.gateway m.gateways m.returned := .same
  have hcreation : ∀ {sid : SessionId} {f : Creation → Manager F L},
      (∀ c, m.creations sid = some c → GatewayMove m (f c).gateway (f c).gateways (f c).returned) →
      GatewayMove m (m.withCreation sid f).gateway (m.withCreation sid f).gateways
        (m.withCreation sid f).returned :=
    fun hf => withCreation_of (P := fun m' => GatewayMove m m'.gateway m'.gateways m'.returned)
      hsame hf
  cases e with
  | threadReturns sid =>
    refine hcreation fun c hc => ?_
    unfold threadReturns
    split
    case h_1 gw _ hgw =>
      split_ifs
      · split
        · exact .returns hgw hc
        · exact .returns hgw hc
        · exact hsame
      · exact hsame
    case h_2 => exact hsame
  | refuse sid | callGateway sid | giveUp sid | threadFails sid | wrap sid | wrapFails sid
  | build sid | buildFails sid | register sid =>
    refine hcreation fun c _ => ?_
    simp only [refuse, callGateway, giveUp, threadFails, wrap, wrapFails, build, buildFails,
      register]
    (repeat' split) <;> exact hsame
  | ensureGateway creation =>
    simp only [step, ensureGateway]
    (repeat' split) <;> first | exact hsame | simp only [gateway_finishEnsure, hsame]
  | startGateway ok =>
    simp only [step, startGateway]
    (repeat' split) <;> simp only [gateway_finishEnsure, hsame, GatewayMove.start]
  | updateActivity i =>
    simp only [step]
    cases m.server.calls[i]? with
    | none => exact hsame
    | some c =>
      simp only [Option.map_some, Option.getD_some, updateActivity]
      split <;> exact hsame
  | tick => exact hsame
  | gatewayTerminates | gatewayHangs => exact .ails fun _ => rfl
  | dropGateway | endGateway =>
    simp only [step, dropGateway, endGateway]
    (repeat' split) <;> first | exact hsame | exact .down
  | serve | createSession | purge | wake | select | reap | beginClose | putExit | shutdown =>
    simp only [step, createSession, purge, wake, select, reap, beginClose, putExit, shutdown]
    (repeat' split) <;> exact hsame

theorem returned_mono (B : BackendApi F L) (e : ManagerEvent F) {b : RawBackend}
    (hb : b ∈ m.returned) : b ∈ (m.step B e).returned := by
  have hmove := gateway_step B m e
  generalize (m.step B e).gateway = gateway', (m.step B e).gateways = gateways',
    (m.step B e).returned = returned' at hmove ⊢
  cases hmove with
  | returns _ _ => exact List.mem_append_left _ hb
  | _ => exact hb

/-- A new backend is one for a creation under way, of the gateway at hand. -/
theorem returned_of_step (B : BackendApi F L) (e : ManagerEvent F) {b : RawBackend}
    (hb : b ∈ (m.step B e).returned) :
    b ∈ m.returned ∨ ∃ gw c, m.gateway = some gw ∧ m.creations b.session = some c ∧
      b.gateway = gw.number ∧ (m.step B e).gateways = m.gateways := by
  have hmove := gateway_step B m e
  generalize (m.step B e).gateway = gateway', (m.step B e).gateways = gateways',
    (m.step B e).returned = returned' at hmove hb ⊢
  cases hmove with
  | @returns gw sid c hgw hc =>
    rcases List.mem_append.mp hb with hold | hnew
    · exact Or.inl hold
    · rw [List.mem_singleton.mp hnew]
      exact Or.inr ⟨gw, c, hgw, hc, rfl, rfl⟩
  | _ => exact Or.inl hb

theorem gateways_le_step (B : BackendApi F L) (e : ManagerEvent F) :
    m.gateways ≤ (m.step B e).gateways := by
  have hmove := gateway_step B m e
  generalize (m.step B e).gateway = gateway', (m.step B e).gateways = gateways',
    (m.step B e).returned = returned' at hmove ⊢
  cases hmove with
  | start => exact Nat.le_succ _
  | _ => exact le_rfl

theorem gateway_lt_step (B : BackendApi F L) (e : ManagerEvent F)
    (h : ∀ gw, m.gateway = some gw → gw.number < m.gateways) (gw : Gateway)
    (hgw : (m.step B e).gateway = some gw) : gw.number < (m.step B e).gateways := by
  have hmove := gateway_step B m e
  generalize (m.step B e).gateway = gateway', (m.step B e).gateways = gateways',
    (m.step B e).returned = returned' at hmove hgw ⊢
  cases hmove with
  | same | returns => exact h gw hgw
  | down => cases hgw
  | start =>
    cases hgw
    exact Nat.lt_succ_self _
  | ails hf =>
    obtain ⟨old, hold, rfl⟩ := Option.map_eq_some_iff.mp hgw
    rw [hf]
    exact h old hold

end Gateways

section Backends

/-- A creation comes to have a backend where its thread returns one. -/
def Backs (m m' : Manager F L) : Prop :=
  ∀ sid c', m'.creations sid = some c' → c'.stage.holdsBackend = true →
    (∃ c, m.creations sid = some c ∧ c.stage.holdsBackend = true) ∨
      ∃ b ∈ m'.returned, b.session = sid

theorem backs_of_creations {m' : Manager F L} (h : m'.creations = m.creations) : Backs m m' :=
  fun sid c' hc' hholds => Or.inl ⟨c', by rwa [← h], hholds⟩

theorem backs_setStage {m' : Manager F L} {sid : SessionId} {c : Creation} {stage : CreationStage}
    (hm' : m'.creations = (m.setStage sid c stage).creations) (hc : m.creations sid = some c)
    (hstage : stage.holdsBackend = true → c.stage.holdsBackend = true) : Backs m m' := by
  intro n c' hc' hholds
  rw [hm'] at hc'
  by_cases hn : n = sid
  · subst hn
    obtain rfl : { c with stage } = c' := by simpa [setStage] using hc'
    exact Or.inl ⟨c, hc, hstage hholds⟩
  · exact Or.inl ⟨c', by simpa [setStage, Function.update_of_ne hn] using hc', hholds⟩

theorem backs_endCreation {m' : Manager F L} {sid : SessionId}
    (hm' : m'.creations = (m.endCreation sid).creations) : Backs m m' := by
  intro n c' hc' hholds
  rw [hm'] at hc'
  by_cases hn : n = sid
  · subst hn
    simp [endCreation] at hc'
  · exact Or.inl ⟨c', by simpa [endCreation, Function.update_of_ne hn] using hc', hholds⟩

theorem backs_arrived {m' : Manager F L} {sid : SessionId} {c : Creation} {number : ℕ}
    (hm' : m'.creations = (m.setStage sid c .arrived).creations)
    (hreturned : m'.returned = m.returned ++ [⟨sid, number⟩]) : Backs m m' := by
  intro n c' hc' hholds
  rw [hm'] at hc'
  by_cases hn : n = sid
  · exact Or.inr ⟨⟨sid, number⟩, by simp [hreturned], hn.symm⟩
  · exact Or.inl ⟨c', by simpa [setStage, Function.update_of_ne hn] using hc', hholds⟩

theorem backs_finishEnsure (creation : Option SessionId) (ok : Bool) :
    Backs m (m.finishEnsure creation ok) := by
  cases creation with
  | none => exact backs_of_creations rfl
  | some sid =>
    refine withCreation_of (P := fun m' => Backs m m') (backs_of_creations rfl) fun c hc => ?_
    (repeat' split)
    · exact backs_setStage rfl hc (by simp [CreationStage.holdsBackend])
    · exact backs_endCreation rfl
    · exact backs_of_creations rfl

theorem backs_step (B : BackendApi F L) (m : Manager F L) (e : ManagerEvent F) :
    Backs m (m.step B e) := by
  have hsame : Backs m m := backs_of_creations rfl
  have hcreation : ∀ {sid : SessionId} {f : Creation → Manager F L},
      (∀ c, m.creations sid = some c → Backs m (f c)) → Backs m (m.withCreation sid f) :=
    fun hf => withCreation_of (P := fun m' => Backs m m') hsame hf
  cases e with
  | createSession sid lease key =>
    simp only [step, createSession]
    split_ifs with hused
    · exact hsame
    · intro n c' hc' hholds
      by_cases hn : n = sid
      · subst hn
        obtain rfl : (⟨lease, key, .ensuring⟩ : Creation) = c' := by simpa [setStage] using hc'
        cases hholds
      · exact Or.inl ⟨c', by simpa [setStage, Function.update_of_ne hn] using hc', hholds⟩
  | threadReturns sid =>
    refine hcreation fun c hc => ?_
    unfold threadReturns
    (repeat' split) <;>
      first | exact hsame | exact backs_arrived rfl rfl | exact backs_endCreation rfl
  | refuse sid | callGateway sid | giveUp sid | threadFails sid | wrap sid | wrapFails sid
  | build sid | buildFails sid | register sid =>
    refine hcreation fun c hc => ?_
    simp only [refuse, callGateway, giveUp, threadFails, wrap, wrapFails, build, buildFails,
      register]
    (repeat' split) <;>
      first
        | exact hsame
        | exact backs_endCreation rfl
        | exact backs_setStage rfl hc (by simp [CreationStage.holdsBackend, *])
  | ensureGateway creation =>
    simp only [step, ensureGateway]
    (repeat' split) <;> first | exact hsame | exact backs_finishEnsure creation _
  | startGateway ok =>
    simp only [step, startGateway]
    (repeat' split) <;> first | exact hsame | exact backs_finishEnsure _ _
  | updateActivity i =>
    simp only [step]
    cases m.server.calls[i]? with
    | none => exact hsame
    | some c =>
      simp only [Option.map_some, Option.getD_some, updateActivity]
      split <;> exact backs_of_creations rfl
  | tick | gatewayTerminates | gatewayHangs => exact backs_of_creations rfl
  | serve | purge | dropGateway | wake | select | reap | beginClose | putExit | shutdown
  | endGateway =>
    simp only [step, purge, dropGateway, wake, select, reap, beginClose, putExit, shutdown,
      endGateway]
    (repeat' split) <;> exact backs_of_creations rfl

end Backends

/-- Who is in the pool behind an event was there before, or has registered. -/
theorem PoolBound.mem_of_step (h : m.PoolBound) (B : BackendApi F L) {e : ManagerEvent F}
    {sid : SessionId} (hin : sid ∈ (m.step B e).server.lru) :
    sid ∈ m.server.lru ∨ ∃ c, e = .register sid ∧ m.creations sid = some c ∧ c.stage = .built ∧
      m.server.leaseEnd = none ∧
      (m.server.lru.length < m.server.poolSize ∨ m.server.oldestIdle ≠ none) := by
  have hmove := server_step B m e
  generalize (m.step B e).server = s' at hmove hin
  cases hmove with
  | same => exact Or.inl hin
  | serve hallows => exact Or.inl ((h.lruStep B (allows_spec hallows).1).subset hin)
  | @register n c hc hbuilt hlock =>
    have hins := h.insertion B hc hlock
    rcases hins.mem hin with hold | rfl
    · exact Or.inl hold
    · refine Or.inr ⟨c, rfl, hc, hbuilt, hlock, ?_⟩
      generalize (m.server.step B (.createSession sid c.lease c.key)).lru = lru at hins hin
      cases hins with
      | room hroom => exact Or.inl hroom
      | evict _ hidle => exact Or.inr (by simp [hidle])
      | full _ _ => exact absurd hin (h.not_mem hc)
  | purge _ _ | shutdown _ => cases hin
  | reap _ _ => exact Or.inl ((h.lruStep B (by simp)).subset hin)
  | beginClose _ => exact Or.inl ((h.lruStep B (by simp)).subset hin)

/-- A registration that finds a place in the pool takes it. -/
theorem PoolBound.mem_of_registers (h : m.PoolBound) (B : BackendApi F L) {sid : SessionId}
    (hreg : m.Registers sid)
    (hplace : m.server.lru.length < m.server.poolSize ∨ m.server.oldestIdle ≠ none) :
    sid ∈ (m.step B (.register sid)).server.lru := by
  obtain ⟨closed, hadmission, _⟩ := admission_register (B := B) h hreg
  generalize (m.step B (.register sid)).server.lru = lru at hadmission ⊢
  cases hadmission with
  | room _ | evict _ _ => exact List.mem_append_right _ (List.mem_singleton_self sid)
  | refuse hfull hbusy =>
    rcases hplace with hroom | hidle
    · omega
    · obtain ⟨oldest, hoption⟩ := Option.ne_none_iff_exists'.mp hidle
      have hfree := Server.not_busy_of_oldestIdle hoption
      rw [hbusy oldest (Server.mem_of_oldestIdle hoption)] at hfree
      cases hfree

/-- A session in the pool gets no further backend. -/
theorem survives_step (B : BackendApi F L) {e : ManagerEvent F} {sid : SessionId}
    (hnew : ∀ c, m.creations sid = some c → (m.step B e).returned = m.returned)
    (hlive : m.SurvivesRecoveries log sid) : (m.step B e).SurvivesRecoveries log sid := by
  intro b hb hsid n hn
  rcases returned_of_step B e hb with hold | ⟨gw, c, _, hc, _, _⟩
  · exact hlive b hold hsid n hn
  · rw [hsid] at hc
    rw [hnew c hc] at hb
    exact hlive b hb hsid n hn

section Step

variable (h : m.Numbered log) (B)
include h

theorem Numbered.backed_step {e : ManagerEvent F} {sid : SessionId}
    (hin : sid ∈ (m.step B e).server.lru) : ∃ b ∈ (m.step B e).returned, b.session = sid := by
  have hmono : (∃ b ∈ m.returned, b.session = sid) →
      ∃ b ∈ (m.step B e).returned, b.session = sid :=
    fun ⟨b, hb, hsid⟩ => ⟨b, returned_mono B e hb, hsid⟩
  rcases h.pool.mem_of_step B hin with hold | ⟨c, _, hc, hbuilt, _⟩
  · exact hmono (h.backed sid hold)
  · exact hmono (h.creating sid c hc (by rw [hbuilt]; rfl))

theorem Numbered.creating_step {e : ManagerEvent F} {sid : SessionId} {c' : Creation}
    (hc' : (m.step B e).creations sid = some c') (hholds : c'.stage.holdsBackend = true) :
    ∃ b ∈ (m.step B e).returned, b.session = sid := by
  rcases backs_step B m e sid c' hc' hholds with ⟨c, hc, hold⟩ | hnew
  · obtain ⟨b, hb, hsid⟩ := h.creating sid c hc hold
    exact ⟨b, returned_mono B e hb, hsid⟩
  · exact hnew

theorem Numbered.started_step {e : ManagerEvent F} {b : RawBackend}
    (hb : b ∈ (m.step B e).returned) : b.gateway < (m.step B e).gateways := by
  rcases returned_of_step B e hb with hold | ⟨gw, _, hgw, _, hnumber, hsame⟩
  · exact (h.started b hold).trans_le (gateways_le_step B e)
  · rw [hnumber, hsame]
    exact h.current gw hgw

/-- The sessions in the pool are live behind a step that registers none of a dead gateway. -/
theorem Numbered.live_step {e : ManagerEvent F} (hcond : RegistersLive (m, log) e)
    {sid : SessionId} (hin : sid ∈ (m.step B e).server.lru) :
    (m.step B e).SurvivesRecoveries (m.recoveries e ++ log) sid := by
  have hkept : (m.step B e).SurvivesRecoveries log sid := by
    rcases h.pool.mem_of_step B hin with hold | ⟨c, rfl, hc, hbuilt, hlock, hplace⟩
    · refine survives_step B (fun c hc => ?_) (h.live sid hold)
      exact absurd hold (h.pool.not_mem hc)
    · refine survives_step B (fun _ _ => ?_) (hcond ⟨c, hc, hbuilt, hlock⟩ hplace)
      exact returned_step B (by simp)
  cases e with
  | dropGateway =>
    unfold recoveries
    split_ifs with hends
    · have hempty := hcond hends
      rcases h.pool.mem_of_step B hin with hold | ⟨_, hregister, _⟩
      · rw [hempty] at hold
        cases hold
      · cases hregister
    · exact hkept
  | _ => exact hkept

theorem Numbered.step {e : ManagerEvent F} (hcond : RegistersLive (m, log) e) :
    (m.step B e).Numbered (m.recoveries e ++ log) where
  pool := h.pool.step B e
  backed _ hin := h.backed_step B hin
  creating _ _ hc' hholds := h.creating_step B hc' hholds
  started _ hb := h.started_step B hb
  current := gateway_lt_step B e h.current
  live _ hin := h.live_step B hcond hin

theorem Numbered.purgesDead {e : ManagerEvent F} (hcond : RegistersLive (m, log) e) :
    PurgesDead B (m, log) e where
  pooled _ hin := h.live_step B hcond hin
  acquired lease key reuseDirty sid _ hfind := by
    refine h.live sid ?_
    simp only [touched] at hfind
    split_ifs at hfind
    exact (Server.exists_of_findReusable hfind).1

theorem Numbered.registersLive {e : ManagerEvent F} (hpurges : PurgesDead B (m, log) e) :
    RegistersLive (m, log) e := by
  cases e with
  | register sid =>
    intro hreg hplace b hb hsid n hn
    have hin := h.pool.mem_of_registers B hreg hplace
    exact hpurges.pooled sid hin b (returned_mono B _ hb) hsid n hn
  | dropGateway =>
    intro hends
    apply List.eq_nil_iff_forall_not_mem.mpr
    intro sid hin
    have hsame : (m.step B .dropGateway).server = m.server := by
      simp only [Manager.step, dropGateway]
      (repeat' split) <;> rfl
    obtain ⟨b, hb, hsid⟩ := h.backed sid hin
    -- every backend so far is of a gateway that the recovery has made old
    have hold : m.gateways ≤ b.gateway := by
      refine hpurges.pooled sid ?_ b (returned_mono B _ hb) hsid m.gateways ?_
      · change sid ∈ (m.step B .dropGateway).server.lru
        rwa [hsame]
      · change m.gateways ∈ m.recoveries .dropGateway ++ log
        simp [recoveries, hends]
    have hstarted := h.started b hb
    omega
  | _ => trivial

end Step

/-- A run keeps the sessions of recovered gateways out of the pool exactly when none of them
registers and every recovery ends with an empty pool. -/
theorem purgesDead_iff (B : BackendApi F L) (poolSize idleTimeout maxLeaseAge : ℕ)
    (events : List (ManagerEvent F)) :
    Runs.EveryStep (recoveryStep B) (PurgesDead B)
        ({ server := { poolSize }, idleTimeout, maxLeaseAge }, []) events ↔
      Runs.EveryStep (recoveryStep B) RegistersLive
        ({ server := { poolSize }, idleTimeout, maxLeaseAge }, []) events :=
  Runs.everyStep_iff_of_invariant (fun _ _ (h : Numbered _ _) hcond => h.step B hcond)
    (fun _ _ h => ⟨h.registersLive B, h.purgesDead B⟩)
    (numbered_initial poolSize idleTimeout maxLeaseAge)

section Example

/-- The recovery by a second creation runs between the return of the first one's backend and its
registration. -/
def lateRegistrationEvents : List (ManagerEvent BackendFn) :=
  [.createSession 0 (some "a") "k", .ensureGateway (some 0), .startGateway true, .callGateway 0,
    .threadReturns 0, .createSession 1 (some "b") "k", .ensureGateway (some 1), .purge,
    .dropGateway, .startGateway true, .wrap 0, .build 0]

theorem late_registration_is_dead :
    ¬ Runs.EveryStep (recoveryStep Server.wordBackend) (PurgesDead Server.wordBackend)
      ({ server := { poolSize := 24 }, idleTimeout := 1800, maxLeaseAge := 7200 }, [])
      (lateRegistrationEvents ++ [.register 0]) := by
  rw [Runs.everyStep_append]
  rintro ⟨_, hregister, _⟩
  have hle := hregister.pooled 0 (by decide) ⟨0, 0⟩ (List.mem_singleton_self _) rfl 1 (by decide)
  exact absurd hle (by decide)

end Example

end Manager
end IsabelleGym
