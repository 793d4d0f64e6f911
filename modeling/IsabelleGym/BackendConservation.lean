import IsabelleGym.Leases
import IsabelleGym.ManagerSteps
import IsabelleGym.Runs

/-!
# Conservation of raw backends

A raw backend is with its creation, in the pool, with whoever took it out of the
pool, in its close, or past its exit job. Every step but two moves it from one
place to the next: a creation that has been given up drops the backend that its
thread returns, and one whose `ThreadedBackend` does not start drops it too.
-/

namespace IsabelleGym
namespace Manager

variable {F L : Type} {B : BackendApi F L} {m : Manager F L}

def inCreation (m : Manager F L) (sid : SessionId) : Bool :=
  (m.creations sid).any fun c => c.stage.holdsBackend

/-- A creation or a close under way has the backend and goes on with it. -/
def UnderWay (m : Manager F L) (sid : SessionId) : Prop :=
  m.inCreation sid = true ∨ sid ∈ m.popped ∨ sid ∈ m.closing

/-- Owned by a session in the pool, or closed, and closed once. -/
def Settled (m : Manager F L) (sid : SessionId) : Prop :=
  ¬ m.UnderWay sid ∧
    ((sid ∈ m.server.lru ∧ sid ∉ m.exits) ∨ (sid ∉ m.server.lru ∧ m.exits.count sid = 1))

/-- The next steps of the task that has a backend: its creation up to the registration, and the
close by whoever took it out of the pool. Steps that are behind it do nothing. -/
def ownerSteps (sid : SessionId) : List (ManagerEvent F) :=
  [.wrap sid, .build sid, .register sid, .beginClose sid, .putExit sid]

/-- Every backend that the gateway returned is settled, or under way and settled by the next steps
of the task that has it; a registration waits for the manager lock. -/
def Conserved (B : BackendApi F L) (m : Manager F L) : Prop :=
  ∀ b ∈ m.returned,
    m.Settled b.session ∨
      (m.UnderWay b.session ∧ b.session ∉ m.server.lru ∧ b.session ∉ m.exits ∧
        ((m.inCreation b.session = true → m.server.leaseEnd = none) →
          ((ownerSteps b.session).foldl (Manager.step B) m).Settled b.session))

/-- No thread returns a backend to a creation that has been given up, no creation is given up
that has its backend, and the threaded backend of a returned one starts. -/
def KeepsBackend (m : Manager F L) : ManagerEvent F → Prop
  | .giveUp sid => ∀ c, m.creations sid = some c → c.stage ≠ .arrived
  | .threadReturns sid => ∀ c gw, m.creations sid = some c → m.gatewayLock = none →
    m.gateway = some gw → gw.callSucceeds "get_repl_backend_with_initial_theories" = true →
    c.stage ≠ .abandoned
  | .wrapFails sid => ∀ c, m.creations sid = some c → c.stage ≠ .arrived
  | _ => True

def places (m : Manager F L) (sid : SessionId) : ℕ :=
  (m.inCreation sid).toNat + m.server.lru.count sid + m.popped.count sid + m.closing.count sid +
    m.exits.count sid

section Places

theorem inCreation_setStage (sid : SessionId) (c : Creation) (stage : CreationStage)
    (n : SessionId) :
    (m.setStage sid c stage).inCreation n =
      if n = sid then stage.holdsBackend else m.inCreation n := by
  by_cases hn : n = sid <;> simp [inCreation, setStage, hn]

theorem inCreation_endCreation (sid n : SessionId) :
    (m.endCreation sid).inCreation n = if n = sid then false else m.inCreation n := by
  by_cases hn : n = sid <;> simp [inCreation, endCreation, hn]

theorem inCreation_of_creation {sid : SessionId} {c : Creation} (hc : m.creations sid = some c) :
    m.inCreation sid = c.stage.holdsBackend := by
  simp [inCreation, hc]

theorem places_setStage {sid : SessionId} {c : Creation} {stage : CreationStage}
    (h : m.inCreation sid = stage.holdsBackend) (n : SessionId) :
    (m.setStage sid c stage).places n = m.places n := by
  have hin : (m.setStage sid c stage).inCreation n = m.inCreation n := by
    rw [inCreation_setStage]
    split_ifs with hn
    · rw [hn, h]
    · rfl
  unfold places
  rw [hin]
  rfl

theorem places_endCreation {sid : SessionId} (h : m.inCreation sid = false) (n : SessionId) :
    (m.endCreation sid).places n = m.places n := by
  have hin : (m.endCreation sid).inCreation n = m.inCreation n := by
    rw [inCreation_endCreation]
    split_ifs with hn
    · rw [hn, h]
    · rfl
  unfold places
  rw [hin]
  rfl

/-- Backends move between the pool and the closes only. -/
theorem places_of_creations {m' : Manager F L} {n : SessionId}
    (hcreations : m'.creations = m.creations)
    (hcount : m'.server.lru.count n + m'.popped.count n + m'.closing.count n + m'.exits.count n =
      m.server.lru.count n + m.popped.count n + m.closing.count n + m.exits.count n) :
    m'.places n = m.places n := by
  have hin : m'.inCreation n = m.inCreation n := by rw [inCreation, hcreations, inCreation]
  unfold places
  rw [hin]
  omega

/-- What leaves the pool is counted among the leavers. -/
theorem count_left {s s' : Server F L} (hnodup : s.lru.Nodup) (hnodup' : s'.lru.Nodup)
    {n : SessionId} (hold : n ∈ s'.lru → n ∈ s.lru) :
    s'.lru.count n + (left s s').count n = s.lru.count n := by
  have hleft : (left s s').Nodup := hnodup.filter _
  rw [hnodup.count, hnodup'.count, hleft.count]
  by_cases hin : n ∈ s.lru <;> by_cases hin' : n ∈ s'.lru <;> simp_all [left]

theorem places_serve (h : m.PoolBound) (B : BackendApi F L) {e : Event F}
    (he : ∀ sid lease key, e ≠ .createSession sid lease key) (n : SessionId) :
    (m.serve B e).places n = m.places n := by
  have hstep := h.lruStep B he
  have hcount := count_left h.nodup (hstep.nodup h.nodup) (n := n) fun hin => hstep.subset hin
  refine places_of_creations rfl ?_
  simp only [serve, List.count_append]
  omega

theorem places_clearPool (n : SessionId) : m.clearPool.places n = m.places n := by
  refine places_of_creations rfl ?_
  simp only [clearPool, List.count_append, List.count_nil]
  omega

theorem count_singleton_eq (sid n : SessionId) : [sid].count n = if n = sid then 1 else 0 := by
  by_cases hn : n = sid
  · rw [if_pos hn, hn, List.count_singleton_self]
  · rw [if_neg hn]
    exact List.count_eq_zero.mpr (by simpa using hn)

/-- The new session is in the pool or to be closed, and an evicted one to be closed. -/
theorem count_insertion {s s' : Server F L} {sid : SessionId} (hins : s.Insertion sid s'.lru)
    (hnodup : s.lru.Nodup) (hnew : sid ∉ s.lru) (n : SessionId) :
    s'.lru.count n + (if sid ∈ s'.lru then left s s' else [sid]).count n =
      s.lru.count n + if n = sid then 1 else 0 := by
  have hnodup' := hins.nodup hnodup hnew
  by_cases hentered : sid ∈ s'.lru
  · rw [if_pos hentered]
    by_cases hn : n = sid
    · subst hn
      have hleft : n ∉ left s s' := fun hmem => hnew (List.mem_of_mem_filter hmem)
      rw [if_pos rfl, List.count_eq_one_of_mem hnodup' hentered, List.count_eq_zero.mpr hnew,
        List.count_eq_zero.mpr hleft]
    · rw [if_neg hn]
      exact count_left hnodup hnodup' fun hmem => (hins.mem hmem).resolve_right hn
  · rw [if_neg hentered, count_singleton_eq]
    have hsame : s'.lru = s.lru := by
      generalize s'.lru = lru at hins hentered
      cases hins with
      | room _ => simp at hentered
      | evict _ _ => simp at hentered
      | full _ _ => rfl
    rw [hsame]

/-- A creation that ends hands its backend on. -/
theorem places_of_endCreation {m' : Manager F L} {sid n : SessionId}
    (hcreations : m'.creations = (m.endCreation sid).creations) (hheld : m.inCreation sid = true)
    (hcount : m'.server.lru.count n + m'.popped.count n + m'.closing.count n + m'.exits.count n =
      m.server.lru.count n + m.popped.count n + m.closing.count n + m.exits.count n +
        if n = sid then 1 else 0) :
    m'.places n = m.places n := by
  have hin : m'.inCreation n = if n = sid then false else m.inCreation n := by
    rw [inCreation, hcreations]
    exact inCreation_endCreation sid n
  unfold places
  rw [hin]
  by_cases hn : n = sid
  · rw [if_pos hn] at hcount ⊢
    rw [hn] at hcount ⊢
    rw [hheld, Bool.toNat_true, Bool.toNat_false]
    omega
  · rw [if_neg hn] at hcount ⊢
    omega

/-- A registration moves the new backend to the pool, or to the closes where the pool is full. -/
theorem places_register (h : m.PoolBound) (B : BackendApi F L) {sid : SessionId} {c : Creation}
    (hc : m.creations sid = some c) (n : SessionId) :
    (m.register B sid c).places n = m.places n := by
  unfold register
  by_cases hready : c.stage = .built ∧ m.server.leaseEnd = none
  · rw [if_pos hready]
    have hcount := count_insertion (h.insertion B hc hready.2) h.nodup (h.not_mem hc) n
    generalize m.server.step B (.createSession sid c.lease c.key) = s' at hcount ⊢
    refine places_of_endCreation rfl ?_ ?_
    · rw [inCreation_of_creation hc, hready.1]
      rfl
    · change s'.lru.count n + (m.popped ++ _).count n + m.closing.count n + m.exits.count n = _
      rw [List.count_append]
      omega
  · rw [if_neg hready]

theorem places_finishEnsure (creation : Option SessionId) (ok : Bool) (n : SessionId) :
    (m.finishEnsure creation ok).places n = m.places n := by
  cases creation with
  | none => rfl
  | some sid =>
    refine withCreation_of (P := fun m' => m'.places n = m.places n) rfl fun c hc => ?_
    have hin : ({ m with gatewayLock := none } : Manager F L).inCreation sid =
        c.stage.holdsBackend := inCreation_of_creation hc
    split_ifs with hstage
    · exact places_setStage (by rw [hin, hstage]; rfl) n
    · exact places_endCreation (by rw [hin, hstage]; rfl) n
    · rfl

theorem places_createSession (sid : SessionId) (lease : Option LeaseId) (key : DependencyKey)
    (n : SessionId) : (m.createSession sid lease key).places n = m.places n := by
  unfold createSession
  split_ifs with hused
  · rfl
  · simp only [Bool.or_eq_true, not_or, Option.not_isSome_iff_eq_none] at hused
    exact places_setStage (by simp [inCreation, hused.1.1, CreationStage.holdsBackend]) n

/-- A session object that raises leaves its backend to a close. -/
theorem places_buildFails {sid : SessionId} {c : Creation} (hc : m.creations sid = some c)
    (n : SessionId) : (m.buildFails sid c).places n = m.places n := by
  unfold buildFails
  split_ifs with hwrapped
  · refine places_of_endCreation rfl ?_ ?_
    · rw [inCreation_of_creation hc, hwrapped]
      rfl
    · change m.server.lru.count n + (m.popped ++ [sid]).count n + m.closing.count n +
        m.exits.count n = _
      rw [List.count_append, count_singleton_eq]
      omega
  · rfl

theorem places_beginClose (B : BackendApi F L)
    (hopen : ∀ sid ∈ m.popped, (m.server.sessions sid).any Session.closed = false)
    (sid n : SessionId) : (m.beginClose B sid).places n = m.places n := by
  unfold beginClose
  split_ifs with hin hclosed
  · rw [hopen sid hin] at hclosed
    cases hclosed
  · refine places_of_creations rfl ?_
    have hlru : (m.server.step B (.shutdown sid)).lru = m.server.lru := by
      simp only [Server.step, Server.shutdown]
      split <;> rfl
    have hpos := List.count_pos_iff.mpr hin
    simp only [hlru, List.count_append, List.count_erase, List.count_singleton]
    by_cases hn : n = sid
    · subst hn
      simp
      omega
    · simp [Ne.symm hn]
  · rfl

theorem places_putExit (sid n : SessionId) : (m.putExit sid).places n = m.places n := by
  unfold putExit
  split_ifs with hin
  · refine places_of_creations rfl ?_
    have hpos := List.count_pos_iff.mpr hin
    simp only [List.count_append, List.count_erase, List.count_singleton]
    by_cases hn : n = sid
    · subst hn
      simp
      omega
    · simp [Ne.symm hn]
  · rfl

end Places

/-- Behind its three steps a creation has its backend no more. -/
theorem inCreation_registered (B : BackendApi F L) {sid : SessionId}
    (hlock : m.inCreation sid = true → m.server.leaseEnd = none) :
    (((m.step B (.wrap sid)).step B (.build sid)).step B (.register sid)).inCreation sid =
      false := by
  cases hc : m.creations sid with
  | none => simp [Manager.step, withCreation, inCreation, hc]
  | some c =>
    rw [inCreation_of_creation hc] at hlock
    obtain ⟨lease, key, stage⟩ := c
    cases stage with
    | arrived | wrapped | built =>
      simp [Manager.step, withCreation, inCreation, hc, wrap, build, register, setStage,
        endCreation, hlock rfl]
    | ensuring | preparing | calling | abandoned =>
      simp [Manager.step, withCreation, inCreation, hc, wrap, build, register,
        CreationStage.holdsBackend]

theorem records_finishEnsure (creation : Option SessionId) (ok : Bool) :
    (m.finishEnsure creation ok).returned = m.returned ∧
      (m.finishEnsure creation ok).exits = m.exits := by
  cases creation with
  | none => exact ⟨rfl, rfl⟩
  | some sid =>
    refine withCreation_of (P := fun m' => m'.returned = m.returned ∧ m'.exits = m.exits)
      ⟨rfl, rfl⟩ fun c _ => ?_
    (repeat' split) <;> exact ⟨rfl, rfl⟩

/-- Only the return of a thread adds a backend, and only `putExit` an exit job. -/
theorem records_step (B : BackendApi F L) (e : ManagerEvent F) :
    ((m.step B e).returned = m.returned ∨ ∃ sid, e = .threadReturns sid) ∧
      ((m.step B e).exits = m.exits ∨ ∃ sid, e = .putExit sid) := by
  have hsame : (m.returned = m.returned ∨ ∃ sid, e = .threadReturns sid) ∧
      (m.exits = m.exits ∨ ∃ sid, e = .putExit sid) := ⟨Or.inl rfl, Or.inl rfl⟩
  have hcreation : ∀ {sid : SessionId} {f : Creation → Manager F L},
      (∀ c, ((f c).returned = m.returned ∨ ∃ sid, e = .threadReturns sid) ∧
        ((f c).exits = m.exits ∨ ∃ sid, e = .putExit sid)) →
      ((m.withCreation sid f).returned = m.returned ∨ ∃ sid, e = .threadReturns sid) ∧
        ((m.withCreation sid f).exits = m.exits ∨ ∃ sid, e = .putExit sid) :=
    fun hf => withCreation_of (P := fun m' =>
      (m'.returned = m.returned ∨ ∃ sid, e = .threadReturns sid) ∧
        (m'.exits = m.exits ∨ ∃ sid, e = .putExit sid)) hsame fun c _ => hf c
  cases e with
  | threadReturns sid =>
    refine hcreation fun c => ⟨Or.inr ⟨sid, rfl⟩, Or.inl ?_⟩
    unfold threadReturns
    (repeat' split) <;> rfl
  | putExit sid =>
    refine ⟨Or.inl ?_, Or.inr ⟨sid, rfl⟩⟩
    simp only [step, putExit]
    split <;> rfl
  | refuse sid | callGateway sid | giveUp sid | threadFails sid | wrap sid | wrapFails sid
  | build sid | buildFails sid | register sid =>
    refine hcreation fun c => ?_
    simp only [refuse, callGateway, giveUp, threadFails, wrap, wrapFails, build, buildFails,
      register]
    (repeat' split) <;> exact hsame
  | ensureGateway creation =>
    simp only [step, ensureGateway]
    (repeat' split) <;> simp [records_finishEnsure]
  | startGateway ok =>
    simp only [step, startGateway]
    (repeat' split) <;> simp [records_finishEnsure]
  | updateActivity i =>
    simp only [step]
    cases m.server.calls[i]? with
    | none => exact hsame
    | some c =>
      simp only [Option.map_some, Option.getD_some, updateActivity]
      split <;> exact hsame
  | tick | gatewayTerminates | gatewayHangs => exact hsame
  | serve | createSession | purge | dropGateway | wake | select | reap | beginClose | shutdown
  | endGateway =>
    simp only [step, createSession, purge, dropGateway, wake, select, reap, beginClose, shutdown,
      endGateway]
    (repeat' split) <;> exact hsame

theorem returned_step (B : BackendApi F L) {e : ManagerEvent F}
    (he : ∀ sid, e ≠ .threadReturns sid) : (m.step B e).returned = m.returned := by
  rcases (records_step B e).1 with hsame | ⟨sid, hsid⟩
  · exact hsame
  · exact absurd hsid (he sid)

/-- Exit jobs stay submitted. -/
theorem exits_subset (B : BackendApi F L) (e : ManagerEvent F) :
    m.exits ⊆ (m.step B e).exits := by
  rcases (records_step B e).2 with hsame | ⟨sid, rfl⟩
  · rw [hsame]
    exact List.Subset.refl _
  · simp only [step, putExit]
    split_ifs
    · exact List.subset_append_left _ _
    · exact List.Subset.refl _

/-- A thread returns its backend to a creation that then has it, or that is over. -/
theorem returned_threadReturns (B : BackendApi F L) (sid : SessionId) :
    (m.step B (.threadReturns sid)).returned = m.returned ∨
      ∃ gateway, (m.step B (.threadReturns sid)).returned = m.returned ++ [⟨sid, gateway⟩] ∧
        ∀ c', (m.step B (.threadReturns sid)).creations sid = some c' →
          c'.stage.holdsBackend = true := by
  refine withCreation_of (P := fun m' => m'.returned = m.returned ∨
    ∃ gateway, m'.returned = m.returned ++ [⟨sid, gateway⟩] ∧
      ∀ c', m'.creations sid = some c' → c'.stage.holdsBackend = true) (Or.inl rfl) fun c _ => ?_
  unfold threadReturns
  split
  · split_ifs
    · split
      · refine Or.inr ⟨_, rfl, fun c' hc' => ?_⟩
        obtain rfl : { c with stage := .arrived } = c' := by simpa [setStage] using hc'
        rfl
      · refine Or.inr ⟨_, rfl, fun c' hc' => ?_⟩
        simp [endCreation] at hc'
      · exact Or.inl rfl
    · exact Or.inl rfl
  · exact Or.inl rfl

structure Accounts (m : Manager F L) : Prop where
  pool : m.PoolBound
  balance : ∀ n, m.places n = (m.returned.map RawBackend.session).count n
  once : (m.returned.map RawBackend.session).Nodup
  fresh : ∀ sid c, m.creations sid = some c → c.stage.holdsBackend = false →
    sid ∉ m.returned.map RawBackend.session
  stopped : ∀ sid x, m.server.sessions sid = some x → x.closed = true → sid ∈ m.exits

theorem accounts_initial (poolSize idleTimeout maxLeaseAge : ℕ) :
    Accounts ({ server := { poolSize }, idleTimeout, maxLeaseAge } : Manager F L) where
  pool := poolBound_initial poolSize idleTimeout maxLeaseAge
  balance := by simp [places, inCreation]
  once := List.nodup_nil
  fresh := by simp
  stopped := by simp

section Step

variable (h : m.Accounts)
include h

theorem Accounts.places_le_one (n : SessionId) : m.places n ≤ 1 := by
  rw [h.balance n]
  exact List.nodup_iff_count_le_one.mp h.once n

/-- The session of a close that has not begun is not closed. -/
theorem Accounts.open_of_popped {sid : SessionId} (hin : sid ∈ m.popped) :
    (m.server.sessions sid).any Session.closed = false := by
  by_contra hclosed
  obtain ⟨x, hx, hxc⟩ := Option.any_eq_true _ _ |>.mp (by simpa using hclosed)
  have hexits := List.count_pos_iff.mpr (h.stopped sid x hx hxc)
  have hpopped := List.count_pos_iff.mpr hin
  have hle := h.places_le_one sid
  unfold places at hle
  omega

theorem Accounts.places_step (B : BackendApi F L) {e : ManagerEvent F} (hkeeps : m.KeepsBackend e)
    (he : ∀ sid, e ≠ .threadReturns sid) (n : SessionId) :
    (m.step B e).places n = m.places n := by
  have hcreation : ∀ {sid : SessionId} {f : Creation → Manager F L},
      (∀ c, m.creations sid = some c → (f c).places n = m.places n) →
        (m.withCreation sid f).places n = m.places n :=
    fun hf => withCreation_of (P := fun m' => m'.places n = m.places n) rfl hf
  have hstage : ∀ {sid : SessionId} {c : Creation} {stage : CreationStage},
      m.creations sid = some c → c.stage.holdsBackend = stage.holdsBackend →
        (m.setStage sid c stage).places n = m.places n :=
    fun hc hsame => places_setStage ((inCreation_of_creation hc).trans hsame) n
  have hend : ∀ {sid : SessionId} {c : Creation}, m.creations sid = some c →
      c.stage.holdsBackend = false → (m.endCreation sid).places n = m.places n :=
    fun hc hnone => places_endCreation ((inCreation_of_creation hc).trans hnone) n
  cases e with
  | threadReturns sid => exact absurd rfl (he sid)
  | serve e =>
    simp only [Manager.step]
    split_ifs with hallows
    · exact places_serve h.pool B (allows_spec hallows).1 n
    · rfl
  | createSession sid lease key => exact places_createSession sid lease key n
  | register sid => exact hcreation fun c hc => places_register h.pool B hc n
  | refuse sid =>
    refine hcreation fun c hc => ?_
    unfold refuse
    split_ifs with hprep
    · exact hend hc (by rw [hprep]; rfl)
    · rfl
  | callGateway sid =>
    refine hcreation fun c hc => ?_
    unfold callGateway
    split_ifs with hprep
    · exact hstage hc (by rw [hprep]; rfl)
    · rfl
  | giveUp sid =>
    refine hcreation fun c hc => ?_
    have harrived := hkeeps c hc
    unfold giveUp
    cases hs : c.stage with
    | calling => exact hstage hc (by rw [hs]; rfl)
    | ensuring | preparing => exact hend hc (by rw [hs]; rfl)
    | arrived => exact absurd hs harrived
    | abandoned | wrapped | built => rfl
  | threadFails sid =>
    refine hcreation fun c hc => ?_
    unfold threadFails
    cases hs : c.stage with
    | calling | abandoned => exact hend hc (by rw [hs]; rfl)
    | ensuring | preparing | arrived | wrapped | built => rfl
  | wrap sid =>
    refine hcreation fun c hc => ?_
    unfold wrap
    split_ifs with harrived
    · exact hstage hc (by rw [harrived]; rfl)
    · rfl
  | wrapFails sid =>
    refine hcreation fun c hc => ?_
    unfold wrapFails
    rw [if_neg (hkeeps c hc)]
  | build sid =>
    refine hcreation fun c hc => ?_
    unfold build
    split_ifs with hwrapped
    · exact hstage hc (by rw [hwrapped]; rfl)
    · rfl
  | buildFails sid => exact hcreation fun c hc => places_buildFails hc n
  | ensureGateway creation =>
    simp only [Manager.step, ensureGateway]
    (repeat' split) <;> first | rfl | exact places_finishEnsure _ _ n
  | startGateway ok =>
    simp only [Manager.step, startGateway]
    (repeat' split) <;> first | rfl | exact places_finishEnsure _ _ n
  | purge =>
    simp only [Manager.step, purge]
    split
    · split_ifs
      · rfl
      · exact places_clearPool (m := m) n
    · rfl
  | shutdown =>
    simp only [Manager.step, shutdown]
    split_ifs
    · rfl
    · exact places_clearPool (m := m) n
  | reap =>
    simp only [Manager.step, reap]
    (repeat' split) <;> first | rfl | exact places_serve h.pool B (by simp) n
  | beginClose sid => exact places_beginClose B (fun _ hin => h.open_of_popped hin) sid n
  | putExit sid => exact places_putExit sid n
  | updateActivity i =>
    simp only [Manager.step]
    cases m.server.calls[i]? with
    | none => rfl
    | some c =>
      simp only [Option.map_some, Option.getD_some, updateActivity]
      split <;> rfl
  | tick | gatewayTerminates | gatewayHangs | dropGateway | wake | select | endGateway =>
    simp only [Manager.step, dropGateway, wake, select, endGateway]
    (repeat' split) <;> rfl

/-- The return of a thread, but for a creation that has been given up. -/
theorem Accounts.balance_threadReturns {sid : SessionId}
    (hkeeps : m.KeepsBackend (.threadReturns sid)) (B : BackendApi F L) (n : SessionId) :
    (m.step B (.threadReturns sid)).places n =
        ((m.step B (.threadReturns sid)).returned.map RawBackend.session).count n ∧
      ((m.step B (.threadReturns sid)).returned.map RawBackend.session).Nodup := by
  have hsame := And.intro (h.balance n) h.once
  refine withCreation_of (P := fun m' =>
    m'.places n = (m'.returned.map RawBackend.session).count n ∧
      (m'.returned.map RawBackend.session).Nodup) hsame fun c hc => ?_
  have hkept := fun gw => hkeeps c gw hc
  unfold threadReturns
  cases hlock : m.gatewayLock with
  | some g => exact hsame
  | none =>
    cases hgw : m.gateway with
    | none => exact hsame
    | some gw =>
      dsimp only
      split_ifs with hcall
      · cases hs : c.stage with
        | calling =>
          have hout : m.inCreation sid = false := by
            rw [inCreation_of_creation hc, hs]
            rfl
          have hnew := h.fresh sid c hc (by rw [hs]; rfl)
          have hin := inCreation_setStage (m := m) sid c .arrived n
          have hbalance := h.balance n
          simp only [List.map_append, List.map_singleton]
          refine ⟨?_, h.once.append (List.nodup_singleton sid) (by simpa using hnew)⟩
          unfold places at hbalance ⊢
          change ((m.setStage sid c .arrived).inCreation n).toNat + m.server.lru.count n +
            m.popped.count n + m.closing.count n + m.exits.count n = _
          rw [hin, List.count_append]
          rw [count_singleton_eq]
          by_cases hn : n = sid
          · rw [hn, hout, Bool.toNat_false] at hbalance
            rw [if_pos hn, if_pos hn, hn, ← hbalance, CreationStage.holdsBackend, Bool.toNat_true]
            omega
          · rw [if_neg hn, if_neg hn, hbalance, Nat.add_zero]
        | abandoned => exact absurd hs (hkept gw hlock hgw hcall)
        | ensuring | preparing | arrived | wrapped | built => exact hsame
      · exact hsame

theorem Accounts.balance_step (B : BackendApi F L) {e : ManagerEvent F}
    (hkeeps : m.KeepsBackend e) (n : SessionId) :
    (m.step B e).places n = ((m.step B e).returned.map RawBackend.session).count n ∧
      ((m.step B e).returned.map RawBackend.session).Nodup := by
  by_cases he : ∃ sid, e = .threadReturns sid
  · obtain ⟨sid, rfl⟩ := he
    exact h.balance_threadReturns hkeeps B n
  · have hother : ∀ sid, e ≠ .threadReturns sid := fun sid hsid => he ⟨sid, hsid⟩
    rw [h.places_step B hkeeps hother, returned_step B hother]
    exact ⟨h.balance n, h.once⟩

theorem Accounts.fresh_step (B : BackendApi F L) {e : ManagerEvent F} {sid : SessionId}
    {c' : Creation} (hc' : (m.step B e).creations sid = some c')
    (hnone : c'.stage.holdsBackend = false) :
    sid ∉ (m.step B e).returned.map RawBackend.session := by
  have hbefore : sid ∉ m.returned.map RawBackend.session := by
    rcases continues_step B m e sid c' hc' with ⟨c, hc, _, _, hholds⟩ | ⟨_, _, _, hnew⟩
    · refine h.fresh sid c hc ?_
      by_contra hheld
      rw [hholds (by simpa using hheld)] at hnone
      cases hnone
    · exact hnew
  by_cases he : ∃ n, e = .threadReturns n
  · obtain ⟨n, rfl⟩ := he
    rcases returned_threadReturns B n with hsame | ⟨gateway, hreturned, hgone⟩
    · rwa [hsame]
    · have hne : sid ≠ n := by
        rintro rfl
        rw [hgone c' hc'] at hnone
        cases hnone
      rw [hreturned]
      simpa [hne] using hbefore
  · rwa [returned_step B fun n hn => he ⟨n, hn⟩]

theorem Accounts.stopped_step (B : BackendApi F L) {e : ManagerEvent F} {sid : SessionId}
    {x' : Session F L} (hx' : (m.step B e).server.sessions sid = some x')
    (hclosed : x'.closed = true) : sid ∈ (m.step B e).exits := by
  apply exits_subset B e
  have hstep : ∀ {e' : Event F}, (m.server.step B e').sessions sid = some x' →
      (e' = .stop sid → sid ∈ m.exits) → sid ∈ m.exits := by
    intro e' hs hstop
    rcases Server.closed_of_step hs hclosed with ⟨x, hx, hxc⟩ | he'
    · exact h.stopped sid x hx hxc
    · exact hstop he'
  have hmove := server_step B m e
  generalize (m.step B e).server = s' at hmove hx'
  cases hmove with
  | same => exact h.stopped sid x' hx' hclosed
  | purge _ _ => exact h.stopped sid x' hx' hclosed
  | shutdown _ => exact h.stopped sid x' hx' hclosed
  | serve hallows => exact hstep hx' ((allows_spec hallows).2.2 sid)
  | register | reap | beginClose => exact hstep hx' (by simp)

theorem Accounts.step (B : BackendApi F L) {e : ManagerEvent F} (hkeeps : m.KeepsBackend e) :
    (m.step B e).Accounts where
  pool := h.pool.step B e
  balance n := (h.balance_step B hkeeps n).1
  once := (h.balance_step B hkeeps 0).2
  fresh _ _ hc' hnone := h.fresh_step B hc' hnone
  stopped _ _ hx' hclosed := h.stopped_step B hx' hclosed

theorem Accounts.settled_of_not_underWay {b : RawBackend} (hb : b ∈ m.returned)
    (hnot : ¬ m.UnderWay b.session) : m.Settled b.session := by
  have hcount : (m.returned.map RawBackend.session).count b.session = 1 :=
    List.count_eq_one_of_mem h.once (List.mem_map_of_mem hb)
  have hone := (h.balance b.session).trans hcount
  refine ⟨hnot, ?_⟩
  simp only [UnderWay, not_or, Bool.not_eq_true] at hnot
  obtain ⟨hin, hpopped, hclosing⟩ := hnot
  rw [places, hin, Bool.toNat_false, List.count_eq_zero.mpr hpopped,
    List.count_eq_zero.mpr hclosing] at hone
  have hlru := List.count_pos_iff (a := b.session) (l := m.server.lru)
  have hexits := List.count_pos_iff (a := b.session) (l := m.exits)
  rw [← hlru, ← hexits]
  omega

theorem Accounts.not_mem_popped_beginClose (B : BackendApi F L) (sid : SessionId) :
    sid ∉ (m.step B (.beginClose sid)).popped := by
  have hle := h.places_le_one sid
  intro hmem
  have hpos := List.count_pos_iff.mpr hmem
  simp only [Manager.step, beginClose] at hmem hpos
  split_ifs at hmem hpos with hpop hany
  · rw [List.count_erase_self] at hpos
    unfold places at hle
    omega
  · rw [List.count_erase_self] at hpos
    unfold places at hle
    omega
  · exact hpop hmem

theorem Accounts.not_mem_closing_putExit (B : BackendApi F L) (sid : SessionId) :
    sid ∉ (m.step B (.putExit sid)).closing := by
  have hle := h.places_le_one sid
  intro hmem
  have hpos := List.count_pos_iff.mpr hmem
  simp only [Manager.step, putExit] at hmem hpos
  split_ifs at hmem hpos with hclose
  · rw [List.count_erase_self] at hpos
    unfold places at hle
    omega
  · exact hclose hmem

omit h in
theorem popped_putExit (B : BackendApi F L) (sid : SessionId) :
    (m.step B (.putExit sid)).popped = m.popped := by
  simp only [Manager.step, putExit]
  split <;> rfl

/-- Who took a session out of the pool closes it in two steps. -/
theorem Accounts.not_underWay_closed (B : BackendApi F L) {sid : SessionId}
    (hin : m.inCreation sid = false) :
    ¬ ((m.step B (.beginClose sid)).step B (.putExit sid)).UnderWay sid := by
  have hbegun := h.step B (e := .beginClose sid) trivial
  have hcreations : ((m.step B (.beginClose sid)).step B (.putExit sid)).inCreation sid =
      false := by
    rw [← hin]
    simp only [Manager.step, putExit, beginClose]
    (repeat' split) <;> rfl
  rintro (hcreation | hpop | hclose)
  · rw [hcreations] at hcreation
    cases hcreation
  · rw [popped_putExit] at hpop
    exact h.not_mem_popped_beginClose B sid hpop
  · exact hbegun.not_mem_closing_putExit B sid hclose

/-- Whoever has a backend settles it by its next steps. -/
theorem Accounts.settled_ownerSteps (B : BackendApi F L) {b : RawBackend} (hb : b ∈ m.returned)
    (hlock : m.inCreation b.session = true → m.server.leaseEnd = none) :
    ((ownerSteps b.session).foldl (Manager.step B) m).Settled b.session := by
  have hbuilt := (h.step B (e := .wrap b.session) trivial).step B (e := .build b.session) trivial
  have hregistered := hbuilt.step B (e := .register b.session) trivial
  have hclosed := (hregistered.step B (e := .beginClose b.session) trivial).step B
    (e := .putExit b.session) trivial
  refine hclosed.settled_of_not_underWay ?_
    (hregistered.not_underWay_closed B (inCreation_registered B hlock))
  simp only [returned_step B (e := .putExit _) (by simp),
    returned_step B (e := .beginClose _) (by simp), returned_step B (e := .register _) (by simp),
    returned_step B (e := .build _) (by simp), returned_step B (e := .wrap _) (by simp)]
  exact hb

theorem Accounts.conserved (B : BackendApi F L) : m.Conserved B := by
  intro b hb
  by_cases hunder : m.UnderWay b.session
  · have hle := h.places_le_one b.session
    have hplace : 1 ≤ (m.inCreation b.session).toNat + m.popped.count b.session +
        m.closing.count b.session := by
      rcases hunder with hin | hpopped | hclosing
      · rw [hin, Bool.toNat_true]
        omega
      · have hpos := List.count_pos_iff.mpr hpopped
        omega
      · have hpos := List.count_pos_iff.mpr hclosing
        omega
    unfold places at hle
    refine Or.inr ⟨hunder, List.count_eq_zero.mp (by omega), List.count_eq_zero.mp (by omega), ?_⟩
    exact h.settled_ownerSteps B hb
  · exact Or.inl (h.settled_of_not_underWay hb hunder)

end Step

theorem not_conserved_of_places {B : BackendApi F L} {b : RawBackend} (hb : b ∈ m.returned)
    (hzero : m.places b.session = 0) : ¬ m.Conserved B := by
  intro hconserved
  simp only [places, Nat.add_eq_zero_iff, Bool.toNat_eq_zero, List.count_eq_zero] at hzero
  obtain ⟨⟨⟨⟨hin, hlru⟩, hpopped⟩, hclosing⟩, hexits⟩ := hzero
  rcases hconserved b hb with ⟨_, ⟨hpooled, _⟩ | ⟨_, hclosed⟩⟩ | ⟨hunder, _⟩
  · exact hlru hpooled
  · rw [List.count_eq_zero.mpr hexits] at hclosed
    cases hclosed
  · rcases hunder with hcreation | hpop | hclose
    · rw [hin] at hcreation
      cases hcreation
    · exact hpopped hpop
    · exact hclosing hclose

/-- A creation that ends with its backend drops it. -/
theorem Accounts.drops_endCreation (h : m.Accounts) {sid : SessionId} {c : Creation}
    (hc : m.creations sid = some c) (harrived : c.stage = .arrived) :
    ¬ (m.endCreation sid).Conserved B := by
  have hheld : m.inCreation sid = true := by
    rw [inCreation_of_creation hc, harrived]
    rfl
  have hle := h.places_le_one sid
  have hbalance := h.balance sid
  have hin := inCreation_endCreation (m := m) sid sid
  rw [if_pos rfl] at hin
  simp only [places, hheld, Bool.toNat_true] at hle hbalance
  have hreturned : sid ∈ m.returned.map RawBackend.session := List.count_pos_iff.mp (by omega)
  obtain ⟨b, hb, rfl⟩ := List.mem_map.mp hreturned
  refine not_conserved_of_places hb ?_
  unfold places
  rw [hin, Bool.toNat_false]
  change 0 + m.server.lru.count b.session + m.popped.count b.session +
    m.closing.count b.session + m.exits.count b.session = 0
  omega

/-- A thread that returns to a creation given up before drops its backend. -/
theorem Accounts.drops_threadReturns (h : m.Accounts) {sid : SessionId} {c : Creation}
    {gw : Gateway} (hc : m.creations sid = some c) (hlock : m.gatewayLock = none)
    (hgw : m.gateway = some gw)
    (hcall : gw.callSucceeds "get_repl_backend_with_initial_theories" = true)
    (habandoned : c.stage = .abandoned) (B : BackendApi F L) :
    ¬ (m.step B (.threadReturns sid)).Conserved B := by
  have hnone : c.stage.holdsBackend = false := by
    rw [habandoned]
    rfl
  have hplaces : m.places sid = 0 := by
    rw [h.balance sid]
    exact List.count_eq_zero.mpr (h.fresh sid c hc hnone)
  have hstep : m.step B (.threadReturns sid) =
      { m.endCreation sid with returned := m.returned ++ [⟨sid, gw.number⟩] } := by
    simp only [Manager.step, withCreation, hc, Option.map_some, Option.getD_some, threadReturns,
      hlock, hgw, hcall, if_true, habandoned]
  rw [hstep]
  refine not_conserved_of_places (b := ⟨sid, gw.number⟩) (List.mem_concat_self) ?_
  rw [← hplaces]
  exact places_endCreation ((inCreation_of_creation hc).trans hnone) sid

theorem Accounts.keepsBackend_of_conserved (h : m.Accounts) {B : BackendApi F L}
    {e : ManagerEvent F} (hconserved : (m.step B e).Conserved B) : m.KeepsBackend e := by
  cases e with
  | giveUp sid =>
    intro c hc harrived
    apply h.drops_endCreation hc harrived
    simpa only [Manager.step, withCreation, hc, Option.map_some, Option.getD_some, giveUp,
      harrived] using hconserved
  | threadReturns sid =>
    intro c gw hc hlock hgw hcall habandoned
    exact h.drops_threadReturns hc hlock hgw hcall habandoned B hconserved
  | wrapFails sid =>
    intro c hc harrived
    apply h.drops_endCreation hc harrived
    simpa only [Manager.step, withCreation, hc, Option.map_some, Option.getD_some, wrapFails,
      harrived, if_true] using hconserved
  | _ => trivial

/-- In a run of the manager every raw backend is conserved at every step, settled or brought there
by whoever has it, exactly when no creation drops its backend. -/
theorem conserved_iff (B : BackendApi F L) (poolSize idleTimeout maxLeaseAge : ℕ)
    (events : List (ManagerEvent F)) :
    Runs.EveryStep (Manager.step B) (fun m e => (m.step B e).Conserved B)
        { server := { poolSize }, idleTimeout, maxLeaseAge } events ↔
      Runs.EveryStep (Manager.step B) KeepsBackend
        { server := { poolSize }, idleTimeout, maxLeaseAge } events :=
  Runs.everyStep_iff_of_invariant (fun _ _ (h : Accounts _) hkeeps => h.step B hkeeps)
    (fun _ _ h => ⟨h.keepsBackend_of_conserved, fun hkeeps => (h.step B hkeeps).conserved B⟩)
    (accounts_initial poolSize idleTimeout maxLeaseAge)

section Example

/-- The gateway is slower than `SESSION_CREATE`, and returns the backend in the end. -/
def slowCreationEvents : List (ManagerEvent BackendFn) :=
  [.createSession 0 (some "a") "k", .ensureGateway (some 0), .startGateway true, .callGateway 0,
    .giveUp 0, .threadReturns 0]

theorem slow_creation_drops_backend :
    ¬ Runs.EveryStep (Manager.step Server.wordBackend)
      (fun m e => (m.step Server.wordBackend e).Conserved Server.wordBackend)
      { server := { poolSize := 2 }, idleTimeout := 1800, maxLeaseAge := 7200 }
      slowCreationEvents := by
  rintro ⟨_, _, _, _, _, hlast, _⟩
  rcases hlast ⟨0, 0⟩ (List.mem_singleton_self _) with
    ⟨_, ⟨hpooled, _⟩ | ⟨_, hclosed⟩⟩ | ⟨hunder, _⟩
  · cases hpooled
  · exact absurd hclosed (by decide)
  · rcases hunder with hcreation | hpopped | hclosing
    · exact absurd hcreation (by decide)
    · cases hpopped
    · cases hclosing

end Example

end Manager
end IsabelleGym
