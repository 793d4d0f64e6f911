import IsabelleGym.Endpoints
import IsabelleGym.LeaseLog
import IsabelleGym.SessionLoss

/-!
# The cleanup loop and the activity of lease holders

A sweep selects by the recorded activity, under the manager lock, and closes what
it has selected one by one, without another look. Activity is recorded by the
counted methods only. So a session whose holder has asked for nothing but goals
is taken for an abandoned one, and so is one whose holder comes back between the
selection and the close.
-/

namespace IsabelleGym

namespace Server

variable {F L : Type} {B : BackendApi F L} {s : Server F L}

inductive CallsStep (s : Server F L) : Event F → List (Call F) → Prop
  | same {e : Event F} : CallsStep s e s.calls
  | set {e : Event F} {i : ℕ} {c c' : Call F} : s.calls[i]? = some c → c'.session = c.session →
    CallsStep s e (s.calls.set i c')
  | add {sid : SessionId} {lease : LeaseId} {method : Method F} {c : Call F} :
    s.leaseEnd = none → s.usable sid (some lease) = true → c.session = sid →
    CallsStep s (.getSession sid lease method) (s.calls ++ [c])

theorem callsStep_settleCall (e : Event F) {s' : Server F L} (hs' : s'.calls = s.calls) (i : ℕ)
    (raises : Bool) : CallsStep s e (s'.settleCall i raises).calls := by
  unfold settleCall
  cases hc : s'.calls[i]? with
  | none =>
    dsimp only
    rw [hs']
    exact .same
  | some c =>
    simp only [setCall, hs']
    rw [hs'] at hc
    refine .set hc ?_
    simp only [Call.settle, Call.fails]
    (repeat' split) <;> rfl

theorem calls_step (B : BackendApi F L) (s : Server F L) (e : Event F) :
    CallsStep s e (s.step B e).calls := by
  have hsame : CallsStep s e s.calls := .same
  have hcall : ∀ {i : ℕ} {f : Call F → Server F L},
      (∀ c, s.calls[i]? = some c → CallsStep s e (f c).calls) →
        CallsStep s e (s.withCall i f).calls :=
    fun hf => withCall_of (P := fun s' => CallsStep s e s'.calls) hsame hf
  have hsession : ∀ {sid : SessionId} {f : Session F L → Server F L},
      (∀ x, CallsStep s e (f x).calls) → CallsStep s e (s.withSession sid f).calls :=
    fun hf => withSession_of (P := fun s' => CallsStep s e s'.calls) hsame fun x _ => hf x
  have hlocked : ∀ {s' : Server F L}, (s.leaseEnd = none → CallsStep s e s'.calls) →
      CallsStep s e (s.locked s').calls :=
    fun hs' => locked_of_none (P := fun s' => CallsStep s e s'.calls) hsame hs'
  cases e with
  | getSession sid lease method =>
    refine hlocked fun hlock => ?_
    unfold getSession
    by_cases husable : s.usable sid (some lease) = true
    · rw [if_pos husable]
      exact .add hlock husable rfl
    · rwa [if_neg husable]
  | createSession | acquireSession | popOldestIdle | releaseSession | closeSession =>
    refine hlocked fun _ => ?_
    simp only [createSession, acquireSession, popOldestIdle, beginLeaseEnd]
    split <;> exact hsame
  | continueLeaseEnd =>
    cases hend : s.leaseEnd with
    | none => rwa [step_continueLeaseEnd_of_none hend]
    | some e =>
      rw [step_continueLeaseEnd_of_some hend]
      unfold continueLeaseEnd
      (repeat' split) <;> exact hsame
  | acquireRequest i | submit i | enqueue i | timeOut i | raise i | bookkeep i
  | releaseRequest i =>
    refine hcall fun c hc => ?_
    simp only [acquireRequest, submit, enqueue, timeOut, raise, bookkeep, releaseRequest]
    (repeat' split) <;> first | exact hsame | exact .set hc rfl
  | finishJob sid raises =>
    refine hsession fun x => ?_
    unfold finishJob
    split
    · exact hsame
    · exact callsStep_settleCall (s := s) _ (by rfl) _ _
  | cancelJob sid =>
    refine hsession fun x => ?_
    unfold cancelJob
    (repeat' split)
    · exact callsStep_settleCall (s := s) _ (by rfl) _ _
    · exact hsame
    · exact hsame
  | startJob sid | stop sid =>
    refine hsession fun x => ?_
    simp only [startJob, stop]
    (repeat' split) <;> exact hsame
  | shutdown sid =>
    simp only [Server.step, shutdown]
    split <;> exact hsame

def RequestOn (s : Server F L) (i : ℕ) (sid : SessionId) : Prop :=
  ∃ c, s.calls[i]? = some c ∧ c.session = sid

theorem RequestOn.of_callsStep {e : Event F} {s' : Server F L} {i : ℕ} {sid : SessionId}
    (h : s.RequestOn i sid) (hstep : CallsStep s e s'.calls) : s'.RequestOn i sid := by
  obtain ⟨c, hc, hsid⟩ := h
  unfold RequestOn
  generalize s'.calls = calls' at hstep ⊢
  cases hstep with
  | same => exact ⟨c, hc, hsid⟩
  | @set _ k d d' hd hkept =>
    by_cases hk : k = i
    · subst hk
      obtain rfl : d = c := Option.some.inj (hd.symm.trans hc)
      have hlt := (List.getElem?_eq_some_iff.mp hd).1
      exact ⟨d', by rw [List.getElem?_set_self hlt], hkept.trans hsid⟩
    · exact ⟨c, by rwa [List.getElem?_set_ne hk], hsid⟩
  | add _ _ _ =>
    have hlt := (List.getElem?_eq_some_iff.mp hc).1
    exact ⟨c, by rwa [List.getElem?_append_left hlt], hsid⟩

theorem CallsStep.length_le {e : Event F} {calls' : List (Call F)} (h : CallsStep s e calls') :
    s.calls.length ≤ calls'.length := by
  cases h with
  | same => exact le_rfl
  | set _ _ => exact (List.length_set).ge
  | add _ _ _ => simp

/-- The session whose lease is being ended stays the same. -/
theorem leaseEnd_of_step (B : BackendApi F L) {e : Event F} {x' : LeaseEnd}
    (hx' : (s.step B e).leaseEnd = some x') :
    (∃ x, s.leaseEnd = some x ∧ x'.session = x.session) ∨ s.leaseEnd = none := by
  have hstep := pool_step B s e
  generalize (s.step B e).leaseEnd = leaseEnd', (s.step B e).lru = lru' at hx' hstep
  cases hstep with
  | same => exact Or.inl ⟨x', hx', rfl⟩
  | create hlock _ _ => exact Or.inr hlock
  | drop _ hlock => exact Or.inr hlock
  | touch _ hlock => exact Or.inr hlock
  | begin hlock _ => exact Or.inr hlock
  | advance hend hsame =>
    cases hx'
    exact Or.inl ⟨_, hend, hsame⟩
  | putBack _ | remove _ => cases hx'

end Server

/-- What happens to the activity of the sessions, the latest entry first: a lease is taken, a
request is authorised, and a sweep selects, with the requests that have recorded their activity
by then. -/
inductive ActivityEntry
  | leased (sid : SessionId)
  | request (call : ℕ) (sid : SessionId) (time : ℕ)
  | selected (recorded : List ℕ)

abbrev ActivityLog := List ActivityEntry

namespace ActivityLog

/-- The requests on the session since its lease was taken, with their times. -/
def holderRequests (sid : SessionId) : ActivityLog → List (ℕ × ℕ)
  | [] => []
  | .leased n :: log => if n = sid then [] else holderRequests sid log
  | .request i n time :: log =>
    if n = sid then (i, time) :: holderRequests sid log else holderRequests sid log
  | .selected _ :: log => holderRequests sid log

/-- The requests that had recorded their activity when the last sweep selected. -/
def recordedAtSelection : ActivityLog → List ℕ
  | [] => []
  | .selected recorded :: _ => recorded
  | .leased _ :: log | .request _ _ _ :: log => recordedAtSelection log

theorem mem_of_holderRequests {sid : SessionId} {log : ActivityLog} {i time : ℕ}
    (h : (i, time) ∈ holderRequests sid log) : .request i sid time ∈ log := by
  induction log with
  | nil => cases h
  | cons entry log ih =>
    cases entry with
    | leased n =>
      simp only [holderRequests] at h
      split_ifs at h
      · cases h
      · exact List.mem_cons_of_mem _ (ih h)
    | request j n t =>
      simp only [holderRequests] at h
      split_ifs at h with hn
      · rcases List.mem_cons.mp h with heq | hold
        · cases heq
          rw [hn]
          exact List.mem_cons_self
        · exact List.mem_cons_of_mem _ (ih hold)
      · exact List.mem_cons_of_mem _ (ih h)
    | selected recorded => exact List.mem_cons_of_mem _ (ih h)

theorem recordedAtSelection_append {entries log : ActivityLog}
    (h : ∀ recorded, .selected recorded ∉ entries) :
    recordedAtSelection (entries ++ log) = recordedAtSelection log := by
  induction entries with
  | nil => rfl
  | cons entry entries ih =>
    have hrest := ih fun recorded hin => h recorded (List.mem_cons_of_mem _ hin)
    cases entry with
    | leased n => exact hrest
    | request i n time => exact hrest
    | selected recorded => exact absurd List.mem_cons_self (h recorded)

theorem mem_holderRequests_append {sid : SessionId} {entries log : ActivityLog} {i time : ℕ}
    (h : (i, time) ∈ holderRequests sid (entries ++ log)) :
    .request i sid time ∈ entries ∨ (i, time) ∈ holderRequests sid log := by
  induction entries with
  | nil => exact Or.inr h
  | cons entry entries ih =>
    have hrest : (i, time) ∈ holderRequests sid (entries ++ log) →
        .request i sid time ∈ entry :: entries ∨ (i, time) ∈ holderRequests sid log :=
      fun hin => (ih hin).imp (List.mem_cons_of_mem _) id
    cases entry with
    | leased n =>
      simp only [List.cons_append, holderRequests] at h
      split_ifs at h
      · cases h
      · exact hrest h
    | request j n t =>
      simp only [List.cons_append, holderRequests] at h
      split_ifs at h with hn
      · rcases List.mem_cons.mp h with heq | hold
        · cases heq
          rw [hn]
          exact Or.inl List.mem_cons_self
        · exact hrest hold
      · exact hrest h
    | selected recorded => exact hrest h

end ActivityLog

namespace Manager

variable {F L : Type} (B : BackendApi F L) (m : Manager F L)

/-- The session whose lease an entry of the log of leases grants. -/
def grantedLease : LeaseEntry → Option ActivityEntry
  | .granted sid _ => some (.leased sid)
  | .drawn _ _ | .ended _ _ _ => none

def activityEntries (e : ManagerEvent F) : ActivityLog :=
  match e with
  | .serve (.getSession sid lease _) =>
    if m.server.leaseEnd = none ∧ m.server.usable sid (some lease) = true then
      [.request m.server.calls.length sid m.now]
    else []
  | .select =>
    match m.sweep with
    | .woken _ => if m.server.leaseEnd.isSome then [] else [.selected m.active]
    | _ => []
  | e => (leaseEntries B m e).filterMap grantedLease

def activityStep : Manager F L × ActivityLog → ManagerEvent F → Manager F L × ActivityLog :=
  Runs.logged (Manager.step B) (activityEntries B)

/-- The cleanup loop closes no leased session on which the holder has made a request within the
last `max_lease_age` seconds. It says nothing of what the recovery at the end of the loop closes. -/
def SparesActive (x : Manager F L × ActivityLog) (e : ManagerEvent F) : Prop :=
  match e with
  | .serve .continueLeaseEnd => x.1.reaping = true → ∀ sid,
    x.1.server.leaseEnd = some ⟨sid, .popped⟩ → x.1.server.leased sid = true →
    ∀ r ∈ x.2.holderRequests sid, x.1.maxLeaseAge < x.1.now - r.2
  | _ => True

/-- Where the cleanup loop closes a leased session, every request of the holder within the last
`max_lease_age` seconds had gone through `update_activity` when the sweep selected. -/
def RecordsActivity (x : Manager F L × ActivityLog) (e : ManagerEvent F) : Prop :=
  match e with
  | .serve .continueLeaseEnd => x.1.reaping = true → ∀ sid,
    x.1.server.leaseEnd = some ⟨sid, .popped⟩ → x.1.server.leased sid = true →
    ∀ r ∈ x.2.holderRequests sid, x.1.now - r.2 ≤ x.1.maxLeaseAge →
      r.1 ∈ x.2.recordedAtSelection
  | _ => True

def doomed : List SessionId :=
  (match m.sweep with
    | .closing toClose => toClose
    | _ => []) ++ if m.reaping then (m.server.leaseEnd.map LeaseEnd.session).toList else []

/-- The log describes the requests, and a doomed session has no recent request that was recorded
when it was selected. -/
structure Watched (m : Manager F L) (log : ActivityLog) : Prop where
  pool : m.PoolBound
  requested : ∀ i sid time, .request i sid time ∈ log →
    m.server.RequestOn i sid ∧ time ≤ m.now ∧ (i ∈ m.active → time ≤ m.lastActivity sid)
  counted : ∀ i ∈ m.active, i < m.server.calls.length
  recorded : ∀ i ∈ log.recordedAtSelection, i < m.server.calls.length
  woken : ∀ now, m.sweep = .woken now → now ≤ m.now
  spared : ∀ sid ∈ m.server.lru, sid ∈ m.doomed → m.server.leaseOf sid ≠ none →
    ∀ i time, (i, time) ∈ log.holderRequests sid → i ∈ log.recordedAtSelection →
      time + m.maxLeaseAge < m.now

theorem watched_initial (poolSize idleTimeout maxLeaseAge : ℕ) :
    Watched ({ server := { poolSize }, idleTimeout, maxLeaseAge } : Manager F L) [] where
  pool := poolBound_initial poolSize idleTimeout maxLeaseAge
  requested := by simp
  counted := by simp
  recorded := by simp [ActivityLog.recordedAtSelection]
  woken := by simp
  spared := by simp

variable {B m} {log : ActivityLog}

section Activity

theorem clock_finishEnsure (creation : Option SessionId) (ok : Bool) :
    (m.finishEnsure creation ok).now = m.now ∧
      (m.finishEnsure creation ok).lastActivity = m.lastActivity ∧
      (m.finishEnsure creation ok).active = m.active ∧
      (m.finishEnsure creation ok).maxLeaseAge = m.maxLeaseAge ∧
      (m.finishEnsure creation ok).sweep = m.sweep ∧
      (m.finishEnsure creation ok).reaping = m.reaping := by
  cases creation with
  | none => exact ⟨rfl, rfl, rfl, rfl, rfl, rfl⟩
  | some sid =>
    refine withCreation_of (P := fun m' => m'.now = m.now ∧ m'.lastActivity = m.lastActivity ∧
      m'.active = m.active ∧ m'.maxLeaseAge = m.maxLeaseAge ∧ m'.sweep = m.sweep ∧
      m'.reaping = m.reaping) ⟨rfl, rfl, rfl, rfl, rfl, rfl⟩ fun c _ => ?_
    (repeat' split) <;> exact ⟨rfl, rfl, rfl, rfl, rfl, rfl⟩

structure ClockStep (m m' : Manager F L) : Prop where
  age : m'.maxLeaseAge = m.maxLeaseAge
  now : m.now ≤ m'.now
  touched : ∀ sid, m'.lastActivity sid = m.lastActivity sid ∨ m'.lastActivity sid = m.now
  active : ∀ i ∈ m'.active, i ∈ m.active ∨
    ∃ c, m.server.calls[i]? = some c ∧ m'.lastActivity c.session = m.now

theorem clockStep_of_eq {m' : Manager F L} (hage : m'.maxLeaseAge = m.maxLeaseAge)
    (hnow : m.now ≤ m'.now) (htouched : m'.lastActivity = m.lastActivity)
    (hactive : m'.active = m.active) : ClockStep m m' :=
  ⟨hage, hnow, fun sid => Or.inl (by rw [htouched]), fun i hi => Or.inl (by rwa [← hactive])⟩

theorem touch_or (sid n : SessionId) :
    m.touch sid n = m.lastActivity n ∨ m.touch sid n = m.now := by
  by_cases hn : n = sid
  · exact Or.inr (by simp [touch, hn])
  · exact Or.inl (by simp [touch, Function.update_of_ne hn])

theorem clockStep_of_touch {m' : Manager F L} (sid : Option SessionId)
    (hage : m'.maxLeaseAge = m.maxLeaseAge) (hnow : m'.now = m.now)
    (htouched : m'.lastActivity = (sid.map m.touch).getD m.lastActivity)
    (hactive : m'.active = m.active) : ClockStep m m' := by
  refine ⟨hage, hnow.ge, fun n => ?_, fun i hi => Or.inl (by rwa [← hactive])⟩
  rw [htouched]
  cases sid with
  | none => exact Or.inl rfl
  | some sid => exact touch_or sid n

theorem clock_serve (B : BackendApi F L) (m : Manager F L) (e : Event F) :
    ClockStep m (m.serve B e) :=
  clockStep_of_touch (Manager.touched m.server e) rfl rfl rfl rfl

theorem clock_step (B : BackendApi F L) (m : Manager F L) (e : ManagerEvent F) :
    ClockStep m (m.step B e) := by
  have hsame : ClockStep m m := clockStep_of_eq rfl le_rfl rfl rfl
  have hcreation : ∀ {sid : SessionId} {f : Creation → Manager F L},
      (∀ c, ClockStep m (f c)) → ClockStep m (m.withCreation sid f) :=
    fun hf => withCreation_of (P := fun m' => ClockStep m m') hsame fun c _ => hf c
  have hfinish : ∀ {m' : Manager F L} {creation : Option SessionId} {ok : Bool},
      ClockStep m m' → ClockStep m (m'.finishEnsure creation ok) := by
    intro m' creation ok h
    obtain ⟨hnow, htouched, hactive, hage, _⟩ := clock_finishEnsure (m := m') creation ok
    exact ⟨hage.trans h.age, h.now.trans hnow.ge, fun n => by rw [htouched]; exact h.touched n,
      fun i hi => by rw [hactive] at hi; rw [htouched]; exact h.active i hi⟩
  cases e with
  | serve e =>
    simp only [step]
    split_ifs
    · exact clock_serve B m e
    · exact hsame
  | updateActivity i =>
    simp only [step]
    cases hc : m.server.calls[i]? with
    | none => exact hsame
    | some c =>
      simp only [Option.map_some, Option.getD_some, updateActivity]
      split_ifs
      · refine ⟨rfl, le_rfl, touch_or c.session, fun j hj => ?_⟩
        rcases List.mem_cons.mp hj with rfl | hold
        · exact Or.inr ⟨c, hc, by simp [touch]⟩
        · exact Or.inl hold
      · exact hsame
  | tick seconds => exact clockStep_of_eq rfl (Nat.le_add_right _ _) rfl rfl
  | build sid =>
    refine hcreation fun c => ?_
    unfold build
    split_ifs
    · exact clockStep_of_touch (some sid) rfl rfl rfl rfl
    · exact hsame
  | register sid =>
    refine hcreation fun c => ?_
    unfold register
    split_ifs
    · exact clockStep_of_touch (some sid) rfl rfl rfl rfl
    · exact clockStep_of_eq rfl le_rfl rfl rfl
    · exact hsame
  | refuse sid | callGateway sid | giveUp sid | threadFails sid | wrap sid | wrapFails sid
  | buildFails sid | threadReturns sid =>
    refine hcreation fun c => ?_
    simp only [refuse, callGateway, giveUp, threadFails, wrap, wrapFails, buildFails,
      threadReturns]
    (repeat' split) <;> exact clockStep_of_eq rfl le_rfl rfl rfl
  | ensureGateway creation =>
    simp only [step, ensureGateway]
    (repeat' split) <;>
      first | exact hfinish hsame | exact clockStep_of_eq rfl le_rfl rfl rfl
  | startGateway ok =>
    simp only [step, startGateway]
    (repeat' split) <;>
      first | exact hsame | exact hfinish (clockStep_of_eq rfl le_rfl rfl rfl)
  | reap =>
    simp only [step, reap]
    split
    · split_ifs
      · exact hsame
      · exact clockStep_of_touch none rfl rfl rfl rfl
    · exact clockStep_of_eq rfl le_rfl rfl rfl
    · exact hsame
  | gatewayTerminates | gatewayHangs => exact clockStep_of_eq rfl le_rfl rfl rfl
  | createSession | purge | dropGateway | wake | select | beginClose | putExit | shutdown
  | endGateway =>
    simp only [step, createSession, purge, dropGateway, wake, select, beginClose, putExit,
      shutdown, endGateway]
    (repeat' split) <;> exact clockStep_of_eq rfl le_rfl rfl rfl

end Activity

section Sweep

theorem mem_doomed {sid : SessionId} :
    sid ∈ m.doomed ↔ (∃ toClose, m.sweep = .closing toClose ∧ sid ∈ toClose) ∨
      m.reaping = true ∧ ∃ x, m.server.leaseEnd = some x ∧ x.session = sid := by
  unfold doomed
  rw [List.mem_append]
  apply or_congr
  · cases m.sweep <;> simp
  · cases m.reaping <;> simp

/-- Every other event leaves the sweep where it is, and the lease that is being ended. -/
theorem sweep_step (B : BackendApi F L) {e : ManagerEvent F} (hserve : ∀ e', e ≠ .serve e')
    (hreap : e ≠ .reap) (hselect : e ≠ .select) (hwake : e ≠ .wake) :
    (m.step B e).sweep = m.sweep ∧ (m.step B e).reaping = m.reaping ∧
      (m.step B e).server.leaseEnd = m.server.leaseEnd := by
  have hsame : m.sweep = m.sweep ∧ m.reaping = m.reaping ∧
      m.server.leaseEnd = m.server.leaseEnd := ⟨rfl, rfl, rfl⟩
  have hcreation : ∀ {sid : SessionId} {f : Creation → Manager F L},
      (∀ c, (f c).sweep = m.sweep ∧ (f c).reaping = m.reaping ∧
        (f c).server.leaseEnd = m.server.leaseEnd) →
      (m.withCreation sid f).sweep = m.sweep ∧ (m.withCreation sid f).reaping = m.reaping ∧
        (m.withCreation sid f).server.leaseEnd = m.server.leaseEnd :=
    fun hf => withCreation_of (P := fun m' => m'.sweep = m.sweep ∧ m'.reaping = m.reaping ∧
      m'.server.leaseEnd = m.server.leaseEnd) hsame fun c _ => hf c
  have hfinish : ∀ {m' : Manager F L} {creation : Option SessionId} {ok : Bool},
      m'.sweep = m.sweep ∧ m'.reaping = m.reaping ∧ m'.server.leaseEnd = m.server.leaseEnd →
      (m'.finishEnsure creation ok).sweep = m.sweep ∧
        (m'.finishEnsure creation ok).reaping = m.reaping ∧
        (m'.finishEnsure creation ok).server.leaseEnd = m.server.leaseEnd := by
    intro m' creation ok ⟨hsweep, hreaping, hend⟩
    obtain ⟨_, _, _, _, hsweep', hreaping'⟩ := clock_finishEnsure (m := m') creation ok
    rw [hsweep', hreaping', server_finishEnsure]
    exact ⟨hsweep, hreaping, hend⟩
  cases e with
  | serve e => exact absurd rfl (hserve e)
  | reap => exact absurd rfl hreap
  | select => exact absurd rfl hselect
  | wake => exact absurd rfl hwake
  | updateActivity i =>
    simp only [step]
    cases m.server.calls[i]? with
    | none => exact hsame
    | some c =>
      simp only [Option.map_some, Option.getD_some, updateActivity]
      split <;> exact hsame
  | register sid =>
    refine hcreation fun c => ?_
    unfold register
    by_cases hready : c.stage = .built ∧ m.server.leaseEnd = none
    · rw [if_pos hready]
      refine ⟨rfl, rfl, ?_⟩
      simp only [Server.step, Server.locked, Server.createSession]
      (repeat' split) <;> rfl
    · rwa [if_neg hready]
  | refuse sid | callGateway sid | giveUp sid | threadFails sid | wrap sid | wrapFails sid
  | build sid | buildFails sid | threadReturns sid =>
    refine hcreation fun c => ?_
    simp only [refuse, callGateway, giveUp, threadFails, wrap, wrapFails, build, buildFails,
      threadReturns]
    (repeat' split) <;> exact hsame
  | ensureGateway creation =>
    simp only [step, ensureGateway]
    (repeat' split) <;> first | exact hsame | exact hfinish hsame
  | startGateway ok =>
    simp only [step, startGateway]
    (repeat' split) <;> first | exact hsame | exact hfinish hsame
  | beginClose sid =>
    simp only [step, beginClose]
    split_ifs
    · exact hsame
    · refine ⟨rfl, rfl, ?_⟩
      simp only [Server.step, Server.shutdown]
      split <;> rfl
    · exact hsame
  | tick | gatewayTerminates | gatewayHangs => exact hsame
  | createSession | purge | dropGateway | putExit | shutdown | endGateway =>
    simp only [step, createSession, purge, dropGateway, putExit, shutdown, endGateway]
    (repeat' split) <;> exact hsame

/-- A session is doomed from its selection on. -/
theorem doomed_step (B : BackendApi F L) {e : ManagerEvent F} {sid : SessionId}
    (h : sid ∈ (m.step B e).doomed) :
    sid ∈ m.doomed ∨ e = .select ∧ ∃ now, m.sweep = .woken now ∧ m.server.leaseEnd = none ∧
      sid ∈ m.idleSessions now := by
  rw [mem_doomed] at h
  rw [mem_doomed]
  by_cases hquiet : (∀ e', e ≠ .serve e') ∧ e ≠ .reap ∧ e ≠ .select ∧ e ≠ .wake
  · obtain ⟨hserve, hreap, hselect, hwake⟩ := hquiet
    obtain ⟨hsweep, hreaping, hend⟩ := sweep_step (m := m) B hserve hreap hselect hwake
    rw [hsweep, hreaping, hend] at h
    exact Or.inl h
  cases e with
  | serve e =>
    simp only [step] at h
    split_ifs at h
    · rcases h with hclosing | ⟨hreaping, x', hx', hsid⟩
      · exact Or.inl (Or.inl hclosing)
      · simp only [serve, Bool.and_eq_true, Option.isSome_iff_exists] at hreaping hx'
        rcases Server.leaseEnd_of_step B hx' with ⟨x, hx, hsame⟩ | hnone
        · exact Or.inl (Or.inr ⟨hreaping.2, x, hx, hsame ▸ hsid⟩)
        · obtain ⟨⟨x, hx⟩, _⟩ := hreaping
          rw [hnone] at hx
          cases hx
    · exact Or.inl h
  | reap =>
    simp only [step, reap] at h
    split at h
    case h_1 n rest hsweep =>
      split_ifs at h with hlock
      · exact Or.inl h
      · rcases h with ⟨toClose, heq, hin⟩ | ⟨_, x', hx', hsid⟩
        · cases heq
          exact Or.inl (Or.inl ⟨_, hsweep, List.mem_cons_of_mem _ hin⟩)
        · have hfree : m.server.leaseEnd = none := by simpa using hlock
          simp only [serve, Server.step, Server.locked, hfree, Option.isSome_none,
            Bool.false_eq_true, if_false, Server.beginLeaseEnd] at hx'
          split_ifs at hx'
          · cases hx'
            exact Or.inl (Or.inl ⟨_, hsweep, hsid ▸ List.mem_cons_self⟩)
          · rw [hfree] at hx'
            cases hx'
    case h_2 hsweep =>
      rcases h with ⟨toClose, heq, _⟩ | hending
      · cases heq
      · exact Or.inl (Or.inr hending)
    case h_3 => exact Or.inl h
  | select =>
    simp only [step, select] at h
    split at h
    case h_1 now hsweep =>
      split_ifs at h with hlock
      · exact Or.inl h
      · rcases h with ⟨toClose, heq, hin⟩ | hending
        · cases heq
          exact Or.inr ⟨rfl, now, hsweep, by simpa using hlock, hin⟩
        · exact Or.inl (Or.inr hending)
    case h_2 => exact Or.inl h
  | wake =>
    simp only [step, wake] at h
    split at h
    · rcases h with ⟨toClose, heq, _⟩ | hending
      · cases heq
      · exact Or.inl (Or.inr hending)
    · exact Or.inl h
  | _ => simp at hquiet

theorem woken_step (B : BackendApi F L) {e : ManagerEvent F} {now : ℕ}
    (h : (m.step B e).sweep = .woken now) : m.sweep = .woken now ∨ now = m.now := by
  by_cases hquiet : (∀ e', e ≠ .serve e') ∧ e ≠ .reap ∧ e ≠ .select ∧ e ≠ .wake
  · obtain ⟨hserve, hreap, hselect, hwake⟩ := hquiet
    rw [(sweep_step (m := m) B hserve hreap hselect hwake).1] at h
    exact Or.inl h
  cases e with
  | serve e =>
    simp only [step] at h
    split_ifs at h
    · exact Or.inl h
    · exact Or.inl h
  | reap | select | wake =>
    simp only [step, reap, select, wake] at h
    (repeat' split at h) <;> first | exact Or.inl h | simp_all
  | _ => simp at hquiet

end Sweep

section Entries

theorem request_of_entries {e : ManagerEvent F} {i time : ℕ} {sid : SessionId}
    (h : .request i sid time ∈ activityEntries B m e) :
    ∃ lease method, e = .serve (.getSession sid lease method) ∧ m.server.leaseEnd = none ∧
      m.server.usable sid (some lease) = true ∧ i = m.server.calls.length ∧ time = m.now := by
  have hgranted : ∀ entries : LeaseLog, .request i sid time ∉ entries.filterMap grantedLease := by
    intro entries hin
    obtain ⟨entry, _, heq⟩ := List.mem_filterMap.mp hin
    cases entry <;> simp [grantedLease] at heq
  unfold activityEntries at h
  split at h
  case h_1 n lease method =>
    split_ifs at h with hauthorised
    · obtain ⟨rfl, rfl, rfl⟩ : i = m.server.calls.length ∧ sid = n ∧ time = m.now := by
        simpa using h
      exact ⟨lease, method, rfl, hauthorised.1, hauthorised.2, rfl, rfl⟩
    · cases h
  case h_2 =>
    (repeat' split at h) <;> simp at h
  case h_3 => exact absurd h (hgranted _)

/-- A sweep selects under the manager lock, and puts down what has been recorded. -/
theorem selected_of_entries {e : ManagerEvent F} {recorded : List ℕ}
    (h : .selected recorded ∈ activityEntries B m e) :
    e = .select ∧ (∃ now, m.sweep = .woken now) ∧ m.server.leaseEnd = none ∧
      activityEntries B m e = [.selected m.active] := by
  have hgranted : ∀ entries : LeaseLog, .selected recorded ∉ entries.filterMap grantedLease := by
    intro entries hin
    obtain ⟨entry, _, heq⟩ := List.mem_filterMap.mp hin
    cases entry <;> simp [grantedLease] at heq
  unfold activityEntries at h
  split at h
  case h_1 => split_ifs at h <;> simp at h
  case h_2 =>
    split at h
    case h_1 now hsweep =>
      split_ifs at h with hlock
      · cases h
      · have hfree : m.server.leaseEnd = none := by simpa using hlock
        exact ⟨rfl, ⟨now, hsweep⟩, hfree, by simp [activityEntries, hsweep, hfree]⟩
    case h_2 => cases h
  case h_3 => exact absurd h (hgranted _)

theorem callsStep_server (B : BackendApi F L) (m : Manager F L) (e : ManagerEvent F) :
    (m.step B e).server.calls = m.server.calls ∨
      ∃ e', Server.CallsStep m.server e' (m.step B e).server.calls := by
  have hmove := server_step B m e
  generalize (m.step B e).server = s' at hmove ⊢
  cases hmove with
  | same => exact Or.inl rfl
  | serve | register | reap | beginClose => exact Or.inr ⟨_, Server.calls_step B m.server _⟩
  | purge | shutdown => exact Or.inl rfl

theorem requestOn_step (B : BackendApi F L) (e : ManagerEvent F) {i : ℕ} {sid : SessionId}
    (h : m.server.RequestOn i sid) : (m.step B e).server.RequestOn i sid := by
  rcases callsStep_server B m e with hsame | ⟨e', hstep⟩
  · unfold Server.RequestOn
    rwa [hsame]
  · exact h.of_callsStep hstep

theorem length_calls_step (B : BackendApi F L) (m : Manager F L) (e : ManagerEvent F) :
    m.server.calls.length ≤ (m.step B e).server.calls.length := by
  rcases callsStep_server B m e with hsame | ⟨e', hstep⟩
  · rw [hsame]
  · exact hstep.length_le

theorem requestOn_getSession {sid : SessionId} {lease : LeaseId} {method : Method F}
    (hlock : m.server.leaseEnd = none) (husable : m.server.usable sid (some lease) = true) :
    (m.step B (.serve (.getSession sid lease method))).server.RequestOn
      m.server.calls.length sid := by
  simp [Manager.step, allows, serve, Server.step, Server.locked, hlock, Server.getSession,
    husable, Server.RequestOn]

end Entries

section Step

variable (h : m.Watched log) (B)
include h

theorem Watched.requested_step {e : ManagerEvent F} {i time : ℕ} {sid : SessionId}
    (hin : .request i sid time ∈ activityEntries B m e ++ log) :
    (m.step B e).server.RequestOn i sid ∧ time ≤ (m.step B e).now ∧
      (i ∈ (m.step B e).active → time ≤ (m.step B e).lastActivity sid) := by
  have hclock := clock_step B m e
  have hnow := hclock.now
  rcases List.mem_append.mp hin with hnew | hold
  · obtain ⟨lease, method, rfl, hlock, husable, rfl, rfl⟩ := request_of_entries hnew
    refine ⟨requestOn_getSession hlock husable, hnow, fun hactive => ?_⟩
    -- the number of the request has not been given before
    have hlt := h.counted m.server.calls.length hactive
    omega
  · obtain ⟨hon, htime, hrecorded⟩ := h.requested i sid time hold
    refine ⟨requestOn_step B e hon, htime.trans hnow, fun hactive => ?_⟩
    rcases hclock.active i hactive with hbefore | ⟨c, hc, hself⟩
    · rcases hclock.touched sid with hsame | hnow'
      · rw [hsame]
        exact hrecorded hbefore
      · omega
    · obtain ⟨c', hc', hsid⟩ := hon
      obtain rfl : c = c' := Option.some.inj (hc.symm.trans hc')
      rw [← hsid, hself]
      exact htime

theorem Watched.counted_step {e : ManagerEvent F} {i : ℕ} (hi : i ∈ (m.step B e).active) :
    i < (m.step B e).server.calls.length := by
  have hlen := length_calls_step B m e
  rcases (clock_step B m e).active i hi with hold | ⟨c, hc, _⟩
  · exact (h.counted i hold).trans_le hlen
  · exact (List.getElem?_eq_some_iff.mp hc).1.trans_le hlen

theorem Watched.recorded_step {e : ManagerEvent F} {i : ℕ}
    (hi : i ∈ (activityEntries B m e ++ log).recordedAtSelection) :
    i < (m.step B e).server.calls.length := by
  refine lt_of_lt_of_le ?_ (length_calls_step B m e)
  by_cases hselect : ∃ recorded, .selected recorded ∈ activityEntries B m e
  · obtain ⟨recorded, hin⟩ := hselect
    obtain ⟨_, _, _, hentries⟩ := selected_of_entries hin
    rw [hentries] at hi
    exact h.counted i hi
  · rw [ActivityLog.recordedAtSelection_append fun recorded hin => hselect ⟨recorded, hin⟩] at hi
    exact h.recorded i hi

/-- A session that a sweep selects in spite of its lease has been idle for too long. -/
theorem Watched.spared_select {now : ℕ} (hsweep : m.sweep = .woken now) {sid : SessionId}
    (hidle : sid ∈ m.idleSessions now) (hleased : m.server.leaseOf sid ≠ none) {i time : ℕ}
    (hrequest : (i, time) ∈ log.holderRequests sid) (hactive : i ∈ m.active) :
    time + m.maxLeaseAge < m.now := by
  have hwoken := h.woken now hsweep
  have htime := (h.requested i sid time (ActivityLog.mem_of_holderRequests hrequest)).2.2 hactive
  obtain ⟨_, hany⟩ := List.mem_filter.mp hidle
  obtain ⟨x, hx, hxidle⟩ := Option.any_eq_true _ _ |>.mp hany
  have hlease : x.lease.isSome = true := by
    rw [Server.leaseOf, hx, Option.bind_some] at hleased
    exact Option.isSome_iff_ne_none.mpr hleased
  simp only [hlease, if_true, isIdle, Bool.and_eq_true, decide_eq_true_eq] at hxidle
  omega

/-- Behind any other event a leased session had its lease before, or its holder has made no
request yet. -/
theorem Watched.holder_step {e : ManagerEvent F} {sid : SessionId}
    (hin : sid ∈ (m.step B e).server.lru) (hleased : (m.step B e).server.leaseOf sid ≠ none)
    {r : ℕ × ℕ} (hr : r ∈ (activityEntries B m e ++ log).holderRequests sid) :
    sid ∈ m.server.lru ∧ m.server.leaseOf sid ≠ none := by
  have hmove := lease_step B h.pool e
  generalize hentries : leaseEntries B m e = entries at hmove
  generalize (m.step B e).server = s' at hmove hin hleased
  have hreset : activityEntries B m e = [.leased sid] → False := by
    intro heq
    rw [heq] at hr
    simp [ActivityLog.holderRequests] at hr
  cases hmove with
  | keep hsub hkept => exact ⟨hsub hin, by rwa [← hkept sid hin]⟩
  | draw hsame => exact ⟨by rwa [← hsame], by rwa [← hsame]⟩
  | @grant n lease key reuseDirty _ _ hsub _ hother =>
    by_cases hn : sid = n
    · refine (hreset ?_).elim
      rw [hn]
      simp [activityEntries, hentries, grantedLease]
    · exact ⟨hsub hin, by rwa [← hother sid hn]⟩
  | @drop stage n lease _ _ hsub hnone hother _ =>
    by_cases hn : sid = n
    · rw [hn] at hleased
      exact absurd hnone hleased
    · exact ⟨hsub hin, by rwa [← hother sid hn]⟩
  | @enter n c _ _ hlease hmem hother =>
    by_cases hn : sid = n
    · refine (hreset ?_).elim
      obtain ⟨lease, hsome⟩ := Option.ne_none_iff_exists'.mp hleased
      rw [hn, hlease] at hsome
      rw [hn]
      simp [activityEntries, hentries, hsome, grantedLease]
    · exact ⟨(hmem sid hin).resolve_right hn, by rwa [← hother sid hn]⟩

theorem Watched.spared_step {e : ManagerEvent F} {sid : SessionId}
    (hin : sid ∈ (m.step B e).server.lru) (hdoomed : sid ∈ (m.step B e).doomed)
    (hleased : (m.step B e).server.leaseOf sid ≠ none) {i time : ℕ}
    (hrequest : (i, time) ∈ (activityEntries B m e ++ log).holderRequests sid)
    (hrecorded : i ∈ (activityEntries B m e ++ log).recordedAtSelection) :
    time + (m.step B e).maxLeaseAge < (m.step B e).now := by
  have hclock := clock_step B m e
  have hnow := hclock.now
  rw [hclock.age]
  obtain ⟨hold, hheld⟩ := h.holder_step B hin hleased hrequest
  by_cases hselect : ∃ recorded, .selected recorded ∈ activityEntries B m e
  · obtain ⟨recorded, hentry⟩ := hselect
    obtain ⟨_, ⟨now, hsweep⟩, hlock, hentries⟩ := selected_of_entries hentry
    rw [hentries] at hrequest hrecorded
    rcases doomed_step B hdoomed with hbefore | ⟨_, now', hsweep', _, hidle⟩
    · rw [mem_doomed, hsweep, hlock] at hbefore
      simp at hbefore
    · have hspared := h.spared_select hsweep' hidle hheld hrequest hrecorded
      omega
  · have hnone : ∀ recorded, .selected recorded ∉ activityEntries B m e :=
      fun recorded hentry => hselect ⟨recorded, hentry⟩
    rw [ActivityLog.recordedAtSelection_append hnone] at hrecorded
    have hlt := h.recorded i hrecorded
    have hbefore : sid ∈ m.doomed := by
      rcases doomed_step B hdoomed with hbefore | ⟨rfl, now, hsweep, hlock, _⟩
      · exact hbefore
      · refine absurd ?_ (hnone m.active)
        simp [activityEntries, hsweep, hlock]
    rcases ActivityLog.mem_holderRequests_append hrequest with hnew | hrequested
    · obtain ⟨_, _, _, _, _, hnumber, _⟩ := request_of_entries hnew
      omega
    · have hspared := h.spared sid hold hbefore hheld i time hrequested hrecorded
      omega

theorem Watched.step (e : ManagerEvent F) :
    (m.step B e).Watched (activityEntries B m e ++ log) where
  pool := h.pool.step B e
  requested _ _ _ hin := h.requested_step B hin
  counted _ hi := h.counted_step B hi
  recorded _ hi := h.recorded_step B hi
  woken now hsweep := by
    have hnow := (clock_step B m e).now
    rcases woken_step B hsweep with hold | hnew
    · exact (h.woken now hold).trans hnow
    · omega
  spared _ hin hdoomed hleased _ _ hrequest hrecorded :=
    h.spared_step B hin hdoomed hleased hrequest hrecorded

omit B in
theorem Watched.spares_iff (e : ManagerEvent F) :
    SparesActive (m, log) e ↔ RecordsActivity (m, log) e := by
  cases e with
  | serve e =>
    cases e with
    | continueLeaseEnd =>
      constructor
      · intro hspares hreaping sid hend hleased r hr hrecent
        have hlong := hspares hreaping sid hend hleased r hr
        dsimp only at hlong hrecent
        omega
      · intro hrecords hreaping sid hend hleased r hr
        by_contra hrecent
        dsimp only at hrecent
        have hrecorded := hrecords hreaping sid hend hleased r hr (by dsimp only; omega)
        have hdoomed : sid ∈ m.doomed := mem_doomed.mpr (Or.inr ⟨hreaping, _, hend, rfl⟩)
        have hheld : m.server.leaseOf sid ≠ none := by
          obtain ⟨x, hx, hlease⟩ := Option.any_eq_true _ _ |>.mp hleased
          rw [Server.leaseOf, hx, Option.bind_some]
          exact Option.isSome_iff_ne_none.mp hlease
        have hspared := h.spared sid (h.pool.pool.ending _ hend) hdoomed hheld r.1 r.2 hr hrecorded
        omega
    | _ => exact Iff.rfl
  | _ => exact Iff.rfl

end Step

/-- In a run the cleanup loop spares the active holders exactly when all their recent requests
are recorded before it selects. -/
theorem sparesActive_iff (B : BackendApi F L) (poolSize idleTimeout maxLeaseAge : ℕ)
    (events : List (ManagerEvent F)) :
    Runs.EveryStep (activityStep B) SparesActive
        ({ server := { poolSize }, idleTimeout, maxLeaseAge }, []) events ↔
      Runs.EveryStep (activityStep B) RecordsActivity
        ({ server := { poolSize }, idleTimeout, maxLeaseAge }, []) events :=
  Runs.everyStep_iff_of_invariant (fun _ e (h : Watched _ _) _ => h.step B e)
    (fun _ e h => h.spares_iff e) (watched_initial poolSize idleTimeout maxLeaseAge)

section Example

/-- The holder asks for the goals at a line, two hours after the lease was taken, and the sweep
that wakes up a second later closes the session. -/
def goalsEvents : List (ManagerEvent BackendFn) :=
  createEvents 0 "a" [.startGateway true] ++
    [.tick 7200, .serve (.getSession 0 "a" (SessionMethod.goalsAtLine 3)), .tick 1, .wake, .select,
      .reap, .serve .continueLeaseEnd]

theorem reaper_closes_active_session :
    ¬ Runs.EveryStep (activityStep Server.wordBackend) SparesActive
      ({ server := { poolSize := 24 }, idleTimeout := 1800, maxLeaseAge := 7200 }, [])
      (goalsEvents ++ [.serve .continueLeaseEnd]) := by
  rw [Runs.everyStep_append]
  rintro ⟨_, hclose, _⟩
  have hlong := hclose (by decide) 0 rfl (by decide) (0, 7200) (by decide)
  exact absurd hlong (by decide)

end Example

end Manager
end IsabelleGym
