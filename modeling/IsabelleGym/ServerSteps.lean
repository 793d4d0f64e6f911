import IsabelleGym.Sessions

/-!
# What one step of the server can do

Every event changes at most one session, in one of a few ways and only behind
its checks, and the pool in another few ways. Invariants of the server go by
these cases and not by the definitions of the operations.
-/

namespace IsabelleGym
namespace Server

variable {F L : Type} {B : BackendApi F L} {s : Server F L}

theorem locked_of_none {s' : Server F L} {P : Server F L → Prop} (h : P s)
    (h' : s.leaseEnd = none → P s') : P (s.locked s') := by
  unfold locked
  split_ifs with hlock
  · exact h
  · exact h' (by simpa using hlock)

theorem withCall_of {i : ℕ} {f : Call F → Server F L} {P : Server F L → Prop} (h : P s)
    (h' : ∀ c, s.calls[i]? = some c → P (f c)) : P (s.withCall i f) := by
  unfold withCall
  cases hc : s.calls[i]? with
  | none => exact h
  | some c => exact h' c hc

theorem withSession_of {sid : SessionId} {f : Session F L → Server F L}
    {P : Server F L → Prop} (h : P s) (h' : ∀ x, s.sessions sid = some x → P (f x)) :
    P (s.withSession sid f) := by
  unfold withSession
  cases hx : s.sessions sid with
  | none => exact h
  | some x => exact h' x hx

theorem step_continueLeaseEnd_of_none (h : s.leaseEnd = none) :
    s.step B .continueLeaseEnd = s := by
  simp [Server.step, h]

theorem step_continueLeaseEnd_of_some {e : LeaseEnd} (h : s.leaseEnd = some e) :
    s.step B .continueLeaseEnd = s.continueLeaseEnd e := by
  simp [Server.step, h]

theorem sessions_modifySession (sid : SessionId) (f : Session F L → Session F L)
    {n : SessionId} {x : Session F L} (h : (s.modifySession sid f).sessions n = some x) :
    ∃ y, s.sessions n = some y ∧ x = if n = sid then f y else y := by
  by_cases hn : n = sid
  · subst hn
    obtain ⟨y, hy, rfl⟩ := Option.map_eq_some_iff.mp (by simpa [modifySession] using h)
    exact ⟨y, hy, by simp⟩
  · exact ⟨x, by simpa [modifySession, Function.update_of_ne hn] using h, by simp [hn]⟩

theorem exists_of_usable {sid : SessionId} {lease : Option LeaseId}
    (h : s.usable sid lease = true) :
    sid ∈ s.lru ∧ ∃ x, s.sessions sid = some x ∧ (lease.isNone = true ∨ x.lease = lease) := by
  simp only [usable, Bool.and_eq_true, decide_eq_true_eq, Option.any_eq_true, Bool.or_eq_true] at h
  obtain ⟨hmem, x, hx, _, hl⟩ := h
  exact ⟨hmem, x, hx, hl⟩

theorem evictExcess_subset (new : SessionId) (fuel : ℕ) (lru : List SessionId) :
    s.evictExcess new fuel lru ⊆ lru := by
  induction fuel generalizing lru with
  | zero => exact List.Subset.refl lru
  | succ fuel ih =>
    unfold evictExcess
    split_ifs
    · exact List.Subset.refl lru
    · split
      · exact List.erase_subset
      · exact fun n hn => List.mem_of_mem_erase (ih _ hn)

/-- The changes of a session, with the checks that precede them. -/
inductive SessionChange (B : BackendApi F L) (s : Server F L) (sid : SessionId)
    (x : Session F L) : Event F → Session F L → Prop
  | acquire {lease : LeaseId} {key : DependencyKey} {reuseDirty : Bool} :
    x.lease = none → SessionChange B s sid x (.acquireSession lease key reuseDirty)
      { x with lease := some lease }
  | endLease {e : LeaseEnd} : s.leaseEnd = some e → e.session = sid →
    SessionChange B s sid x .continueLeaseEnd { x with lease := none }
  | count (i n : ℕ) : SessionChange B s sid x (.acquireRequest i) { x with activeRequests := n }
  | uncount (i n : ℕ) :
    SessionChange B s sid x (.releaseRequest i) { x with activeRequests := n }
  | enqueue {i : ℕ} {c : Call F} {fn : F} {caught : Bool} : s.calls[i]? = some c →
    c.session = sid → c.phase = .submitting fn caught →
    SessionChange B s sid x (.enqueue i) { x with queue := x.queue ++ [⟨fn, i⟩] }
  | bookkeep (i : ℕ) (commandHistory : List Text) :
    SessionChange B s sid x (.bookkeep i) { x with commandHistory }
  | startJob {job : Job F} {rest : List (Job F)} : x.running = none → x.queue = job :: rest →
    SessionChange B s sid x (.startJob sid) { x with running := some job, queue := rest }
  | finishJob {job : Job F} (raises : Bool) : x.running = some job →
    SessionChange B s sid x (.finishJob sid raises)
      { x with running := none, backend := B.run job.fn x.backend }
  | shutdown : sid ∉ s.lru → SessionChange B s sid x (.shutdown sid) { x with shuttingDown := true }
  | cancelJob {job : Job F} {rest : List (Job F)} : x.queue = job :: rest →
    x.shuttingDown = true → SessionChange B s sid x (.cancelJob sid) { x with queue := rest }
  | stop : x.shuttingDown = true → SessionChange B s sid x (.stop sid) { x with closed := true }

inductive SessionsStep (B : BackendApi F L) (s : Server F L) (e : Event F) :
    (SessionId → Option (Session F L)) → Prop
  | same : SessionsStep B s e s.sessions
  | create {sid : SessionId} {lease : Option LeaseId} {key : DependencyKey} :
    e = .createSession sid lease key → s.sessions sid = none →
    SessionsStep B s e (Function.update s.sessions sid
      (some { dependencyKey := key, lease, backend := B.create }))
  | change {sid : SessionId} {x x' : Session F L} : s.sessions sid = some x →
    SessionChange B s sid x e x' → SessionsStep B s e (Function.update s.sessions sid (some x'))

/-- The pool and the lease that is being ended, behind an event. -/
inductive PoolStep (s : Server F L) : List SessionId → Option LeaseEnd → Prop
  | same : PoolStep s s.lru s.leaseEnd
  | create {sid : SessionId} {lru : List SessionId} : s.leaseEnd = none →
    s.sessions sid = none → lru ⊆ s.lru ++ [sid] → PoolStep s lru none
  | drop (sid : SessionId) : s.leaseEnd = none → PoolStep s (s.lru.erase sid) none
  | touch {sid : SessionId} : sid ∈ s.lru → s.leaseEnd = none →
    PoolStep s (s.lru.erase sid ++ [sid]) none
  | begin {e : LeaseEnd} : s.leaseEnd = none → e.session ∈ s.lru → PoolStep s s.lru (some e)
  | advance {e e' : LeaseEnd} : s.leaseEnd = some e → e'.session = e.session →
    PoolStep s s.lru (some e')
  | putBack {e : LeaseEnd} : s.leaseEnd = some e →
    PoolStep s (s.lru.erase e.session ++ [e.session]) none
  | remove {e : LeaseEnd} : s.leaseEnd = some e → PoolStep s (s.lru.erase e.session) none

theorem sessionsStep_modifySession {e : Event F} {sid : SessionId}
    {f : Session F L → Session F L}
    (hf : ∀ x, s.sessions sid = some x → SessionChange B s sid x e (f x)) :
    SessionsStep B s e (s.modifySession sid f).sessions := by
  unfold modifySession
  cases hx : s.sessions sid with
  | none =>
    have hsame : Function.update s.sessions sid none = s.sessions := by
      rw [← hx, Function.update_eq_self]
    rw [Option.map_none, hsame]
    exact .same
  | some x => exact .change hx (hf x hx)

@[simp] theorem sessions_settleCall (i : ℕ) (raises : Bool) :
    (s.settleCall i raises).sessions = s.sessions := by
  unfold settleCall
  split <;> rfl

theorem sessions_acquireSession (lease : LeaseId) (key : DependencyKey) (reuseDirty : Bool) :
    SessionsStep B s (.acquireSession lease key reuseDirty)
      (s.acquireSession lease key reuseDirty).sessions := by
  unfold acquireSession
  split
  case h_1 => exact .same
  case h_2 sid hfind =>
    have hfree := List.find?_some hfind
    refine sessionsStep_modifySession fun x hx => .acquire ?_
    simp only [hx, Option.any_some, Bool.and_eq_true, Option.isNone_iff_eq_none] at hfree
    exact hfree.1.1.2

theorem sessions_continueLeaseEnd {e : LeaseEnd} (he : s.leaseEnd = some e) :
    SessionsStep B s .continueLeaseEnd (s.continueLeaseEnd e).sessions := by
  have hset : SessionsStep B s .continueLeaseEnd
      (s.modifySession e.session fun x => { x with lease := none }).sessions :=
    sessionsStep_modifySession fun _ _ => .endLease he rfl
  unfold continueLeaseEnd
  split
  · exact hset
  · split_ifs <;> exact .same
  · exact hset

theorem sessions_enqueue {i : ℕ} {c : Call F} (hc : s.calls[i]? = some c) :
    SessionsStep B s (.enqueue i) (s.enqueue i c).sessions := by
  unfold enqueue
  split
  case h_1 fn caught hphase => exact sessionsStep_modifySession fun _ _ => .enqueue hc rfl hphase
  case h_2 => exact .same

theorem sessions_bookkeep (i : ℕ) (c : Call F) :
    SessionsStep B s (.bookkeep i) (s.bookkeep i c).sessions := by
  unfold bookkeep
  split
  · split_ifs
    · exact .same
    · exact sessionsStep_modifySession fun _ _ => .bookkeep i _
  · split_ifs
    · exact .same
    · exact sessionsStep_modifySession fun _ _ => .bookkeep i _
  · exact .same

section Worker

variable {sid : SessionId} {x : Session F L}

theorem sessions_startJob (hx : s.sessions sid = some x) :
    SessionsStep B s (.startJob sid) (s.startJob sid x).sessions := by
  unfold startJob
  split
  case h_1 job rest hrun hqueue =>
    split_ifs
    · exact .same
    · refine sessionsStep_modifySession fun y hy => ?_
      obtain rfl := Option.some.inj (hx.symm.trans hy)
      exact .startJob hrun hqueue
  case h_2 => exact .same

theorem sessions_finishJob (hx : s.sessions sid = some x) (raises : Bool) :
    SessionsStep B s (.finishJob sid raises) (s.finishJob B sid x raises).sessions := by
  unfold finishJob
  split
  case h_1 => exact .same
  case h_2 job hrun =>
    rw [sessions_settleCall]
    refine sessionsStep_modifySession fun y hy => ?_
    obtain rfl := Option.some.inj (hx.symm.trans hy)
    exact .finishJob raises hrun

theorem sessions_cancelJob (hx : s.sessions sid = some x) :
    SessionsStep B s (.cancelJob sid) (s.cancelJob sid x).sessions := by
  unfold cancelJob
  split
  case h_1 job rest hqueue =>
    split_ifs with hshut
    · rw [sessions_settleCall]
      refine sessionsStep_modifySession fun y hy => ?_
      obtain rfl := Option.some.inj (hx.symm.trans hy)
      exact .cancelJob hqueue hshut
    · exact .same
  case h_2 => exact .same

theorem sessions_stop (hx : s.sessions sid = some x) :
    SessionsStep B s (.stop sid) (s.stop sid x).sessions := by
  unfold stop
  split_ifs with hshut
  · refine sessionsStep_modifySession fun y hy => ?_
    obtain rfl := Option.some.inj (hx.symm.trans hy)
    exact .stop hshut
  · exact .same

end Worker

theorem sessions_step (B : BackendApi F L) (s : Server F L) (e : Event F) :
    SessionsStep B s e (s.step B e).sessions := by
  have hcall : ∀ {i : ℕ} {f : Call F → Server F L},
      (∀ c, s.calls[i]? = some c → SessionsStep B s e (f c).sessions) →
        SessionsStep B s e (s.withCall i f).sessions :=
    fun hf => withCall_of (P := fun s' => SessionsStep B s e s'.sessions) .same hf
  have hsession : ∀ {sid : SessionId} {f : Session F L → Server F L},
      (∀ x, s.sessions sid = some x → SessionsStep B s e (f x).sessions) →
        SessionsStep B s e (s.withSession sid f).sessions :=
    fun hf => withSession_of (P := fun s' => SessionsStep B s e s'.sessions) .same hf
  have hlocked : ∀ {s' : Server F L}, SessionsStep B s e s'.sessions →
      SessionsStep B s e (s.locked s').sessions :=
    fun hs' => locked_of_none (P := fun s' => SessionsStep B s e s'.sessions) .same fun _ => hs'
  cases e with
  | createSession sid lease key =>
    apply hlocked
    unfold createSession
    split_ifs with hsome
    · exact .same
    · exact .create rfl (by simpa using hsome)
  | acquireSession lease key reuseDirty =>
    exact hlocked (sessions_acquireSession lease key reuseDirty)
  | popOldestIdle | getSession sid lease method | releaseSession sid lease
  | closeSession sid lease =>
    apply hlocked
    simp only [popOldestIdle, getSession, beginLeaseEnd]
    split <;> exact .same
  | continueLeaseEnd =>
    cases hend : s.leaseEnd with
    | none =>
      rw [step_continueLeaseEnd_of_none hend]
      exact .same
    | some e =>
      rw [step_continueLeaseEnd_of_some hend]
      exact sessions_continueLeaseEnd hend
  | acquireRequest i =>
    refine hcall fun c _ => ?_
    unfold acquireRequest
    split_ifs
    · exact sessionsStep_modifySession fun x _ => .count i _
    · exact .same
  | releaseRequest i =>
    refine hcall fun c _ => ?_
    unfold releaseRequest
    split_ifs
    · exact sessionsStep_modifySession fun x _ => .uncount i _
    · exact .same
  | enqueue i => exact hcall fun _ hc => sessions_enqueue hc
  | bookkeep i => exact hcall fun c _ => sessions_bookkeep i c
  | submit i | timeOut i | raise i =>
    refine hcall fun c _ => ?_
    simp only [submit, timeOut, raise]
    (repeat' split) <;> exact .same
  | startJob sid => exact hsession fun _ hx => sessions_startJob hx
  | finishJob sid raises => exact hsession fun _ hx => sessions_finishJob hx raises
  | cancelJob sid => exact hsession fun _ hx => sessions_cancelJob hx
  | stop sid => exact hsession fun _ hx => sessions_stop hx
  | shutdown sid =>
    simp only [Server.step, shutdown]
    split_ifs with hin
    · exact .same
    · exact sessionsStep_modifySession fun _ _ => .shutdown hin

theorem pool_step (B : BackendApi F L) (s : Server F L) (e : Event F) :
    PoolStep s (s.step B e).lru (s.step B e).leaseEnd := by
  have hcall : ∀ {i : ℕ} {f : Call F → Server F L},
      (∀ c, PoolStep s (f c).lru (f c).leaseEnd) →
        PoolStep s (s.withCall i f).lru (s.withCall i f).leaseEnd :=
    fun hf => withCall_of (P := fun s' => PoolStep s s'.lru s'.leaseEnd) .same fun c _ => hf c
  have hsession : ∀ {sid : SessionId} {f : Session F L → Server F L},
      (∀ x, PoolStep s (f x).lru (f x).leaseEnd) →
        PoolStep s (s.withSession sid f).lru (s.withSession sid f).leaseEnd :=
    fun hf => withSession_of (P := fun s' => PoolStep s s'.lru s'.leaseEnd) .same fun x _ => hf x
  have hlocked : ∀ {s' : Server F L},
      (s.leaseEnd = none → PoolStep s s'.lru s'.leaseEnd) →
        PoolStep s (s.locked s').lru (s.locked s').leaseEnd :=
    fun hs' => locked_of_none (P := fun s' => PoolStep s s'.lru s'.leaseEnd) .same hs'
  cases e with
  | createSession sid lease key =>
    refine hlocked fun hlock => ?_
    unfold createSession
    split_ifs with hsome
    · exact .same
    · dsimp only
      rw [hlock]
      exact .create hlock (by simpa using hsome) (evictExcess_subset sid _ _)
  | acquireSession lease key reuseDirty =>
    refine hlocked fun hlock => ?_
    unfold acquireSession
    split
    case h_1 => exact .same
    case h_2 sid hfind =>
      have hin : sid ∈ s.lru := List.mem_reverse.mp (List.mem_of_find?_eq_some hfind)
      simp only [moveToEnd, modifySession, hlock]
      exact .touch hin hlock
  | popOldestIdle =>
    refine hlocked fun hlock => ?_
    unfold popOldestIdle
    split
    case h_1 => exact .same
    case h_2 sid hfind =>
      dsimp only
      rw [hlock]
      exact .drop sid hlock
  | getSession sid lease method =>
    refine hlocked fun hlock => ?_
    unfold getSession
    by_cases husable : s.usable sid (some lease) = true
    · simp only [husable, if_true, moveToEnd, hlock]
      exact .touch (exists_of_usable husable).1 hlock
    · rw [if_neg husable]
      exact .same
  | releaseSession sid lease | closeSession sid lease =>
    refine hlocked fun hlock => ?_
    unfold beginLeaseEnd
    split_ifs with hchecks
    · simp only [Bool.and_eq_true] at hchecks
      exact .begin hlock (exists_of_usable hchecks.1).1
    · exact .same
  | continueLeaseEnd =>
    cases hend : s.leaseEnd with
    | none =>
      rw [step_continueLeaseEnd_of_none hend]
      exact .same
    | some e =>
      rw [step_continueLeaseEnd_of_some hend]
      unfold continueLeaseEnd
      split
      · exact .putBack hend
      · split_ifs
        · exact .putBack hend
        · exact .advance hend rfl
      · exact .remove hend
  | acquireRequest i | submit i | enqueue i | timeOut i | raise i | bookkeep i
  | releaseRequest i =>
    refine hcall fun c => ?_
    simp only [acquireRequest, submit, enqueue, timeOut, raise, bookkeep, releaseRequest]
    (repeat' split) <;> exact .same
  | startJob sid | finishJob sid raises | cancelJob sid | stop sid =>
    refine hsession fun x => ?_
    simp only [startJob, finishJob, cancelJob, stop, settleCall]
    (repeat' split) <;> exact .same
  | shutdown sid =>
    simp only [Server.step, shutdown]
    split <;> exact .same

end Server
end IsabelleGym
