import IsabelleGym.ManagerSteps
import IsabelleGym.Runs

/-!
# Which leases were handed out and which ended

The log lists the leases that creations carry, the leases granted by an
acquisition or with a new session, and the leases that a release or a close
ended. Nothing in the manager reads it.
-/

namespace IsabelleGym

/-- A creation was called with a lease, a lease was granted, or it was ended by a release or by
a close. -/
inductive LeaseEntry
  | drawn (sid : SessionId) (lease : LeaseId)
  | granted (sid : SessionId) (lease : LeaseId)
  | ended (stage : LeaseEndStage) (sid : SessionId) (lease : LeaseId)
deriving DecidableEq

def LeaseEntry.lease : LeaseEntry → LeaseId
  | .drawn _ lease => lease
  | .granted _ lease => lease
  | .ended _ _ lease => lease

/-- What happened to leases, the latest first. -/
abbrev LeaseLog := List LeaseEntry

namespace LeaseLog

/-- The leases of a session that were granted and not ended since. -/
def outstanding (sid : SessionId) : LeaseLog → List LeaseId
  | [] => []
  | .drawn _ _ :: log => outstanding sid log
  | .granted n lease :: log =>
    if n = sid then lease :: outstanding sid log else outstanding sid log
  | .ended _ n lease :: log =>
    if n = sid then (outstanding sid log).filter fun l => l ≠ lease else outstanding sid log

/-- Between two grants of one session the first of the two leases was released. -/
def Separated (log : LeaseLog) : Prop :=
  ∀ sid first second later between earlier,
    log = later ++ .granted sid second :: (between ++ .granted sid first :: earlier) →
      .ended .releasing sid first ∈ between

@[simp] theorem outstanding_nil (sid : SessionId) : outstanding sid [] = [] := rfl

@[simp] theorem outstanding_drawn (sid n : SessionId) (lease : LeaseId) (log : LeaseLog) :
    outstanding sid (.drawn n lease :: log) = outstanding sid log := rfl

@[simp] theorem outstanding_granted_self (sid : SessionId) (lease : LeaseId) (log : LeaseLog) :
    outstanding sid (.granted sid lease :: log) = lease :: outstanding sid log := by
  simp [outstanding]

theorem outstanding_granted_of_ne {sid n : SessionId} (hn : n ≠ sid) (lease : LeaseId)
    (log : LeaseLog) : outstanding sid (.granted n lease :: log) = outstanding sid log := by
  simp [outstanding, hn]

theorem outstanding_ended_self (stage : LeaseEndStage) (sid : SessionId) (lease : LeaseId)
    (log : LeaseLog) : outstanding sid (.ended stage sid lease :: log) =
      (outstanding sid log).filter fun l => l ≠ lease := by
  simp [outstanding]

theorem outstanding_ended_of_ne {sid n : SessionId} (hn : n ≠ sid) (stage : LeaseEndStage)
    (lease : LeaseId) (log : LeaseLog) :
    outstanding sid (.ended stage n lease :: log) = outstanding sid log := by
  simp [outstanding, hn]

/-- A lease stays outstanding until it is ended. -/
theorem mem_outstanding {sid : SessionId} {lease : LeaseId} {between earlier : LeaseLog}
    (h : ∀ stage, .ended stage sid lease ∉ between) :
    lease ∈ outstanding sid (between ++ .granted sid lease :: earlier) := by
  induction between with
  | nil => simp
  | cons entry between ih =>
    have hrest := ih fun stage hmem => h stage (List.mem_cons_of_mem _ hmem)
    cases entry with
    | drawn n l => exact hrest
    | granted n l =>
      simp only [List.cons_append, outstanding]
      split_ifs
      · exact List.mem_cons_of_mem _ hrest
      · exact hrest
    | ended stage n l =>
      simp only [List.cons_append, outstanding]
      split_ifs with hn
      · subst hn
        have hne : lease ≠ l := by
          rintro rfl
          exact h stage List.mem_cons_self
        exact List.mem_filter.mpr ⟨hrest, by simpa using hne⟩
      · exact hrest

@[simp] theorem separated_nil : Separated [] := by
  intro sid first second later between earlier h
  simp at h

/-- A grant may follow once no lease of the session is outstanding and none was ended by a
close. -/
theorem Separated.cons {log : LeaseLog} (h : Separated log) {entry : LeaseEntry}
    (hfree : ∀ sid lease, entry = .granted sid lease → outstanding sid log = [] ∧
      ∀ stage l, .ended stage sid l ∈ log → stage = .releasing) :
    Separated (entry :: log) := by
  intro sid first second later between earlier hlog
  cases later with
  | nil =>
    obtain ⟨hentry, hrest⟩ := List.cons.inj hlog
    obtain ⟨hnone, hreleased⟩ := hfree sid second hentry
    by_contra hopen
    have hnot : ∀ stage, .ended stage sid first ∉ between := by
      intro stage hended
      have hin : .ended stage sid first ∈ log := hrest ▸ List.mem_append_left _ hended
      exact hopen (hreleased stage first hin ▸ hended)
    have hmem : first ∈ outstanding sid (between ++ .granted sid first :: earlier) :=
      mem_outstanding hnot
    rw [← hrest, hnone] at hmem
    cases hmem
  | cons last later =>
    exact h sid first second later between earlier (List.cons.inj hlog).2

end LeaseLog

namespace Server

variable {F L : Type} {B : BackendApi F L} {s : Server F L}

def leaseOf (s : Server F L) (sid : SessionId) : Option LeaseId :=
  (s.sessions sid).bind Session.lease

/-- The lease that the release or close under way drops next. -/
def dropped (s : Server F L) : LeaseLog :=
  match s.leaseEnd with
  | none => []
  | some e =>
    if e.stage = .closing then [] else (s.leaseOf e.session).toList.map (.ended e.stage e.session)

theorem leaseOf_congr {s' : Server F L} {sid : SessionId}
    (h : s'.sessions sid = s.sessions sid) : s'.leaseOf sid = s.leaseOf sid := by
  rw [leaseOf, h, leaseOf]

/-- Only acquisitions, ends of leases and creations change leases. -/
theorem leaseOf_step (B : BackendApi F L) {e : Event F}
    (hcreate : ∀ sid lease key, e ≠ .createSession sid lease key)
    (hacquire : ∀ lease key reuseDirty, e ≠ .acquireSession lease key reuseDirty)
    (hend : e ≠ .continueLeaseEnd) (n : SessionId) : (s.step B e).leaseOf n = s.leaseOf n := by
  have hstep := sessions_step B s e
  unfold leaseOf
  generalize (s.step B e).sessions = sessions' at hstep ⊢
  cases hstep with
  | same => rfl
  | create he _ => exact absurd he (hcreate _ _ _)
  | @change sid x x' hx hchange =>
    have hlease : x'.lease = x.lease := by
      cases hchange with
      | acquire _ => exact absurd rfl (hacquire _ _ _)
      | endLease _ _ => exact absurd rfl hend
      | _ => rfl
    by_cases hn : n = sid
    · subst hn
      simp [hx, hlease]
    · rw [Function.update_of_ne hn]

theorem leaseOf_modifySession_self {sid : SessionId} {f : Session F L → Session F L}
    {x : Session F L} (hx : s.sessions sid = some x) :
    (s.modifySession sid f).leaseOf sid = (f x).lease := by
  simp [leaseOf, modifySession, hx]

theorem leaseOf_modifySession_of_ne {sid n : SessionId} (hn : n ≠ sid)
    (f : Session F L → Session F L) : (s.modifySession sid f).leaseOf n = s.leaseOf n := by
  simp [leaseOf, modifySession, Function.update_of_ne hn]

theorem continueLeaseEnd_sessions (e : LeaseEnd) :
    (s.continueLeaseEnd e).sessions = if e.stage = .closing then s.sessions
      else (s.modifySession e.session fun x => { x with lease := none }).sessions := by
  unfold continueLeaseEnd
  cases e.stage with
  | closing =>
    rw [if_pos rfl]
    dsimp only
    split_ifs <;> rfl
  | releasing | popped => rfl

/-- A close takes its session out of the pool where it ends the lease. -/
theorem not_mem_continueLeaseEnd (hnodup : s.lru.Nodup) (e : LeaseEnd) :
    e.stage = .closing ∨ e.stage = .releasing ∨ e.session ∉ (s.continueLeaseEnd e).lru := by
  unfold continueLeaseEnd
  cases e.stage with
  | closing => exact Or.inl rfl
  | releasing => exact Or.inr (Or.inl rfl)
  | popped => exact Or.inr (Or.inr hnodup.not_mem_erase)

/-- A session that an acquisition may reuse has no lease. -/
theorem exists_of_findReusable {key : DependencyKey} {reuseDirty : Bool} {sid : SessionId}
    (h : s.findReusable key reuseDirty = some sid) :
    sid ∈ s.lru ∧ ∃ x, s.sessions sid = some x ∧ x.lease = none := by
  have hfree := List.find?_some h
  refine ⟨List.mem_reverse.mp (List.mem_of_find?_eq_some h), ?_⟩
  obtain ⟨x, hx, hfits⟩ := Option.any_eq_true _ _ |>.mp hfree
  simp only [Bool.and_eq_true, Option.isNone_iff_eq_none] at hfits
  exact ⟨x, hx, hfits.1.1.2⟩

end Server

namespace ManagerEvent

variable {F : Type}

/-- The lease id that the caller of the event has drawn. -/
def draws : ManagerEvent F → Option LeaseId
  | .createSession _ lease _ => lease
  | .serve (.acquireSession lease _ _) => some lease
  | _ => none

/-- The lease id that a request presents. -/
def presents : ManagerEvent F → Option LeaseId
  | .serve (.getSession _ lease _) => some lease
  | .serve (.releaseSession _ lease) => some lease
  | .serve (.closeSession _ lease) => lease
  | _ => none

end ManagerEvent

namespace Manager

variable {F L : Type} (B : BackendApi F L) (m : Manager F L)

def leaseEntries : ManagerEvent F → LeaseLog
  | .createSession sid lease _ => lease.toList.map (.drawn sid)
  | .register sid =>
    if sid ∈ (m.step B (.register sid)).server.lru then
      ((m.creations sid).bind Creation.lease).toList.map (.granted sid)
    else []
  | .serve (.acquireSession lease key reuseDirty) =>
    if m.server.leaseEnd.isSome then []
    else (m.server.findReusable key reuseDirty).toList.map fun sid => .granted sid lease
  | .serve .continueLeaseEnd => m.server.dropped
  | _ => []

def leaseStep : Manager F L × LeaseLog → ManagerEvent F → Manager F L × LeaseLog :=
  Runs.logged (Manager.step B) (leaseEntries B)

variable {B m}

/-- What an event does to the leases of the pool, with its entries. -/
inductive LeaseMove (m : Manager F L) (s' : Server F L) : ManagerEvent F → LeaseLog → Prop
  | keep {e : ManagerEvent F} : s'.lru ⊆ m.server.lru →
    (∀ n ∈ s'.lru, s'.leaseOf n = m.server.leaseOf n) → LeaseMove m s' e []
  | draw {sid : SessionId} {lease : LeaseId} {key : DependencyKey} : s' = m.server →
    LeaseMove m s' (.createSession sid (some lease) key) [.drawn sid lease]
  | grant {sid : SessionId} {lease : LeaseId} {key : DependencyKey} {reuseDirty : Bool} :
    sid ∈ m.server.lru → m.server.leaseOf sid = none → s'.lru ⊆ m.server.lru →
    s'.leaseOf sid = some lease → (∀ n, n ≠ sid → s'.leaseOf n = m.server.leaseOf n) →
    LeaseMove m s' (.serve (.acquireSession lease key reuseDirty)) [.granted sid lease]
  | drop {stage : LeaseEndStage} {sid : SessionId} {lease : LeaseId} : sid ∈ m.server.lru →
    m.server.leaseOf sid = some lease → s'.lru ⊆ m.server.lru → s'.leaseOf sid = none →
    (∀ n, n ≠ sid → s'.leaseOf n = m.server.leaseOf n) →
    stage = .releasing ∨ sid ∉ s'.lru →
    LeaseMove m s' (.serve .continueLeaseEnd) [.ended stage sid lease]
  | enter {sid : SessionId} {c : Creation} : m.creations sid = some c →
    sid ∈ s'.lru → s'.leaseOf sid = c.lease → (∀ n ∈ s'.lru, n ∈ m.server.lru ∨ n = sid) →
    (∀ n, n ≠ sid → s'.leaseOf n = m.server.leaseOf n) →
    LeaseMove m s' (.register sid) (c.lease.toList.map (.granted sid))

theorem leaseMove_same (e : ManagerEvent F) : LeaseMove m m.server e [] :=
  .keep (List.Subset.refl _) fun _ _ => rfl

section Serve

variable (h : m.PoolBound) (B)
include h

theorem leaseMove_acquire (lease : LeaseId) (key : DependencyKey) (reuseDirty : Bool) :
    LeaseMove m (m.server.step B (.acquireSession lease key reuseDirty))
      (.serve (.acquireSession lease key reuseDirty))
      (leaseEntries B m (.serve (.acquireSession lease key reuseDirty))) := by
  have hsub := (h.lruStep B (e := .acquireSession lease key reuseDirty) (by simp)).subset
  simp only [leaseEntries]
  cases hlock : m.server.leaseEnd with
  | some e =>
    have hsame : m.server.step B (.acquireSession lease key reuseDirty) = m.server := by
      simp [Server.step, Server.locked, hlock]
    rw [hsame]
    exact leaseMove_same _
  | none =>
    simp only [Server.step, Server.locked, hlock, Option.isSome_none, Bool.false_eq_true,
      if_false, Server.acquireSession] at hsub ⊢
    cases hfind : m.server.findReusable key reuseDirty with
    | none => exact leaseMove_same _
    | some sid =>
      obtain ⟨hin, x, hx, hfree⟩ := Server.exists_of_findReusable hfind
      simp only [hfind] at hsub
      refine .grant hin (by simp [Server.leaseOf, hx, hfree]) hsub ?_ fun n hn => ?_
      · exact Server.leaseOf_modifySession_self hx
      · exact Server.leaseOf_modifySession_of_ne hn _

theorem leaseMove_continueLeaseEnd :
    LeaseMove m (m.server.step B .continueLeaseEnd) (.serve .continueLeaseEnd)
      (leaseEntries B m (.serve .continueLeaseEnd)) := by
  have hsub := (h.lruStep B (e := .continueLeaseEnd) (by simp)).subset
  simp only [leaseEntries, Server.dropped]
  cases hend : m.server.leaseEnd with
  | none =>
    rw [Server.step_continueLeaseEnd_of_none hend]
    exact leaseMove_same _
  | some e =>
    rw [Server.step_continueLeaseEnd_of_some hend] at hsub ⊢
    have hsessions := Server.continueLeaseEnd_sessions (s := m.server) e
    have hgone := Server.not_mem_continueLeaseEnd h.nodup e
    generalize m.server.continueLeaseEnd e = s' at hsub hsessions hgone ⊢
    by_cases hstage : e.stage = .closing
    · rw [if_pos hstage] at hsessions
      dsimp only
      rw [if_pos hstage]
      exact .keep hsub fun n _ => Server.leaseOf_congr (congrFun hsessions n)
    · rw [if_neg hstage] at hsessions
      dsimp only
      rw [if_neg hstage]
      -- both ends of a lease set it to none and leave the other sessions
      have hother : ∀ n, n ≠ e.session → s'.leaseOf n = m.server.leaseOf n := fun n hn =>
        (Server.leaseOf_congr (congrFun hsessions n)).trans
          (Server.leaseOf_modifySession_of_ne hn _)
      have hself : s'.leaseOf e.session = none := by
        rw [Server.leaseOf_congr (congrFun hsessions e.session)]
        cases hx : m.server.sessions e.session with
        | none => simp [Server.leaseOf, Server.modifySession, hx]
        | some x => exact Server.leaseOf_modifySession_self hx
      cases hlease : m.server.leaseOf e.session with
      | none =>
        refine .keep hsub fun n _ => ?_
        by_cases hn : n = e.session
        · rw [hn, hself, hlease]
        · exact hother n hn
      | some lease =>
        exact .drop (h.pool.ending e hend) hlease hsub hself hother (hgone.resolve_left hstage)

theorem leaseMove_register {sid : SessionId} {c : Creation} (hc : m.creations sid = some c)
    (hlock : m.server.leaseEnd = none) {log : LeaseLog}
    (hlog : log = if sid ∈ (m.server.step B (.createSession sid c.lease c.key)).lru then
      c.lease.toList.map (.granted sid) else []) :
    LeaseMove m (m.server.step B (.createSession sid c.lease c.key)) (.register sid) log := by
  have hins := h.insertion B hc hlock
  have hnone := h.creating sid c hc
  have hsessions : (m.server.step B (.createSession sid c.lease c.key)).sessions =
      Function.update m.server.sessions sid
        (some { dependencyKey := c.key, lease := c.lease, backend := B.create }) := by
    simp [Server.step, Server.locked, hlock, Server.createSession, hnone]
  generalize m.server.step B (.createSession sid c.lease c.key) = s' at hins hsessions hlog ⊢
  have hother : ∀ n, n ≠ sid → s'.leaseOf n = m.server.leaseOf n := fun n hn =>
    Server.leaseOf_congr (by rw [hsessions, Function.update_of_ne hn])
  subst hlog
  split_ifs with hin
  · refine .enter hc hin ?_ (fun n hn => hins.mem hn) hother
    simp [Server.leaseOf, hsessions]
  · have hold : s'.lru ⊆ m.server.lru := fun n hn =>
      (hins.mem hn).resolve_right fun hsid => hin (hsid ▸ hn)
    exact .keep hold fun n hn => hother n fun hsid => hin (hsid ▸ hn)

/-- A step of the server that neither takes, drops nor grants a lease. -/
theorem leaseMove_serve {e : Event F} (hcreate : ∀ sid lease key, e ≠ .createSession sid lease key)
    (hacquire : ∀ lease key reuseDirty, e ≠ .acquireSession lease key reuseDirty)
    (hend : e ≠ .continueLeaseEnd) (e' : ManagerEvent F) :
    LeaseMove m (m.server.step B e) e' [] :=
  .keep (h.lruStep B hcreate).subset fun n _ => Server.leaseOf_step B hcreate hacquire hend n

theorem lease_step (e : ManagerEvent F) :
    LeaseMove m (m.step B e).server e (leaseEntries B m e) := by
  have hmove := server_step B m e
  generalize hs' : (m.step B e).server = s' at hmove ⊢
  cases hmove with
  | same =>
    cases e with
    | createSession sid lease key =>
      cases lease with
      | none => exact leaseMove_same _
      | some lease => exact .draw rfl
    | register sid =>
      simp only [leaseEntries, hs']
      split_ifs with hin
      · cases hc : m.creations sid with
        | none => exact leaseMove_same _
        | some c => exact absurd hin (h.not_mem hc)
      · exact leaseMove_same _
    | serve e =>
      cases e with
      | acquireSession lease key reuseDirty =>
        have hserved : (m.step B (.serve (.acquireSession lease key reuseDirty))).server =
            m.server.step B (.acquireSession lease key reuseDirty) := rfl
        rw [← hs', hserved]
        exact leaseMove_acquire B h lease key reuseDirty
      | continueLeaseEnd =>
        have hserved : (m.step B (.serve .continueLeaseEnd)).server =
            m.server.step B .continueLeaseEnd := rfl
        rw [← hs', hserved]
        exact leaseMove_continueLeaseEnd B h
      | _ => exact leaseMove_same _
    | _ => exact leaseMove_same _
  | @serve e hallows =>
    cases e with
    | acquireSession lease key reuseDirty => exact leaseMove_acquire B h lease key reuseDirty
    | continueLeaseEnd => exact leaseMove_continueLeaseEnd B h
    | createSession sid lease key => exact absurd rfl ((allows_spec hallows).1 sid lease key)
    | _ => exact leaseMove_serve B h (by simp) (by simp) (by simp) _
  | @register sid c hc _ hlock =>
    refine leaseMove_register B h hc hlock ?_
    simp only [leaseEntries, hs', hc, Option.bind_some]
  | purge _ _ => exact .keep (List.nil_subset _) (by simp)
  | shutdown _ => exact .keep (List.nil_subset _) (by simp)
  | reap _ _ => exact leaseMove_serve B h (by simp) (by simp) (by simp) _
  | beginClose _ => exact leaseMove_serve B h (by simp) (by simp) (by simp) _

end Serve

end Manager
end IsabelleGym
