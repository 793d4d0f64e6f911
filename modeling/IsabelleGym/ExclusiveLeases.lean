import IsabelleGym.LeaseLog
import IsabelleGym.SessionLoss

/-!
# Exclusive leases

Leases are attached by the search of an acquisition and by a registration, and
dropped by releases and closes; evictions, memory relief and recoveries only
take sessions out of the pool. The invariant ties the log to the pool: the lease
of a pooled session is its only outstanding one, no lease is held twice, and an
ended one is held by nobody.
-/

namespace IsabelleGym
namespace Manager

variable {F L : Type} {B : BackendApi F L} {m : Manager F L} {log : LeaseLog}

/-- The caller of a creation or an acquisition draws a lease id that never occurred before. -/
def FreshLease (x : Manager F L × LeaseLog) (e : ManagerEvent F) : Prop :=
  ∀ lease, e.draws = some lease → ∀ entry ∈ x.2, entry.lease ≠ lease

/-- Behind a step every session in the pool has at most one outstanding lease, and two grants of
a session have a release of the first lease between them; and the step does nothing where it
presents a lease that was released or closed before. -/
structure Exclusive (B : BackendApi F L) (x : Manager F L × LeaseLog) (e : ManagerEvent F) :
    Prop where
  atMostOne : ∀ sid ∈ (leaseStep B x e).1.server.lru,
    ((leaseStep B x e).2.outstanding sid).length ≤ 1
  separated : (leaseStep B x e).2.Separated
  refused : ∀ stage sid lease, .ended stage sid lease ∈ x.2 → e.presents = some lease →
    (x.1.step B e).server = x.1.server

/-- A creation under way carries the lease, or a session in the pool has it. -/
def Holds (m : Manager F L) (sid : SessionId) (lease : LeaseId) : Prop :=
  (∃ c, m.creations sid = some c ∧ c.lease = some lease) ∨
    sid ∈ m.server.lru ∧ m.server.leaseOf sid = some lease

/-- The session that an event with a lease id of its own is about. -/
def receiver (m : Manager F L) : ManagerEvent F → Option SessionId
  | .createSession sid _ _ => some sid
  | .serve (.acquireSession _ key reuseDirty) => m.server.findReusable key reuseDirty
  | _ => none

structure Ledger (m : Manager F L) (log : LeaseLog) : Prop where
  pool : m.PoolBound
  current : ∀ sid ∈ m.server.lru, log.outstanding sid = (m.server.leaseOf sid).toList
  unknown : ∀ sid, m.server.sessions sid = none → log.outstanding sid = []
  unique : ∀ sid n lease, m.Holds sid lease → m.Holds n lease → sid = n
  recorded : ∀ sid lease, m.Holds sid lease → ∃ entry ∈ log, entry.lease = lease
  retired : ∀ stage sid n lease, .ended stage n lease ∈ log → ¬ m.Holds sid lease
  closed : ∀ stage sid lease, .ended stage sid lease ∈ log →
    m.server.sessions sid ≠ none ∧ (stage = .releasing ∨ sid ∉ m.server.lru)
  separated : log.Separated

theorem ledger_initial (poolSize idleTimeout maxLeaseAge : ℕ) :
    Ledger ({ server := { poolSize }, idleTimeout, maxLeaseAge } : Manager F L) [] where
  pool := poolBound_initial poolSize idleTimeout maxLeaseAge
  current := by simp
  unknown := by simp
  unique := by simp [Holds]
  recorded := by simp [Holds]
  retired := by simp
  closed := by simp
  separated := LeaseLog.separated_nil

/-- A lease is held from the step on that draws it, and by the same session. -/
theorem holds_step (h : m.PoolBound) {e : ManagerEvent F} {sid : SessionId} {lease : LeaseId}
    (hholds : (m.step B e).Holds sid lease) :
    m.Holds sid lease ∨ e.draws = some lease ∧ m.receiver e = some sid ∧
      ∃ entry ∈ leaseEntries B m e, entry.lease = lease := by
  rcases hholds with ⟨c', hc', hlease⟩ | ⟨hin, hlease⟩
  · rcases continues_step B m e sid c' hc' with ⟨c, hc, hsame, _⟩ | ⟨rfl, _⟩
    · exact Or.inl (Or.inl ⟨c, hc, hsame ▸ hlease⟩)
    · refine Or.inr ⟨hlease, rfl, .drawn sid lease, ?_, rfl⟩
      simp [leaseEntries, hlease]
  · have hmove := lease_step B h e
    generalize (m.step B e).server = s' at hmove hin hlease
    generalize hentries : leaseEntries B m e = entries at hmove ⊢
    cases hmove with
    | keep hsub hkept =>
      rw [hkept sid hin] at hlease
      exact Or.inl (Or.inr ⟨hsub hin, hlease⟩)
    | draw hsame =>
      subst hsame
      exact Or.inl (Or.inr ⟨hin, hlease⟩)
    | @grant n l key reuseDirty hn hfree hsub hgranted hother =>
      by_cases hsid : sid = n
      · subst hsid
        obtain rfl : l = lease := Option.some.inj (hgranted.symm.trans hlease)
        refine Or.inr ⟨rfl, ?_, _, List.mem_singleton_self _, rfl⟩
        have hmem : LeaseEntry.granted sid l ∈ leaseEntries B m
            (.serve (.acquireSession l key reuseDirty)) := by
          rw [hentries]
          exact List.mem_singleton_self _
        simp only [leaseEntries] at hmem
        split_ifs at hmem
        · cases hmem
        · simpa [receiver, eq_comm] using hmem
      · rw [hother sid hsid] at hlease
        exact Or.inl (Or.inr ⟨hsub hin, hlease⟩)
    | @drop _ n l _ _ hsub hnone hother _ =>
      by_cases hsid : sid = n
      · rw [hsid, hnone] at hlease
        cases hlease
      · rw [hother sid hsid] at hlease
        exact Or.inl (Or.inr ⟨hsub hin, hlease⟩)
    | @enter n c hc _ hentered hold hother =>
      by_cases hsid : sid = n
      · subst hsid
        exact Or.inl (Or.inl ⟨c, hc, hentered.symm.trans hlease⟩)
      · rw [hother sid hsid] at hlease
        exact Or.inl (Or.inr ⟨(hold sid hin).resolve_right hsid, hlease⟩)

theorem sessions_none_of_step {e : ManagerEvent F} {sid : SessionId}
    (h : (m.step B e).server.sessions sid = none) : m.server.sessions sid = none := by
  by_contra hknown
  have hmove := server_step B m e
  generalize (m.step B e).server = s' at hmove h
  cases hmove with
  | same => exact hknown h
  | purge _ _ => exact hknown h
  | shutdown _ => exact hknown h
  | serve | register | reap | beginClose => exact Server.sessions_kept B _ hknown h

section Step

variable (h : m.Ledger log)
include h

theorem Ledger.not_holds_fresh {e : ManagerEvent F} (hfresh : FreshLease (m, log) e)
    {lease : LeaseId} (hdraws : e.draws = some lease) (sid : SessionId) : ¬ m.Holds sid lease := by
  intro hholds
  obtain ⟨entry, hentry, hlease⟩ := h.recorded sid lease hholds
  exact hfresh lease hdraws entry hentry hlease

theorem Ledger.current_step (e : ManagerEvent F) {sid : SessionId}
    (hin : sid ∈ (m.step B e).server.lru) :
    LeaseLog.outstanding sid (leaseEntries B m e ++ log) =
      ((m.step B e).server.leaseOf sid).toList := by
  have hmove := lease_step B h.pool e
  generalize (m.step B e).server = s' at hmove hin ⊢
  generalize leaseEntries B m e = entries at hmove ⊢
  cases hmove with
  | keep hsub hkept =>
    rw [List.nil_append, hkept sid hin]
    exact h.current sid (hsub hin)
  | draw hsame =>
    subst hsame
    exact h.current sid hin
  | @grant n lease _ _ hn hfree hsub hgranted hother =>
    by_cases hsid : n = sid
    · subst hsid
      rw [List.singleton_append, LeaseLog.outstanding_granted_self, h.current n hn, hfree, hgranted]
      rfl
    · rw [List.singleton_append, LeaseLog.outstanding_granted_of_ne hsid,
        hother sid (Ne.symm hsid)]
      exact h.current sid (hsub hin)
  | @drop _ n lease hn hheld hsub hnone hother _ =>
    by_cases hsid : n = sid
    · subst hsid
      rw [List.singleton_append, LeaseLog.outstanding_ended_self, h.current n hn, hheld, hnone]
      simp
    · rw [List.singleton_append, LeaseLog.outstanding_ended_of_ne hsid, hother sid (Ne.symm hsid)]
      exact h.current sid (hsub hin)
  | @enter n c hc _ hentered hold hother =>
    by_cases hsid : n = sid
    · subst hsid
      have hnew := h.unknown n (h.pool.creating n c hc)
      rw [hentered]
      cases c.lease with
      | none => exact hnew
      | some lease => simp [hnew]
    · have hin' := (hold sid hin).resolve_right (Ne.symm hsid)
      rw [hother sid (Ne.symm hsid), ← h.current sid hin']
      cases c.lease with
      | none => rfl
      | some lease => simp [LeaseLog.outstanding_granted_of_ne hsid]

theorem Ledger.unknown_step (e : ManagerEvent F) {sid : SessionId}
    (hnone : (m.step B e).server.sessions sid = none) :
    LeaseLog.outstanding sid (leaseEntries B m e ++ log) = [] := by
  have hbefore := sessions_none_of_step hnone
  have hempty := h.unknown sid hbefore
  have hout : ∀ {n : SessionId}, n ∈ m.server.lru → n ≠ sid := by
    rintro n hn rfl
    exact h.pool.known n hn hbefore
  have hmove := lease_step B h.pool e
  generalize hs' : (m.step B e).server = s' at hmove hnone
  generalize leaseEntries B m e = entries at hmove ⊢
  cases hmove with
  | keep _ _ => exact hempty
  | draw _ => exact hempty
  | grant hn _ _ _ _ =>
    rw [List.singleton_append, LeaseLog.outstanding_granted_of_ne (hout hn)]
    exact hempty
  | drop hn _ _ _ _ _ =>
    rw [List.singleton_append, LeaseLog.outstanding_ended_of_ne (hout hn)]
    exact hempty
  | @enter n c hc hentered _ _ _ =>
    have hne : n ≠ sid := by
      rintro rfl
      rw [← hs'] at hentered hnone
      exact (h.pool.step B _).known n hentered hnone
    cases c.lease with
    | none => exact hempty
    | some lease =>
      simpa [LeaseLog.outstanding_granted_of_ne hne] using hempty

theorem Ledger.separated_step (e : ManagerEvent F) :
    LeaseLog.Separated (leaseEntries B m e ++ log) := by
  have hmove := lease_step B h.pool e
  generalize (m.step B e).server = s' at hmove
  generalize leaseEntries B m e = entries at hmove ⊢
  cases hmove with
  | keep _ _ => exact h.separated
  | draw _ => exact h.separated.cons (by simp)
  | @grant sid lease _ _ hn hfree _ _ _ =>
    refine h.separated.cons fun n l hentry => ?_
    obtain ⟨rfl, rfl⟩ := LeaseEntry.granted.inj hentry
    refine ⟨?_, fun stage l hended => ?_⟩
    · rw [h.current sid hn, hfree]
      rfl
    · exact (h.closed stage sid l hended).2.resolve_right fun hout => hout hn
  | drop _ _ _ _ _ _ => exact h.separated.cons (by simp)
  | @enter sid c hc _ _ _ _ =>
    cases c.lease with
    | none => exact h.separated
    | some lease =>
      refine h.separated.cons fun n l hentry => ?_
      obtain ⟨rfl, rfl⟩ := LeaseEntry.granted.inj hentry
      have hnone := h.pool.creating sid c hc
      exact ⟨h.unknown sid hnone, fun stage l hended =>
        absurd hnone (h.closed stage sid l hended).1⟩

theorem Ledger.unique_step {e : ManagerEvent F} (hfresh : FreshLease (m, log) e)
    {sid n : SessionId} {lease : LeaseId} (hsid : (m.step B e).Holds sid lease)
    (hn : (m.step B e).Holds n lease) : sid = n := by
  rcases holds_step h.pool hsid with hold | ⟨hdraws, hreceives, _⟩
  · rcases holds_step h.pool hn with hold' | ⟨hdraws, _⟩
    · exact h.unique sid n lease hold hold'
    · exact absurd hold (h.not_holds_fresh hfresh hdraws sid)
  · rcases holds_step h.pool hn with hold' | ⟨_, hreceives', _⟩
    · exact absurd hold' (h.not_holds_fresh hfresh hdraws n)
    · exact Option.some.inj (hreceives.symm.trans hreceives')

theorem Ledger.recorded_step {e : ManagerEvent F} {sid : SessionId} {lease : LeaseId}
    (hholds : (m.step B e).Holds sid lease) :
    ∃ entry ∈ leaseEntries B m e ++ log, entry.lease = lease := by
  rcases holds_step h.pool hholds with hold | ⟨_, _, entry, hentry, hlease⟩
  · obtain ⟨entry, hentry, hlease⟩ := h.recorded sid lease hold
    exact ⟨entry, List.mem_append_right _ hentry, hlease⟩
  · exact ⟨entry, List.mem_append_left _ hentry, hlease⟩

/-- A lease that the step ends was held by its session alone, which holds it no more. -/
theorem Ledger.not_holds_ended {e : ManagerEvent F} {stage : LeaseEndStage} {sid n : SessionId}
    {lease : LeaseId} (hended : .ended stage n lease ∈ leaseEntries B m e) :
    ¬ (m.step B e).Holds sid lease := by
  intro hholds
  have hmove := lease_step B h.pool e
  have hcontinues := continues_step B m e
  have hbefore := holds_step h.pool hholds
  generalize leaseEntries B m e = entries at hmove hended hbefore
  generalize hm' : m.step B e = m' at hmove hholds hcontinues
  cases hmove with
  | keep _ _ => cases hended
  | draw _ => simp at hended
  | grant _ _ _ _ _ => simp at hended
  | enter _ _ _ _ _ => simp at hended
  | @drop _ n' l hn hheld _ hnone _ _ =>
    obtain ⟨rfl, rfl, rfl⟩ := LeaseEntry.ended.inj (List.mem_singleton.mp hended)
    have hold : m.Holds sid lease := by
      rcases hbefore with hold | ⟨hdraws, _⟩
      · exact hold
      · cases hdraws
    obtain rfl := h.unique sid n lease hold (Or.inr ⟨hn, hheld⟩)
    rcases hholds with ⟨c', hc', _⟩ | ⟨_, hlease⟩
    · rcases hcontinues sid c' hc' with ⟨c, hc, _⟩ | ⟨he, _⟩
      · exact h.pool.not_mem hc hn
      · cases he
    · rw [hnone] at hlease
      cases hlease

theorem Ledger.retired_step {e : ManagerEvent F} (hfresh : FreshLease (m, log) e)
    {stage : LeaseEndStage} {sid n : SessionId} {lease : LeaseId}
    (hended : .ended stage n lease ∈ leaseEntries B m e ++ log) :
    ¬ (m.step B e).Holds sid lease := by
  rcases List.mem_append.mp hended with hnow | hearlier
  · exact h.not_holds_ended hnow
  · intro hholds
    rcases holds_step h.pool hholds with hold | ⟨hdraws, _⟩
    · exact h.retired stage sid n lease hearlier hold
    · exact hfresh lease hdraws _ hearlier rfl

/-- A session that a close took out of the pool does not come back. -/
theorem Ledger.closed_step (e : ManagerEvent F) {stage : LeaseEndStage} {sid : SessionId}
    {lease : LeaseId} (hended : .ended stage sid lease ∈ leaseEntries B m e ++ log) :
    (m.step B e).server.sessions sid ≠ none ∧
      (stage = .releasing ∨ sid ∉ (m.step B e).server.lru) := by
  have hkept : m.server.sessions sid ≠ none → (m.step B e).server.sessions sid ≠ none :=
    fun hknown hnone => hknown (sessions_none_of_step hnone)
  have hmove := lease_step B h.pool e
  generalize (m.step B e).server = s' at hmove hkept ⊢
  generalize leaseEntries B m e = entries at hmove hended
  have hold : .ended stage sid lease ∈ log → (sid ∉ m.server.lru → sid ∉ s'.lru) →
      s'.sessions sid ≠ none ∧ (stage = .releasing ∨ sid ∉ s'.lru) := fun hearlier hout =>
    ⟨hkept (h.closed stage sid lease hearlier).1,
      (h.closed stage sid lease hearlier).2.imp_right hout⟩
  cases hmove with
  | keep hsub _ => exact hold hended fun hout hin => hout (hsub hin)
  | draw hsame =>
    subst hsame
    exact hold (by simpa using hended) id
  | grant _ _ hsub _ _ => exact hold (by simpa using hended) fun hout hin => hout (hsub hin)
  | drop hn _ hsub _ _ hgone =>
    rcases List.mem_cons.mp hended with hnow | hearlier
    · obtain ⟨rfl, rfl, rfl⟩ := LeaseEntry.ended.inj hnow
      exact ⟨hkept (h.pool.known _ hn), hgone⟩
    · exact hold hearlier fun hout hin => hout (hsub hin)
  | enter hc _ _ hentered _ =>
    have hearlier : .ended stage sid lease ∈ log := by simpa using hended
    refine hold hearlier fun hout hin => ?_
    rcases hentered sid hin with hin' | rfl
    · exact hout hin'
    · exact (h.closed stage sid lease hearlier).1 (h.pool.creating sid _ hc)

theorem Ledger.step {e : ManagerEvent F} (hfresh : FreshLease (m, log) e) :
    (m.step B e).Ledger (leaseEntries B m e ++ log) where
  pool := h.pool.step B e
  current _ hin := h.current_step e hin
  unknown _ hnone := h.unknown_step e hnone
  unique _ _ _ hsid hn := h.unique_step hfresh hsid hn
  recorded _ _ hholds := h.recorded_step hholds
  retired _ _ _ _ hended := h.retired_step hfresh hended
  closed _ _ _ hended := h.closed_step e hended
  separated := h.separated_step e

/-- Who does not hold the lease of the session is turned away. -/
theorem Ledger.refused {e : ManagerEvent F} {stage : LeaseEndStage} {n : SessionId}
    {lease : LeaseId} (hended : .ended stage n lease ∈ log) (hpresents : e.presents = some lease) :
    (m.step B e).server = m.server := by
  have husable : ∀ sid, m.server.usable sid (some lease) = false := by
    intro sid
    by_contra husable
    obtain ⟨hin, x, hx, hlease⟩ := Server.exists_of_usable (by simpa using husable)
    refine h.retired stage sid n lease hended (Or.inr ⟨hin, ?_⟩)
    simpa [Server.leaseOf, hx] using hlease
  have hlocked : m.server.locked m.server = m.server := by
    unfold Server.locked
    split_ifs <;> rfl
  cases e with
  | serve e =>
    cases e with
    | getSession sid l method =>
      obtain rfl := Option.some.inj hpresents
      simp [Manager.step, allows, serve, Server.step, Server.getSession, husable, hlocked]
    | releaseSession sid l =>
      obtain rfl := Option.some.inj hpresents
      simp [Manager.step, allows, serve, Server.step, Server.beginLeaseEnd, husable, hlocked]
    | closeSession sid l =>
      obtain rfl : l = some lease := hpresents
      simp [Manager.step, allows, serve, Server.step, Server.beginLeaseEnd, husable, hlocked]
    | _ => cases hpresents
  | _ => cases hpresents

theorem Ledger.exclusive {e : ManagerEvent F} : Exclusive B (m, log) e where
  atMostOne sid hin := by
    have hcurrent := h.current_step (B := B) e hin
    simp only [leaseStep, Runs.logged] at hin ⊢
    rw [hcurrent]
    cases (m.step B e).server.leaseOf sid with
    | none => exact Nat.zero_le 1
    | some lease => exact Nat.le_refl 1
  separated := h.separated_step e
  refused _ _ _ hended hpresents := h.refused hended hpresents

end Step

/-- In every run whose callers draw fresh lease ids, the leases are exclusive. -/
theorem leases_exclusive (B : BackendApi F L) (poolSize idleTimeout maxLeaseAge : ℕ)
    (events : List (ManagerEvent F))
    (h : Runs.EveryStep (leaseStep B) FreshLease
      ({ server := { poolSize }, idleTimeout, maxLeaseAge }, []) events) :
    Runs.EveryStep (leaseStep B) (Exclusive B)
      ({ server := { poolSize }, idleTimeout, maxLeaseAge }, []) events :=
  Runs.everyStep_of_invariant
    (fun x _ (hx : Ledger x.1 x.2) hfresh => hx.step hfresh)
    (fun _ _ hx _ => hx.exclusive)
    (ledger_initial poolSize idleTimeout maxLeaseAge) h

section Example

/-- A session is created with a lease, released, leased again, and its first lease presented. -/
def reuseEvents : List (ManagerEvent BackendFn) :=
  createEvents 0 "a" [.startGateway true] ++
    [.serve (.releaseSession 0 "a"), .serve .continueLeaseEnd,
      .serve (.acquireSession "b" "k" true), .serve (.closeSession 0 (some "a"))]

theorem leases_exclusive_reuse :
    Runs.EveryStep (leaseStep Server.wordBackend) (Exclusive Server.wordBackend)
      ({ server := { poolSize := 1 }, idleTimeout := 1800, maxLeaseAge := 7200 }, [])
      reuseEvents := by
  have hnone : ∀ {x : Manager BackendFn ReplSession × LeaseLog} {e : ManagerEvent BackendFn},
      e.draws = none → FreshLease x e := by
    intro x e he lease hdraws
    rw [he] at hdraws
    cases hdraws
  refine leases_exclusive Server.wordBackend 1 1800 7200 reuseEvents
    ⟨?_, hnone rfl, hnone rfl, hnone rfl, hnone rfl, hnone rfl, hnone rfl, hnone rfl, hnone rfl,
      hnone rfl, ?_, hnone rfl, trivial⟩
  · rintro lease _ entry ⟨⟩
  · rintro lease ⟨⟩
    decide

end Example

end Manager
end IsabelleGym
