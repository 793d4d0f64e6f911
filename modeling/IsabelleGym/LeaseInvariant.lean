import IsabelleGym.Runs
import IsabelleGym.ServerSteps

/-!
# The invariant of the leases

Open requests and jobs stay under the lease of their session, the request
counter counts the requests inside their accounting, and a session outside the
pool has nothing left to do. A release looks at the counter only, so the
invariant needs that nothing escapes the counter when a lease ends.
-/

namespace IsabelleGym
namespace Server

variable {F L : Type} (s : Server F L)

/-- Every open request of the session is counted, and every queued or running job is still
awaited. -/
structure Accounted (sid : SessionId) : Prop where
  counted : ∀ c ∈ s.calls, c.session = sid → c.isOpen = true → c.isHeld = true
  awaited : ∀ x, s.sessions sid = some x → ∀ j ∈ x.jobs,
    ∃ c, s.calls[j.call]? = some c ∧ c.isWaiting = true

/-- A release or a close that passes its checks finds all requests of the session accounted. -/
def EndsAccounted : Event F → Prop
  | .releaseSession sid lease =>
    s.leaseEnd = none → s.usable sid (some lease) = true → s.inUse sid = false → s.Accounted sid
  | .closeSession sid lease =>
    s.leaseEnd = none → s.usable sid lease = true → s.inUse sid = false → s.Accounted sid
  | _ => True

structure Quiet (sid : SessionId) : Prop where
  calls : ∀ c ∈ s.calls, c.session = sid → c.isOpen = false
  jobs : ∀ x, s.sessions sid = some x → x.jobs = []

/-- Open requests and jobs are under the lease of their session, the counter counts, and
nothing is left to do for a session outside the pool or one whose lease is being ended. -/
structure LeaseInv : Prop where
  exists_session : ∀ c ∈ s.calls, (s.sessions c.session).isSome = true
  openCall : ∀ c ∈ s.calls, c.isOpen = true → ∀ x, s.sessions c.session = some x →
    x.lease = some c.lease
  job : ∀ sid x, s.sessions sid = some x → ∀ j ∈ x.jobs,
    ∃ c, s.calls[j.call]? = some c ∧ c.session = sid ∧ x.lease = some c.lease
  counted : ∀ sid x, s.sessions sid = some x →
    x.activeRequests = s.calls.countP fun c => decide (c.session = sid) && c.isHeld
  unpooled : ∀ sid, sid ∉ s.lru → s.Quiet sid
  ending : ∀ e, s.leaseEnd = some e → s.Quiet e.session

theorem leaseInv_initial (poolSize : ℕ) : ({ poolSize } : Server F L).LeaseInv where
  exists_session := by simp
  openCall := by simp
  job := by simp
  counted := by simp
  unpooled _ _ := ⟨by simp, by simp⟩
  ending := by simp

variable {s}

theorem sessions_isSome_modifySession (sid : SessionId) (f : Session F L → Session F L)
    (n : SessionId) :
    ((s.modifySession sid f).sessions n).isSome = (s.sessions n).isSome := by
  by_cases hn : n = sid
  · subst hn
    simp [modifySession]
  · simp [modifySession, Function.update_of_ne hn]

/-- A change of a session that touches neither its lease nor its counter and adds no job. -/
theorem LeaseInv.modifySession (h : s.LeaseInv) (sid : SessionId)
    (f : Session F L → Session F L) (hlease : ∀ x, (f x).lease = x.lease)
    (hcount : ∀ x, (f x).activeRequests = x.activeRequests)
    (hjobs : ∀ x, s.sessions sid = some x → ∀ j ∈ (f x).jobs, j ∈ x.jobs) :
    (s.modifySession sid f).LeaseInv := by
  have hlease' : ∀ n (y : Session F L), (if n = sid then f y else y).lease = y.lease := by
    intro n y
    split_ifs
    · exact hlease y
    · rfl
  have hjobs' : ∀ n y, s.sessions n = some y → ∀ j ∈ (if n = sid then f y else y).jobs,
      j ∈ y.jobs := by
    intro n y hy j hj
    split_ifs at hj with hn
    · subst hn
      exact hjobs y hy j hj
    · exact hj
  have hquiet : ∀ n, s.Quiet n → (s.modifySession sid f).Quiet n := by
    intro n hq
    refine ⟨hq.calls, fun x hx => ?_⟩
    obtain ⟨y, hy, rfl⟩ := sessions_modifySession sid f hx
    refine List.eq_nil_iff_forall_not_mem.mpr fun j hj => ?_
    have hmem := hjobs' n y hy j hj
    rw [hq.jobs y hy] at hmem
    cases hmem
  constructor
  · intro c hc
    rw [sessions_isSome_modifySession]
    exact h.exists_session c hc
  · intro c hc ho x hx
    obtain ⟨y, hy, rfl⟩ := sessions_modifySession sid f hx
    rw [hlease']
    exact h.openCall c hc ho y hy
  · intro n x hx j hj
    obtain ⟨y, hy, rfl⟩ := sessions_modifySession sid f hx
    rw [hlease']
    exact h.job n y hy j (hjobs' n y hy j hj)
  · intro n x hx
    obtain ⟨y, hy, rfl⟩ := sessions_modifySession sid f hx
    have hcount' : (if n = sid then f y else y).activeRequests = y.activeRequests := by
      split_ifs
      · exact hcount y
      · rfl
    rw [hcount']
    exact h.counted n y hy
  · exact fun n hn => hquiet n (h.unpooled n hn)
  · exact fun e he => hquiet e.session (h.ending e he)

structure Continues (c c' : Call F) : Prop where
  session : c'.session = c.session
  lease : c'.lease = c.lease
  isOpen : c'.isOpen = true → c.isOpen = true

theorem getElem?_setCall {i : ℕ} {c' : Call F} {k : ℕ} {d : Call F}
    (h : s.calls[k]? = some d) :
    (s.setCall i c').calls[k]? = some (if i = k then c' else d) := by
  by_cases hk : i = k
  · subst hk
    simp [setCall, (List.getElem?_eq_some_iff.mp h).1]
  · simp [setCall, hk, h]

theorem Quiet.setCall {sid : SessionId} (h : s.Quiet sid) {i : ℕ} {c c' : Call F}
    (hc : s.calls[i]? = some c) (hcont : Continues c c') : (s.setCall i c').Quiet sid := by
  refine ⟨fun d hd hs => ?_, h.jobs⟩
  rcases List.mem_or_eq_of_mem_set hd with hmem | rfl
  · exact h.calls d hmem hs
  · by_contra ho
    have hopen := hcont.isOpen (by simpa using ho)
    rw [h.calls c (List.mem_of_getElem? hc) (hcont.session ▸ hs)] at hopen
    cases hopen

theorem LeaseInv.setCall (h : s.LeaseInv) {i : ℕ} {c c' : Call F} (hc : s.calls[i]? = some c)
    (hcont : Continues c c') (hheld : c'.isHeld = c.isHeld) : (s.setCall i c').LeaseInv := by
  have hmem := List.mem_of_getElem? hc
  constructor
  · intro d hd
    rcases List.mem_or_eq_of_mem_set hd with hd | rfl
    · exact h.exists_session d hd
    · rw [hcont.session]
      exact h.exists_session c hmem
  · intro d hd ho x hx
    rcases List.mem_or_eq_of_mem_set hd with hd | rfl
    · exact h.openCall d hd ho x hx
    · rw [hcont.lease]
      rw [hcont.session] at hx
      exact h.openCall c hmem (hcont.isOpen ho) x hx
  · intro sid x hx j hj
    obtain ⟨d, hd, hs, hl⟩ := h.job sid x hx j hj
    refine ⟨_, getElem?_setCall hd, ?_⟩
    split_ifs with hk
    · subst hk
      obtain rfl := Option.some.inj (hc.symm.trans hd)
      exact ⟨hcont.session.trans hs, by rw [hl, hcont.lease]⟩
    · exact ⟨hs, hl⟩
  · intro sid x hx
    have hcount := Runs.countP_set_add (fun c => decide (c.session = sid) && c.isHeld) hc c'
    simp only [hcont.session, hheld] at hcount
    rw [h.counted sid x hx]
    exact (Nat.add_right_cancel hcount).symm
  · exact fun sid hsid => (h.unpooled sid hsid).setCall hc hcont
  · exact fun e he => (h.ending e he).setCall hc hcont

theorem LeaseInv.settleCall (h : s.LeaseInv) (i : ℕ) (raises : Bool) :
    (s.settleCall i raises).LeaseInv := by
  unfold Server.settleCall
  cases hc : s.calls[i]? with
  | none => exact h
  | some c =>
    rcases c with ⟨sid, lease, accounting, body, phase⟩
    cases phase with
    | waiting caught =>
      refine h.setCall hc ⟨?_, ?_, fun _ => rfl⟩ ?_ <;>
        cases raises <;> rfl
    | ready => exact h.setCall hc ⟨rfl, rfl, id⟩ rfl
    | submitting fn caught => exact h.setCall hc ⟨rfl, rfl, id⟩ rfl

theorem LeaseInv.quiet_of_unleased (h : s.LeaseInv) {sid : SessionId}
    (hlease : ∀ x, s.sessions sid = some x → x.lease = none) : s.Quiet sid := by
  constructor
  · rintro c hc rfl
    obtain ⟨x, hx⟩ := Option.isSome_iff_exists.mp (h.exists_session c hc)
    by_contra ho
    have hleased := h.openCall c hc (by simpa using ho) x hx
    rw [hlease x hx] at hleased
    cases hleased
  · intro x hx
    refine List.eq_nil_iff_forall_not_mem.mpr fun j hj => ?_
    obtain ⟨c, _, _, hleased⟩ := h.job sid x hx j hj
    rw [hlease x hx] at hleased
    cases hleased

theorem LeaseInv.quiet_of_leased_eq_false (h : s.LeaseInv) {sid : SessionId}
    (hl : s.leased sid = false) : s.Quiet sid := by
  refine h.quiet_of_unleased fun x hx => ?_
  simpa [leased, hx] using hl

/-- Once all requests of a session that is not in use are accounted, nothing is left to do. -/
theorem LeaseInv.quiet_of_accounted (h : s.LeaseInv) {sid : SessionId}
    (hx : (s.sessions sid).isSome = true) (hu : s.inUse sid = false) (ha : s.Accounted sid) :
    s.Quiet sid := by
  obtain ⟨x, hx⟩ := Option.isSome_iff_exists.mp hx
  have hzero : x.activeRequests = 0 := by simpa [inUse, Session.inUse, hx] using hu
  have hcalls : ∀ c ∈ s.calls, c.session = sid → c.isOpen = false := by
    intro c hc hs
    by_contra ho
    have hheld := ha.counted c hc hs (by simpa using ho)
    have hcount := h.counted sid x hx
    rw [hzero] at hcount
    have hnot := List.countP_eq_zero.mp hcount.symm c hc
    simp [hs, hheld] at hnot
  refine ⟨hcalls, fun y hy => ?_⟩
  refine List.eq_nil_iff_forall_not_mem.mpr fun j hj => ?_
  obtain ⟨c, hc, hwait⟩ := ha.awaited y hy j hj
  obtain ⟨d, hd, hs, _⟩ := h.job sid y hy j hj
  obtain rfl := Option.some.inj (hc.symm.trans hd)
  have hclosed := hcalls c (List.mem_of_getElem? hc) hs
  rcases c with ⟨csid, lease, accounting, body, phase⟩
  cases phase <;> simp [Call.isWaiting, Call.isOpen, Call.isReady] at hwait hclosed

theorem LeaseInv.withLru (h : s.LeaseInv) {lru : List SessionId}
    (hlru : ∀ sid, sid ∉ lru → s.Quiet sid) : ({ s with lru } : Server F L).LeaseInv where
  exists_session := h.exists_session
  openCall := h.openCall
  job := h.job
  counted := h.counted
  unpooled sid hsid := ⟨(hlru sid hsid).calls, (hlru sid hsid).jobs⟩
  ending e he := ⟨(h.ending e he).calls, (h.ending e he).jobs⟩

theorem LeaseInv.withLeaseEnd (h : s.LeaseInv) {leaseEnd : Option LeaseEnd}
    (hend : ∀ e, leaseEnd = some e → s.Quiet e.session) :
    ({ s with leaseEnd } : Server F L).LeaseInv where
  exists_session := h.exists_session
  openCall := h.openCall
  job := h.job
  counted := h.counted
  unpooled sid hsid := ⟨(h.unpooled sid hsid).calls, (h.unpooled sid hsid).jobs⟩
  ending e he := ⟨(hend e he).calls, (hend e he).jobs⟩

theorem mem_erase_or_eq (sid : SessionId) {sid' : SessionId} {lru : List SessionId}
    (h : sid' ∈ lru) :
    sid' ∈ lru.erase sid ∨ sid' = sid := by
  by_cases heq : sid' = sid
  · exact Or.inr heq
  · exact Or.inl ((List.mem_erase_of_ne heq).mpr h)

theorem LeaseInv.moveToEnd (h : s.LeaseInv) (sid : SessionId) : (s.moveToEnd sid).LeaseInv := by
  refine h.withLru fun n hn => h.unpooled n fun hmem => hn ?_
  rcases mem_erase_or_eq sid hmem with herase | rfl
  · exact List.mem_append_left _ herase
  · simp

theorem LeaseInv.eraseLru (h : s.LeaseInv) {sid : SessionId} (hq : s.Quiet sid) :
    ({ s with lru := s.lru.erase sid } : Server F L).LeaseInv := by
  refine h.withLru fun n hn => ?_
  by_cases hmem : n ∈ s.lru
  · rcases mem_erase_or_eq sid hmem with herase | rfl
    · exact absurd herase hn
    · exact hq
  · exact h.unpooled n hmem

theorem LeaseInv.setLease (h : s.LeaseInv) {sid : SessionId} (hq : s.Quiet sid)
    (lease : Option LeaseId) : (s.modifySession sid fun x => { x with lease }).LeaseInv := by
  have hquiet : ∀ n, s.Quiet n → (s.modifySession sid fun x => { x with lease }).Quiet n := by
    intro n hn
    refine ⟨hn.calls, fun x hx => ?_⟩
    obtain ⟨y, hy, rfl⟩ := sessions_modifySession sid _ hx
    split_ifs <;> exact hn.jobs y hy
  constructor
  · intro c hc
    rw [sessions_isSome_modifySession]
    exact h.exists_session c hc
  · intro c hc ho x hx
    obtain ⟨y, hy, rfl⟩ := sessions_modifySession sid _ hx
    split_ifs with hs
    · rw [hq.calls c hc hs] at ho
      cases ho
    · exact h.openCall c hc ho y hy
  · intro n x hx j hj
    obtain ⟨y, hy, rfl⟩ := sessions_modifySession sid _ hx
    split_ifs at hj ⊢ with hn
    · subst hn
      have hnone := hq.jobs y hy
      simp only [Session.jobs] at hj hnone
      rw [hnone] at hj
      cases hj
    · exact h.job n y hy j hj
  · intro n x hx
    obtain ⟨y, hy, rfl⟩ := sessions_modifySession sid _ hx
    split_ifs <;> exact h.counted n y hy
  · exact fun n hn => hquiet n (h.unpooled n hn)
  · exact fun e he => hquiet e.session (h.ending e he)

/-- A request that is counted or no longer counted, together with the counter. -/
theorem LeaseInv.recount (h : s.LeaseInv) {i : ℕ} {c c' : Call F} (hc : s.calls[i]? = some c)
    (hcont : Continues c c') {g : ℕ → ℕ}
    (hg : ∀ k, k - (if c.isHeld then 1 else 0) + (if c'.isHeld then 1 else 0) = g k) :
    ((s.modifySession c.session fun x => { x with activeRequests := g x.activeRequests }).setCall i
      c').LeaseInv := by
  have hmem := List.mem_of_getElem? hc
  have hquiet : ∀ n, s.Quiet n → ((s.modifySession c.session fun x =>
      { x with activeRequests := g x.activeRequests }).setCall i c').Quiet n := by
    intro n hn
    have hq : (s.modifySession c.session fun x =>
        { x with activeRequests := g x.activeRequests }).Quiet n := by
      refine ⟨hn.calls, fun x hx => ?_⟩
      obtain ⟨y, hy, rfl⟩ := sessions_modifySession c.session _ hx
      split_ifs <;> exact hn.jobs y hy
    exact hq.setCall hc hcont
  constructor
  · intro d hd
    rw [Server.setCall, sessions_isSome_modifySession]
    rcases List.mem_or_eq_of_mem_set hd with hd | rfl
    · exact h.exists_session d hd
    · rw [hcont.session]
      exact h.exists_session c hmem
  · intro d hd ho x hx
    obtain ⟨y, hy, rfl⟩ := sessions_modifySession c.session _ hx
    have hlease : y.lease = some d.lease := by
      rcases List.mem_or_eq_of_mem_set hd with hd | rfl
      · exact h.openCall d hd ho y hy
      · rw [hcont.lease]
        rw [hcont.session] at hy
        exact h.openCall c hmem (hcont.isOpen ho) y hy
    split_ifs <;> exact hlease
  · intro n x hx j hj
    obtain ⟨y, hy, rfl⟩ := sessions_modifySession c.session _ hx
    have hj' : j ∈ y.jobs := by split_ifs at hj <;> exact hj
    obtain ⟨d, hd, hs, hl⟩ := h.job n y hy j hj'
    refine ⟨_, getElem?_setCall (s := s.modifySession c.session _) hd, ?_, ?_⟩
    · split_ifs with hk
      · subst hk
        obtain rfl := Option.some.inj (hc.symm.trans hd)
        exact hcont.session.trans hs
      · exact hs
    · have hl' : y.lease = some (if i = j.call then c' else d).lease := by
        split_ifs with hk
        · subst hk
          obtain rfl := Option.some.inj (hc.symm.trans hd)
          rw [hl, hcont.lease]
        · exact hl
      split_ifs at hl' ⊢ <;> exact hl'
  · intro n x hx
    obtain ⟨y, hy, rfl⟩ := sessions_modifySession c.session _ hx
    obtain ⟨hlt, hget⟩ := List.getElem?_eq_some_iff.mp hc
    have hcount := h.counted n y hy
    simp only [Server.setCall, Server.modifySession, List.countP_set hlt, hget, hcont.session]
    rw [← hcount]
    by_cases hn : n = c.session
    · subst hn
      simp only [if_true, decide_true, Bool.true_and]
      exact (hg y.activeRequests).symm
    · have hne : decide (c.session = n) = false := by simpa using fun heq => hn heq.symm
      simp [hn, hne]
  · exact fun n hn => hquiet n (h.unpooled n hn)
  · exact fun e he => hquiet e.session (h.ending e he)

theorem LeaseInv.enqueue (h : s.LeaseInv) {i : ℕ} {c : Call F} (hc : s.calls[i]? = some c) :
    (s.enqueue i c).LeaseInv := by
  unfold Server.enqueue
  split
  case h_2 => exact h
  case h_1 fn caught hphase =>
    have hmem := List.mem_of_getElem? hc
    have hopen : c.isOpen = true := by simp [Call.isOpen, Call.isReady, hphase]
    have hcont : Continues c { c with phase := .waiting caught } := ⟨rfl, rfl, fun _ => hopen⟩
    have hne : ∀ n, s.Quiet n → n ≠ c.session := by
      rintro n hq rfl
      rw [hq.calls c hmem rfl] at hopen
      cases hopen
    have hquiet : ∀ n, s.Quiet n → (s.modifySession c.session fun x =>
        { x with queue := x.queue ++ [⟨fn, i⟩] }).Quiet n := by
      intro n hn
      refine ⟨hn.calls, fun x hx => ?_⟩
      obtain ⟨y, hy, rfl⟩ := sessions_modifySession c.session _ hx
      rw [if_neg (hne n hn)]
      exact hn.jobs y hy
    refine LeaseInv.setCall (c := c) ?_ hc hcont rfl
    constructor
    · intro d hd
      rw [sessions_isSome_modifySession]
      exact h.exists_session d hd
    · intro d hd ho x hx
      obtain ⟨y, hy, rfl⟩ := sessions_modifySession c.session _ hx
      have hl := h.openCall d hd ho y hy
      split_ifs <;> exact hl
    · intro n x hx j hj
      obtain ⟨y, hy, rfl⟩ := sessions_modifySession c.session _ hx
      by_cases hn : n = c.session
      · subst hn
        simp only [if_true, Session.jobs] at hj ⊢
        rcases List.mem_append.mp hj with hrun | hq
        · exact h.job c.session y hy j (List.mem_append_left _ hrun)
        · rcases List.mem_append.mp hq with hold | hnew
          · exact h.job c.session y hy j (List.mem_append_right _ hold)
          · obtain rfl := List.mem_singleton.mp hnew
            exact ⟨c, hc, rfl, h.openCall c hmem hopen y hy⟩
      · rw [if_neg hn] at hj ⊢
        exact h.job n y hy j hj
    · intro n x hx
      obtain ⟨y, hy, rfl⟩ := sessions_modifySession c.session _ hx
      have hcount := h.counted n y hy
      split_ifs <;> exact hcount
    · exact fun n hn => hquiet n (h.unpooled n hn)
    · exact fun e he => hquiet e.session (h.ending e he)

theorem mem_evictExcess (new : SessionId) (fuel : ℕ) {lru : List SessionId} {sid : SessionId}
    (hmem : sid ∈ lru) (hnot : sid ∉ s.evictExcess new fuel lru) :
    sid = new ∨ s.leased sid = false := by
  induction fuel generalizing lru with
  | zero => exact absurd hmem hnot
  | succ fuel ih =>
    unfold evictExcess at hnot
    split_ifs at hnot
    · exact absurd hmem hnot
    · split at hnot
      · exact Or.inl ((mem_erase_or_eq _ hmem).resolve_left hnot)
      · rename_i oldest hfind
        rcases mem_erase_or_eq oldest hmem with herase | rfl
        · exact ih herase hnot
        · have hidle := List.find?_some hfind
          simp only [Bool.and_eq_true, Bool.not_eq_true'] at hidle
          exact Or.inr hidle.2

theorem LeaseInv.createSession (h : s.LeaseInv) (B : BackendApi F L) (sid : SessionId)
    (lease : Option LeaseId) (key : DependencyKey) :
    (s.createSession B sid lease key).LeaseInv := by
  unfold Server.createSession
  split_ifs with hsome
  · exact h
  · have hnone : s.sessions sid = none := by simpa using hsome
    have hcalls : ∀ c ∈ s.calls, c.session ≠ sid := by
      rintro c hc rfl
      have hex := h.exists_session c hc
      rw [hnone] at hex
      cases hex
    dsimp only
    set s' : Server F L := { s with
      sessions := Function.update s.sessions sid
        (some { dependencyKey := key, lease, backend := B.create })
      lru := s.lru ++ [sid] } with hs'
    have hother : ∀ n x, s'.sessions n = some x → n ≠ sid → s.sessions n = some x := by
      intro n x hx hn
      simpa [hs', Function.update_of_ne hn] using hx
    have hnew : s'.Quiet sid := by
      refine ⟨fun c hc hs => absurd hs (hcalls c hc), fun x hx => ?_⟩
      obtain rfl : _ = x := by simpa [hs'] using hx
      rfl
    have hquiet : ∀ n, s.Quiet n → s'.Quiet n := by
      intro n hq
      by_cases hn : n = sid
      · exact hn ▸ hnew
      · exact ⟨hq.calls, fun x hx => hq.jobs x (hother n x hx hn)⟩
    have hinv : s'.LeaseInv := by
      constructor
      · intro c hc
        simpa [hs', Function.update_of_ne (hcalls c hc)] using h.exists_session c hc
      · exact fun c hc ho x hx => h.openCall c hc ho x (hother _ x hx (hcalls c hc))
      · intro n x hx j hj
        by_cases hn : n = sid
        · subst hn
          rw [hnew.jobs x hx] at hj
          cases hj
        · exact h.job n x (hother n x hx hn) j hj
      · intro n x hx
        by_cases hn : n = sid
        · subst hn
          obtain rfl : _ = x := by simpa [hs'] using hx
          refine (List.countP_eq_zero.mpr fun c hc => ?_).symm
          simp [hcalls c hc]
        · exact h.counted n x (hother n x hx hn)
      · exact fun n hn => hquiet n (h.unpooled n fun hmem => hn (List.mem_append_left _ hmem))
      · exact fun e he => hquiet e.session (h.ending e he)
    refine hinv.withLru fun n hn => ?_
    by_cases hmem : n ∈ s'.lru
    · rcases mem_evictExcess sid _ hmem hn with rfl | hl
      · exact hnew
      · exact hinv.quiet_of_leased_eq_false hl
    · exact hinv.unpooled n hmem

theorem LeaseInv.addCall (h : s.LeaseInv) (hlock : s.leaseEnd = none) {c : Call F}
    {y : Session F L} (hy : s.sessions c.session = some y) (hl : y.lease = some c.lease)
    (hin : c.session ∈ s.lru) (hheld : c.isHeld = false) :
    ({ s with calls := s.calls ++ [c] } : Server F L).LeaseInv where
  exists_session d hd := by
    rcases List.mem_append.mp hd with hold | hnew
    · exact h.exists_session d hold
    · obtain rfl := List.mem_singleton.mp hnew
      exact Option.isSome_iff_exists.mpr ⟨y, hy⟩
  openCall d hd ho x hx := by
    rcases List.mem_append.mp hd with hold | hnew
    · exact h.openCall d hold ho x hx
    · obtain rfl := List.mem_singleton.mp hnew
      obtain rfl := Option.some.inj (hy.symm.trans hx)
      exact hl
  job n x hx j hj := by
    obtain ⟨d, hd, hrest⟩ := h.job n x hx j hj
    refine ⟨d, ?_, hrest⟩
    rw [List.getElem?_append_left (List.getElem?_eq_some_iff.mp hd).1, hd]
  counted n x hx := by
    rw [List.countP_append, h.counted n x hx]
    simp [hheld]
  unpooled n hn := by
    have hq := h.unpooled n hn
    refine ⟨fun d hd hs => ?_, hq.jobs⟩
    rcases List.mem_append.mp hd with hold | hnew
    · exact hq.calls d hold hs
    · obtain rfl := List.mem_singleton.mp hnew
      exact absurd (hs ▸ hin) hn
  ending e he := by
    have hnone : s.leaseEnd = some e := he
    rw [hlock] at hnone
    cases hnone

theorem LeaseInv.getSession (h : s.LeaseInv) (hlock : s.leaseEnd = none) (sid : SessionId)
    (lease : LeaseId) (method : Method F) : (s.getSession sid lease method).LeaseInv := by
  unfold Server.getSession
  by_cases husable : s.usable sid (some lease) = true
  · rw [if_pos husable]
    obtain ⟨_, y, hy, hl⟩ := exists_of_usable husable
    refine (h.moveToEnd sid).addCall hlock (y := y) hy (by simpa using hl) ?_ ?_
    · simp [Server.moveToEnd]
    · cases hacc : method.accounted <;> simp [Call.isHeld]
  · rw [if_neg husable]
    exact h

theorem LeaseInv.acquireSession (h : s.LeaseInv) (lease : LeaseId) (key : DependencyKey)
    (reuseDirty : Bool) : (s.acquireSession lease key reuseDirty).LeaseInv := by
  unfold Server.acquireSession
  split
  case h_1 => exact h
  case h_2 sid hfind =>
    have hfree := List.find?_some hfind
    refine (h.setLease (h.quiet_of_unleased fun x hx => ?_) (some lease)).moveToEnd sid
    simp only [hx, Option.any_some, Bool.and_eq_true, Option.isNone_iff_eq_none] at hfree
    exact hfree.1.1.2

theorem LeaseInv.popOldestIdle (h : s.LeaseInv) : s.popOldestIdle.LeaseInv := by
  unfold Server.popOldestIdle
  split
  case h_1 => exact h
  case h_2 sid hfind =>
    have hidle := List.find?_some hfind
    simp only [Bool.and_eq_true, Bool.not_eq_true'] at hidle
    exact h.eraseLru (h.quiet_of_leased_eq_false hidle.2)

theorem LeaseInv.beginLeaseEnd (h : s.LeaseInv) {sid : SessionId} {lease : Option LeaseId}
    (stage : LeaseEndStage)
    (ha : s.usable sid lease = true → s.inUse sid = false → s.Accounted sid) :
    (s.beginLeaseEnd sid lease stage).LeaseInv := by
  unfold Server.beginLeaseEnd
  split_ifs with hchecks
  · simp only [Bool.and_eq_true, Bool.not_eq_true'] at hchecks
    obtain ⟨_, x, hx, _⟩ := exists_of_usable hchecks.1
    refine h.withLeaseEnd fun e he => ?_
    obtain rfl := Option.some.inj he
    exact h.quiet_of_accounted (by simp [hx]) hchecks.2 (ha hchecks.1 hchecks.2)
  · exact h

theorem LeaseInv.inUse_of_quiet (h : s.LeaseInv) {sid : SessionId} (hq : s.Quiet sid) :
    s.inUse sid = false := by
  cases hx : s.sessions sid with
  | none => simp [inUse, hx]
  | some x =>
    have hzero : x.activeRequests = 0 := by
      rw [h.counted sid x hx]
      refine List.countP_eq_zero.mpr fun c hc => ?_
      by_cases hs : c.session = sid
      · have hclosed := hq.calls c hc hs
        simp only [Call.isOpen, Bool.or_eq_false_iff, decide_eq_false_iff_not] at hclosed
        simp [hs, Call.isHeld, hclosed.2]
      · simp [hs]
    simp [inUse, hx, Session.inUse, hzero]

theorem LeaseInv.continueLeaseEnd (h : s.LeaseInv) {e : LeaseEnd} (he : s.leaseEnd = some e) :
    (s.continueLeaseEnd e).LeaseInv := by
  have hq := h.ending e he
  have hset := h.setLease hq none
  have hqset : (s.modifySession e.session fun x => { x with lease := none }).Quiet e.session :=
    hset.quiet_of_unleased fun x hx => by
      obtain ⟨y, _, rfl⟩ := sessions_modifySession e.session _ hx
      rw [if_pos rfl]
  unfold Server.continueLeaseEnd
  split
  · exact (hset.moveToEnd e.session).withLeaseEnd (by simp)
  · rw [if_neg (by simp [h.inUse_of_quiet hq])]
    refine h.withLeaseEnd fun e' he' => ?_
    obtain rfl := Option.some.inj he'
    exact hq
  · exact (hset.eraseLru hqset).withLeaseEnd (by simp)

theorem LeaseInv.acquireRequest (h : s.LeaseInv) {i : ℕ} {c : Call F}
    (hc : s.calls[i]? = some c) : (s.acquireRequest i c).LeaseInv := by
  unfold Server.acquireRequest
  split_ifs with hpending
  · have hcont : Continues c { c with accounting := .held } :=
      ⟨rfl, rfl, fun _ => by simp [Call.isOpen, hpending]⟩
    exact h.recount (g := fun k => k + 1) hc hcont fun k => by simp [Call.isHeld, hpending]
  · exact h

theorem LeaseInv.releaseRequest (h : s.LeaseInv) {i : ℕ} {c : Call F}
    (hc : s.calls[i]? = some c) : (s.releaseRequest i c).LeaseInv := by
  unfold Server.releaseRequest
  split_ifs with hdone
  · simp only [Bool.and_eq_true] at hdone
    have hheld : c.accounting = .held := by simpa [Call.isHeld] using hdone.2
    have hcont : Continues c { c with accounting := .released } :=
      ⟨rfl, rfl, fun _ => by simp [Call.isOpen, hheld]⟩
    exact h.recount (g := fun k => k - 1) hc hcont fun k => by simp [Call.isHeld, hheld]
  · exact h

theorem LeaseInv.submit (h : s.LeaseInv) {i : ℕ} {c : Call F} (hc : s.calls[i]? = some c) :
    (s.submit i c).LeaseInv := by
  unfold Server.submit
  split
  case h_1 fn caught rest hphase hbody =>
    have hopen : c.isOpen = true := by simp [Call.isOpen, hbody]
    split_ifs
    · exact h
    · exact h.setCall hc ⟨rfl, rfl, fun _ => hopen⟩ rfl
    · exact h.setCall hc ⟨rfl, rfl, fun _ => hopen⟩ rfl
  case h_2 => exact h

theorem LeaseInv.timeOut (h : s.LeaseInv) {i : ℕ} {c : Call F} (hc : s.calls[i]? = some c) :
    (s.timeOut i c).LeaseInv := by
  unfold Server.timeOut
  split
  case h_1 caught hphase =>
    have hopen : c.isOpen = true := by simp [Call.isOpen, Call.isReady, hphase]
    exact h.setCall hc ⟨rfl, rfl, fun _ => hopen⟩ rfl
  case h_2 => exact h

theorem LeaseInv.raise (h : s.LeaseInv) {i : ℕ} {c : Call F} (hc : s.calls[i]? = some c) :
    (s.raise i c).LeaseInv := by
  unfold Server.raise
  split_ifs
  · refine h.setCall hc ⟨rfl, rfl, fun ho => ?_⟩ rfl
    simp only [Call.isOpen, Call.isReady, List.isEmpty_nil, Bool.not_true, Bool.or_false,
      Bool.or_eq_true] at ho ⊢
    tauto
  · exact h

theorem LeaseInv.bookkeep (h : s.LeaseInv) {i : ℕ} {c : Call F} (hc : s.calls[i]? = some c) :
    (s.bookkeep i c).LeaseInv := by
  unfold Server.bookkeep
  split
  case h_3 => exact h
  case h_1 rest hphase hbody =>
    split_ifs
    · exact h
    · have hkept := h.modifySession c.session (fun x => { x with commandHistory := [] })
        (fun _ => rfl) (fun _ => rfl) (fun _ _ _ hj => hj)
      exact hkept.setCall hc ⟨rfl, rfl, fun _ => by simp [Call.isOpen, hbody]⟩ rfl
  case h_2 command rest hphase hbody =>
    split_ifs
    · exact h
    · have hkept := h.modifySession c.session
        (fun x => { x with commandHistory := x.commandHistory ++ [command] })
        (fun _ => rfl) (fun _ => rfl) (fun _ _ _ hj => hj)
      exact hkept.setCall hc ⟨rfl, rfl, fun _ => by simp [Call.isOpen, hbody]⟩ rfl

theorem LeaseInv.startJob (h : s.LeaseInv) {sid : SessionId} {x : Session F L}
    (hx : s.sessions sid = some x) : (s.startJob sid x).LeaseInv := by
  unfold Server.startJob
  split
  case h_1 job rest hrun hqueue =>
    split_ifs
    · exact h
    · refine h.modifySession sid _ (fun _ => rfl) (fun _ => rfl) fun y hy j hj => ?_
      obtain rfl := Option.some.inj (hx.symm.trans hy)
      simpa [Session.jobs, hrun, hqueue] using hj
  case h_2 => exact h

theorem LeaseInv.finishJob (h : s.LeaseInv) (B : BackendApi F L) {sid : SessionId}
    (x : Session F L) (raises : Bool) : (s.finishJob B sid x raises).LeaseInv := by
  unfold Server.finishJob
  split
  case h_1 => exact h
  case h_2 job hrun =>
    refine LeaseInv.settleCall ?_ _ _
    refine h.modifySession sid _ (fun _ => rfl) (fun _ => rfl) fun y hy j hj => ?_
    exact List.mem_append_right _ (by simpa [Session.jobs] using hj)

theorem LeaseInv.shutdown (h : s.LeaseInv) (sid : SessionId) : (s.shutdown sid).LeaseInv := by
  unfold Server.shutdown
  split_ifs
  · exact h
  · exact h.modifySession sid _ (fun _ => rfl) (fun _ => rfl) fun _ _ _ hj => hj

theorem LeaseInv.cancelJob (h : s.LeaseInv) {sid : SessionId} {x : Session F L}
    (hx : s.sessions sid = some x) : (s.cancelJob sid x).LeaseInv := by
  unfold Server.cancelJob
  split
  case h_1 job rest hqueue =>
    split_ifs
    · refine LeaseInv.settleCall ?_ _ _
      refine h.modifySession sid _ (fun _ => rfl) (fun _ => rfl) fun y hy j hj => ?_
      obtain rfl := Option.some.inj (hx.symm.trans hy)
      rcases List.mem_append.mp hj with hrun | hrest
      · exact List.mem_append_left _ hrun
      · exact List.mem_append_right _ (by simp [hqueue, hrest])
    · exact h
  case h_2 => exact h

theorem LeaseInv.stop (h : s.LeaseInv) (sid : SessionId) (x : Session F L) :
    (s.stop sid x).LeaseInv := by
  unfold Server.stop
  split_ifs
  · exact h.modifySession sid _ (fun _ => rfl) (fun _ => rfl) fun _ _ _ hj => hj
  · exact h

theorem LeaseInv.step (h : s.LeaseInv) (B : BackendApi F L) {e : Event F}
    (he : s.EndsAccounted e) : (s.step B e).LeaseInv := by
  cases e with
  | createSession sid lease key => exact locked_of_none h fun _ => h.createSession B sid lease key
  | acquireSession lease key reuseDirty =>
    exact locked_of_none h fun _ => h.acquireSession lease key reuseDirty
  | popOldestIdle => exact locked_of_none h fun _ => h.popOldestIdle
  | getSession sid lease method =>
    exact locked_of_none h fun hlock => h.getSession hlock sid lease method
  | releaseSession sid lease =>
    exact locked_of_none h fun hlock => h.beginLeaseEnd .releasing (he hlock)
  | closeSession sid lease =>
    exact locked_of_none h fun hlock => h.beginLeaseEnd .closing (he hlock)
  | continueLeaseEnd =>
    cases hend : s.leaseEnd with
    | none => rwa [step_continueLeaseEnd_of_none hend]
    | some e =>
      rw [step_continueLeaseEnd_of_some hend]
      exact h.continueLeaseEnd hend
  | acquireRequest i => exact withCall_of h fun _ hc => h.acquireRequest hc
  | submit i => exact withCall_of h fun _ hc => h.submit hc
  | enqueue i => exact withCall_of h fun _ hc => h.enqueue hc
  | timeOut i => exact withCall_of h fun _ hc => h.timeOut hc
  | raise i => exact withCall_of h fun _ hc => h.raise hc
  | bookkeep i => exact withCall_of h fun _ hc => h.bookkeep hc
  | releaseRequest i => exact withCall_of h fun _ hc => h.releaseRequest hc
  | startJob sid => exact withSession_of h fun _ hx => h.startJob hx
  | finishJob sid raises => exact withSession_of h fun x _ => h.finishJob B x raises
  | shutdown sid => exact h.shutdown sid
  | cancelJob sid => exact withSession_of h fun _ hx => h.cancelJob hx
  | stop sid => exact withSession_of h fun x _ => h.stop sid x

/-- A session whose backend shuts down has left the pool, and one whose lease is being ended
is in it. -/
structure PoolInv (s : Server F L) : Prop where
  shut : ∀ sid x, s.sessions sid = some x → x.shuttingDown = true → sid ∉ s.lru
  ending : ∀ e, s.leaseEnd = some e → e.session ∈ s.lru

theorem poolInv_initial (poolSize : ℕ) : ({ poolSize } : Server F L).PoolInv :=
  ⟨by simp, by simp⟩

theorem PoolInv.mem_of_poolStep (h : s.PoolInv) {lru : List SessionId}
    {leaseEnd : Option LeaseEnd} (hstep : PoolStep s lru leaseEnd) {n : SessionId}
    (hn : n ∈ lru) : n ∈ s.lru ∨ s.sessions n = none := by
  have hmoved : ∀ {sid : SessionId}, sid ∈ s.lru → n ∈ s.lru.erase sid ++ [sid] → n ∈ s.lru := by
    intro sid hin hn
    rcases List.mem_append.mp hn with herase | hlast
    · exact List.mem_of_mem_erase herase
    · rwa [List.mem_singleton.mp hlast]
  cases hstep with
  | same => exact Or.inl hn
  | create _ hnew hsub =>
    rcases List.mem_append.mp (hsub hn) with hold | hlast
    · exact Or.inl hold
    · exact Or.inr (List.mem_singleton.mp hlast ▸ hnew)
  | drop sid _ => exact Or.inl (List.mem_of_mem_erase hn)
  | touch hin _ => exact Or.inl (hmoved hin hn)
  | begin _ _ => exact Or.inl hn
  | advance _ _ => exact Or.inl hn
  | putBack hend => exact Or.inl (hmoved (h.ending _ hend) hn)
  | remove _ => exact Or.inl (List.mem_of_mem_erase hn)

theorem PoolInv.ending_of_poolStep (h : s.PoolInv) {lru : List SessionId}
    {leaseEnd : Option LeaseEnd} (hstep : PoolStep s lru leaseEnd) {e : LeaseEnd}
    (he : leaseEnd = some e) : e.session ∈ lru := by
  cases hstep with
  | same => exact h.ending e he
  | begin _ hin => rwa [← Option.some.inj he]
  | advance hend hsame =>
    rw [← Option.some.inj he, hsame]
    exact h.ending _ hend
  | create | drop | touch | putBack | remove => cases he

/-- A backend that shuts down did so before, or its session is outside the pool. -/
theorem shuttingDown_of_step (B : BackendApi F L) (e : Event F) {n : SessionId}
    {x' : Session F L} (hx' : (s.step B e).sessions n = some x')
    (hshut : x'.shuttingDown = true) :
    ∃ x, s.sessions n = some x ∧ (x.shuttingDown = true ∨ n ∉ s.lru) := by
  have hstep := sessions_step B s e
  generalize (s.step B e).sessions = sessions' at hx' hstep
  cases hstep with
  | same => exact ⟨x', hx', Or.inl hshut⟩
  | @create sid lease key _ hnew =>
    by_cases hn : n = sid
    · subst hn
      obtain rfl : _ = x' := by simpa using hx'
      cases hshut
    · exact ⟨x', by simpa [Function.update_of_ne hn] using hx', Or.inl hshut⟩
  | @change sid x y hx hchange =>
    by_cases hn : n = sid
    · subst hn
      obtain rfl : y = x' := by simpa using hx'
      refine ⟨x, hx, ?_⟩
      cases hchange with
      | shutdown hout => exact Or.inr hout
      | _ => exact Or.inl hshut
    · exact ⟨x', by simpa [Function.update_of_ne hn] using hx', Or.inl hshut⟩

theorem PoolInv.step (h : s.PoolInv) (B : BackendApi F L) (e : Event F) :
    (s.step B e).PoolInv where
  shut n x' hx' hshut hn := by
    obtain ⟨x, hx, hbefore⟩ := shuttingDown_of_step B e hx' hshut
    rcases h.mem_of_poolStep (pool_step B s e) hn with hin | hnew
    · rcases hbefore with hold | hout
      · exact h.shut n x hx hold hin
      · exact hout hin
    · rw [hnew] at hx
      cases hx
  ending _ he := h.ending_of_poolStep (pool_step B s e) he

end Server
end IsabelleGym
