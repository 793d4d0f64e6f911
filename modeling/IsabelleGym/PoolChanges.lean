import IsabelleGym.ServerSteps
import Mathlib.Data.List.Nodup

/-!
# How sessions enter and leave the pool

The steps of the server besides a creation reorder the pool or take one session
out of it. A creation that finds at most `pool_size` sessions evicts at most one.
-/

namespace IsabelleGym
namespace Server

variable {F L : Type} {B : BackendApi F L} {s : Server F L}

theorem moveToEnd_perm {sid : SessionId} (h : sid ∈ s.lru) : (s.moveToEnd sid).lru.Perm s.lru :=
  (List.perm_append_singleton sid _).trans (List.perm_cons_erase h).symm

def oldestIdle (s : Server F L) : Option SessionId :=
  s.lru.find? fun sid => !s.inUse sid && !s.leased sid

theorem mem_of_oldestIdle {sid : SessionId} (h : s.oldestIdle = some sid) : sid ∈ s.lru :=
  List.mem_of_find?_eq_some h

theorem not_leased_of_oldestIdle {sid : SessionId} (h : s.oldestIdle = some sid) :
    s.leased sid = false := by
  have hidle := List.find?_some h
  simp only [Bool.and_eq_true, Bool.not_eq_true'] at hidle
  exact hidle.2

/-- The pool behind a step that is no creation. -/
inductive LruStep (s : Server F L) : Event F → List SessionId → Prop
  | perm {e : Event F} {lru : List SessionId} : lru.Perm s.lru → LruStep s e lru
  | pop {sid : SessionId} : s.leaseEnd = none → s.oldestIdle = some sid →
    LruStep s .popOldestIdle (s.lru.erase sid)
  | close {sid : SessionId} : s.leaseEnd = some ⟨sid, .popped⟩ →
    LruStep s .continueLeaseEnd (s.lru.erase sid)

theorem lru_continueLeaseEnd {e : LeaseEnd} (he : s.leaseEnd = some e) (hin : e.session ∈ s.lru) :
    LruStep s .continueLeaseEnd (s.continueLeaseEnd e).lru := by
  unfold continueLeaseEnd
  split
  · exact .perm (moveToEnd_perm hin)
  · split_ifs
    · exact .perm (moveToEnd_perm hin)
    · exact .perm (.refl _)
  case h_3 hstage =>
    apply LruStep.close
    rw [he, ← hstage]

theorem lru_step (B : BackendApi F L) (hend : ∀ e, s.leaseEnd = some e → e.session ∈ s.lru)
    {e : Event F} (he : ∀ sid lease key, e ≠ .createSession sid lease key) :
    LruStep s e (s.step B e).lru := by
  have hsame : LruStep s e s.lru := .perm (.refl _)
  have hlocked : ∀ {s' : Server F L}, (s.leaseEnd = none → LruStep s e s'.lru) →
      LruStep s e (s.locked s').lru :=
    fun hs' => locked_of_none (P := fun s' => LruStep s e s'.lru) hsame hs'
  have hcall : ∀ {i : ℕ} {f : Call F → Server F L}, (∀ c, LruStep s e (f c).lru) →
      LruStep s e (s.withCall i f).lru :=
    fun hf => withCall_of (P := fun s' => LruStep s e s'.lru) hsame fun c _ => hf c
  have hsession : ∀ {sid : SessionId} {f : Session F L → Server F L},
      (∀ x, LruStep s e (f x).lru) → LruStep s e (s.withSession sid f).lru :=
    fun hf => withSession_of (P := fun s' => LruStep s e s'.lru) hsame fun x _ => hf x
  cases e with
  | createSession sid lease key => exact absurd rfl (he sid lease key)
  | acquireSession lease key reuseDirty =>
    refine hlocked fun _ => ?_
    unfold acquireSession
    split
    case h_1 => exact hsame
    case h_2 sid hfind =>
      have hin : sid ∈ s.lru := List.mem_reverse.mp (List.mem_of_find?_eq_some hfind)
      exact .perm (moveToEnd_perm hin)
  | popOldestIdle =>
    refine hlocked fun hlock => ?_
    unfold popOldestIdle
    split
    case h_1 => exact hsame
    case h_2 sid hfind => exact .pop hlock hfind
  | getSession sid lease method =>
    refine hlocked fun _ => ?_
    unfold getSession
    by_cases husable : s.usable sid (some lease) = true
    · rw [if_pos husable]
      exact .perm (moveToEnd_perm (exists_of_usable husable).1)
    · rwa [if_neg husable]
  | releaseSession sid lease | closeSession sid lease =>
    refine hlocked fun _ => ?_
    unfold beginLeaseEnd
    split <;> exact hsame
  | continueLeaseEnd =>
    cases hend' : s.leaseEnd with
    | none => rwa [step_continueLeaseEnd_of_none hend']
    | some e =>
      rw [step_continueLeaseEnd_of_some hend']
      exact lru_continueLeaseEnd hend' (hend e hend')
  | acquireRequest i | submit i | enqueue i | timeOut i | raise i | bookkeep i
  | releaseRequest i =>
    refine hcall fun c => ?_
    simp only [acquireRequest, submit, enqueue, timeOut, raise, bookkeep, releaseRequest]
    (repeat' split) <;> exact hsame
  | startJob sid | finishJob sid raises | cancelJob sid | stop sid =>
    refine hsession fun x => ?_
    simp only [startJob, finishJob, cancelJob, stop, settleCall]
    (repeat' split) <;> exact hsame
  | shutdown sid =>
    simp only [Server.step, shutdown]
    split <;> exact hsame

/-- The pool behind a creation that found at most `pool_size` sessions. -/
inductive Insertion (s : Server F L) (sid : SessionId) : List SessionId → Prop
  | room : s.lru.length < s.poolSize → Insertion s sid (s.lru ++ [sid])
  | evict {oldest : SessionId} : s.lru.length = s.poolSize → s.oldestIdle = some oldest →
    Insertion s sid (s.lru.erase oldest ++ [sid])
  | full : s.lru.length = s.poolSize → s.oldestIdle = none → Insertion s sid s.lru

theorem evictExcess_of_le {new : SessionId} {lru : List SessionId} (h : lru.length ≤ s.poolSize)
    (fuel : ℕ) : s.evictExcess new fuel lru = lru := by
  cases fuel with
  | zero => rfl
  | succ fuel => rw [evictExcess, if_pos h]

/-- The new session is no candidate of the eviction, and the others are as before. -/
theorem find?_insertion {s' : Server F L} {sid : SessionId} (hnew : sid ∉ s.lru)
    (hsame : ∀ n, n ≠ sid → s'.sessions n = s.sessions n) :
    ((s.lru ++ [sid]).find? fun n => n ≠ sid && !s'.inUse n && !s'.leased n) = s.oldestIdle := by
  have hlast : ([sid].find? fun n => n ≠ sid && !s'.inUse n && !s'.leased n) = none := by simp
  rw [List.find?_append, hlast, Option.or_none, oldestIdle, ← List.head?_filter,
    ← List.head?_filter]
  congr 1
  apply List.filter_congr
  intro n hn
  have hne : n ≠ sid := fun h => hnew (h ▸ hn)
  simp [inUse, leased, hsame n hne, hne]

theorem lru_createSession (hlen : s.lru.length ≤ s.poolSize) (hlock : s.leaseEnd = none)
    {sid : SessionId} (hnone : s.sessions sid = none) (hnew : sid ∉ s.lru)
    (lease : Option LeaseId) (key : DependencyKey) :
    Insertion s sid (s.step B (.createSession sid lease key)).lru := by
  simp only [Server.step, locked, hlock, Option.isSome_none, Bool.false_eq_true, if_false,
    createSession, hnone]
  rw [List.length_append, List.length_singleton, evictExcess, List.length_append,
    List.length_singleton]
  split_ifs with hroom
  · exact .room (by exact hroom)
  · have hfull : s.lru.length = s.poolSize := by
      dsimp only at hroom
      omega
    rw [find?_insertion hnew fun n hn => Function.update_of_ne hn _ _]
    split
    case h_1 hidle =>
      rw [List.erase_append_right _ hnew, List.erase_cons_head, List.append_nil]
      exact .full hfull hidle
    case h_2 oldest hidle =>
      have hin := mem_of_oldestIdle hidle
      rw [List.erase_append_left _ hin, evictExcess_of_le]
      · exact .evict hfull hidle
      · have hshorter := List.length_erase_of_mem hin
        have hpos := List.length_pos_of_mem hin
        simp only [List.length_append, List.length_singleton]
        omega

theorem Insertion.length_le {sid : SessionId} {lru : List SessionId} (h : Insertion s sid lru) :
    lru.length ≤ s.poolSize := by
  cases h with
  | room hroom =>
    rw [List.length_append, List.length_singleton]
    omega
  | evict hfull hidle =>
    have hshorter := List.length_erase_of_mem (mem_of_oldestIdle hidle)
    have hpos := List.length_pos_of_mem (mem_of_oldestIdle hidle)
    rw [List.length_append, List.length_singleton]
    omega
  | full hfull _ => omega

theorem Insertion.nodup {sid : SessionId} {lru : List SessionId} (h : Insertion s sid lru)
    (hnodup : s.lru.Nodup) (hnew : sid ∉ s.lru) : lru.Nodup := by
  cases h with
  | room _ => exact hnodup.append (List.nodup_singleton sid) (by simpa using hnew)
  | evict _ _ =>
    refine (hnodup.erase _).append (List.nodup_singleton sid) ?_
    simpa using fun hin => hnew (List.mem_of_mem_erase hin)
  | full _ _ => exact hnodup

theorem Insertion.mem {sid : SessionId} {lru : List SessionId} (h : Insertion s sid lru)
    {n : SessionId} (hn : n ∈ lru) : n ∈ s.lru ∨ n = sid := by
  cases h with
  | room _ => simpa using hn
  | evict _ _ =>
    rcases List.mem_append.mp hn with hold | hlast
    · exact Or.inl (List.mem_of_mem_erase hold)
    · exact Or.inr (List.mem_singleton.mp hlast)
  | full _ _ => exact Or.inl hn

theorem LruStep.length_le {e : Event F} {lru : List SessionId} (h : LruStep s e lru) :
    lru.length ≤ s.lru.length := by
  cases h with
  | perm hperm => exact hperm.length_eq.le
  | pop _ _ => exact List.length_erase_le
  | close _ => exact List.length_erase_le

theorem LruStep.nodup {e : Event F} {lru : List SessionId} (h : LruStep s e lru)
    (hnodup : s.lru.Nodup) : lru.Nodup := by
  cases h with
  | perm hperm => exact hperm.nodup_iff.mpr hnodup
  | pop _ _ => exact hnodup.erase _
  | close _ => exact hnodup.erase _

theorem LruStep.subset {e : Event F} {lru : List SessionId} (h : LruStep s e lru) :
    lru ⊆ s.lru := by
  cases h with
  | perm hperm => exact hperm.subset
  | pop _ _ => exact List.erase_subset
  | close _ => exact List.erase_subset

@[simp] theorem poolSize_step (B : BackendApi F L) (s : Server F L) (e : Event F) :
    (s.step B e).poolSize = s.poolSize := by
  have hsame : s.poolSize = s.poolSize := rfl
  have hlocked : ∀ {s' : Server F L}, s'.poolSize = s.poolSize →
      (s.locked s').poolSize = s.poolSize :=
    fun hs' => locked_of_none (P := fun s' => s'.poolSize = s.poolSize) hsame fun _ => hs'
  have hcall : ∀ {i : ℕ} {f : Call F → Server F L}, (∀ c, (f c).poolSize = s.poolSize) →
      (s.withCall i f).poolSize = s.poolSize :=
    fun hf => withCall_of (P := fun s' => s'.poolSize = s.poolSize) hsame fun c _ => hf c
  have hsession : ∀ {sid : SessionId} {f : Session F L → Server F L},
      (∀ x, (f x).poolSize = s.poolSize) → (s.withSession sid f).poolSize = s.poolSize :=
    fun hf => withSession_of (P := fun s' => s'.poolSize = s.poolSize) hsame fun x _ => hf x
  cases e with
  | createSession sid lease key | acquireSession lease key reuseDirty | popOldestIdle
  | getSession sid lease method | releaseSession sid lease | closeSession sid lease =>
    apply hlocked
    simp only [createSession, acquireSession, popOldestIdle, getSession, beginLeaseEnd]
    split <;> rfl
  | continueLeaseEnd =>
    cases hend : s.leaseEnd with
    | none => rw [step_continueLeaseEnd_of_none hend]
    | some e =>
      rw [step_continueLeaseEnd_of_some hend]
      unfold continueLeaseEnd
      (repeat' split) <;> rfl
  | acquireRequest i | submit i | enqueue i | timeOut i | raise i | bookkeep i
  | releaseRequest i =>
    refine hcall fun c => ?_
    simp only [acquireRequest, submit, enqueue, timeOut, raise, bookkeep, releaseRequest]
    (repeat' split) <;> rfl
  | startJob sid | finishJob sid raises | cancelJob sid | stop sid =>
    refine hsession fun x => ?_
    simp only [startJob, finishJob, cancelJob, stop, settleCall]
    (repeat' split) <;> rfl
  | shutdown sid =>
    simp only [Server.step, shutdown]
    split <;> rfl

theorem sessions_kept (B : BackendApi F L) (e : Event F) {n : SessionId}
    (h : s.sessions n ≠ none) : (s.step B e).sessions n ≠ none := by
  have hstep := sessions_step B s e
  generalize (s.step B e).sessions = sessions' at hstep ⊢
  cases hstep with
  | same => exact h
  | @create sid lease key _ _ =>
    by_cases hn : n = sid
    · simp [hn]
    · rwa [Function.update_of_ne hn]
  | @change sid x x' _ _ =>
    by_cases hn : n = sid
    · simp [hn]
    · rwa [Function.update_of_ne hn]

/-- Only a creation adds a session. -/
theorem sessions_of_step (B : BackendApi F L) {e : Event F} {n : SessionId}
    (he : ∀ lease key, e ≠ .createSession n lease key) (h : s.sessions n = none) :
    (s.step B e).sessions n = none := by
  have hstep := sessions_step B s e
  generalize (s.step B e).sessions = sessions' at hstep ⊢
  cases hstep with
  | same => exact h
  | @create sid lease key hcreate _ =>
    by_cases hn : n = sid
    · subst hn
      exact absurd hcreate (he lease key)
    · rwa [Function.update_of_ne hn]
  | @change sid x x' hx _ =>
    have hn : n ≠ sid := by
      rintro rfl
      rw [h] at hx
      cases hx
    rwa [Function.update_of_ne hn]

/-- A session is closed where its worker stops. -/
theorem closed_of_step {e : Event F} {n : SessionId} {x' : Session F L}
    (hx' : (s.step B e).sessions n = some x') (hclosed : x'.closed = true) :
    (∃ x, s.sessions n = some x ∧ x.closed = true) ∨ e = .stop n := by
  have hstep := sessions_step B s e
  generalize (s.step B e).sessions = sessions' at hx' hstep
  cases hstep with
  | same => exact Or.inl ⟨x', hx', hclosed⟩
  | @create sid lease key _ _ =>
    by_cases hn : n = sid
    · subst hn
      obtain rfl : _ = x' := by simpa using hx'
      cases hclosed
    · exact Or.inl ⟨x', by simpa [Function.update_of_ne hn] using hx', hclosed⟩
  | @change sid x y hx hchange =>
    by_cases hn : n = sid
    · subst hn
      obtain rfl : y = x' := by simpa using hx'
      cases hchange with
      | stop _ => exact Or.inr rfl
      | _ => exact Or.inl ⟨x, hx, hclosed⟩
    · exact Or.inl ⟨x', by simpa [Function.update_of_ne hn] using hx', hclosed⟩

end Server
end IsabelleGym
