import Mathlib.Algebra.BigOperators.Group.Finset.Piecewise
import Mathlib.Algebra.Order.BigOperators.Group.Finset
import Mathlib.Data.Fintype.EquivFin
import Mathlib.Data.List.Nodup
import IsabelleGym.Runs

/-!
# The pool of warm sessions

The first callers of the pool fill it with backends, each of them without a look
at the others. A put blocks while the queue is full, and nobody takes from the
queue before the first filling is done.
-/

namespace IsabelleGym
namespace LocalPool

open Function

def poolSize : ℕ := 3

def maxsize : ℕ := 10

/-- Where the thread of a gym is in `get_pooled_backend` or `return_backend`. -/
inductive Stage
  | idle
  /-- It has seen `_pool_initialized` unset. -/
  | called
  /-- It has some backends left to put, and may have made the next. -/
  | filling (left : ℕ) (backend : Option ℕ)
  | waiting
  /-- The queue was empty for as long as it waits. -/
  | creating
  | holding (backend : ℕ)
  /-- The backend is reset and not put back yet. -/
  | returning (backend : ℕ)
deriving DecidableEq

structure State where
  initialized : Bool := false
  queue : List ℕ := []
  threads : ℕ → Stage := fun _ => .idle
  /-- The number of the next backend that is made. -/
  fresh : ℕ := 0

inductive Event
  | call (t : ℕ)
  | check (t : ℕ)
  | create (t : ℕ)
  | createFails (t : ℕ)
  | put (t : ℕ)
  | finish (t : ℕ)
  | get (t : ℕ)
  | expire (t : ℕ)
  | reset (t : ℕ)
  | resetFails (t : ℕ)
  | putBack (t : ℕ)

def Event.thread : Event → ℕ
  | .call t | .check t | .create t | .createFails t | .put t | .finish t | .get t | .expire t
  | .reset t | .resetFails t | .putBack t => t

def Event.isCreateFails : Event → Bool
  | .createFails _ => true
  | _ => false

def Stage.backend : Stage → Option ℕ
  | .filling _ backend => backend
  | .holding b | .returning b => some b
  | _ => none

namespace State

variable (s : State)

def goes (t : ℕ) (stage : Stage) : State := { s with threads := update s.threads t stage }

def step : Event → State
  | .call t =>
    match s.threads t with
    | .idle => s.goes t (if s.initialized then .waiting else .called)
    | _ => s
  | .check t =>
    match s.threads t with
    | .called => s.goes t (if s.initialized then .waiting else .filling poolSize none)
    | _ => s
  | .create t =>
    match s.threads t with
    | .filling (left + 1) none =>
      { s.goes t (.filling (left + 1) (some s.fresh)) with fresh := s.fresh + 1 }
    | .creating => { s.goes t (.holding s.fresh) with fresh := s.fresh + 1 }
    | _ => s
  | .createFails t =>
    match s.threads t with
    | .filling (_ + 1) none | .creating => s.goes t .idle
    | _ => s
  | .put t =>
    match s.threads t with
    | .filling (left + 1) (some b) =>
      -- a put without a timeout waits for room
      if s.queue.length < maxsize then
        { s.goes t (.filling left none) with queue := s.queue ++ [b] }
      else s
    | _ => s
  | .finish t =>
    match s.threads t with
    | .filling 0 none => { s.goes t .waiting with initialized := true }
    | _ => s
  | .get t =>
    match s.threads t, s.queue with
    | .waiting, b :: queue => { s.goes t (.holding b) with queue }
    | _, _ => s
  | .expire t =>
    match s.threads t, s.queue with
    | .waiting, [] => s.goes t .creating
    | _, _ => s
  | .reset t =>
    match s.threads t with
    | .holding b => s.goes t (.returning b)
    | _ => s
  | .resetFails t =>
    match s.threads t with
    | .holding _ => s.goes t .idle
    | _ => s
  | .putBack t =>
    match s.threads t with
    | .returning b =>
      if s.queue.length < maxsize then { s.goes t .idle with queue := s.queue ++ [b] }
      else s.goes t .idle
    | _ => s

def run (events : List Event) : State := events.foldl step s

/-- Nobody can finish a filling any more, neither those who fill nor a new caller. -/
def Doomed : Prop :=
  s.initialized = false ∧ maxsize < s.queue.length + poolSize ∧
    ∀ t left backend, s.threads t = .filling left backend → maxsize < s.queue.length + left

end State

/-- What a step does with the backends: nothing, make one, put one into the queue, take one from
it, hand one on or drop one. -/
inductive Moves (s s' : State) (t : ℕ) : Prop
  | keeps : s'.queue = s.queue → s'.fresh = s.fresh →
    (∀ u, (s'.threads u).backend = (s.threads u).backend) → Moves s s' t
  | makes : s'.queue = s.queue → s'.fresh = s.fresh + 1 →
    (∀ u, (s'.threads u).backend = if u = t then some s.fresh else (s.threads u).backend) →
    Moves s s' t
  | puts (b : ℕ) : (s.threads t).backend = some b → s'.queue = s.queue ++ [b] →
    s'.fresh = s.fresh →
    (∀ u, (s'.threads u).backend = if u = t then none else (s.threads u).backend) → Moves s s' t
  | takes (b : ℕ) : s.queue = b :: s'.queue → s'.fresh = s.fresh →
    (∀ u, (s'.threads u).backend = if u = t then some b else (s.threads u).backend) → Moves s s' t
  | drops : s'.queue = s.queue → s'.fresh = s.fresh →
    (∀ u, (s'.threads u).backend = if u = t then none else (s.threads u).backend) → Moves s s' t

structure Exclusive (s : State) : Prop where
  nodup : s.queue.Nodup
  queued : ∀ b ∈ s.queue, b < s.fresh
  held : ∀ t b, (s.threads t).backend = some b → b < s.fresh ∧ b ∉ s.queue
  one : ∀ t u b, (s.threads t).backend = some b → (s.threads u).backend = some b → t = u

namespace State

variable {s : State}

theorem threads_goes (t : ℕ) (stage : Stage) (u : ℕ) :
    (s.goes t stage).threads u = if u = t then stage else s.threads u := update_apply ..

@[simp] theorem threads_goes_self (t : ℕ) (stage : Stage) : (s.goes t stage).threads t = stage :=
  update_self ..

theorem backend_goes (t : ℕ) (stage : Stage) (u : ℕ) :
    ((s.goes t stage).threads u).backend =
      if u = t then stage.backend else (s.threads u).backend := by
  rw [threads_goes]
  split_ifs <;> rfl

theorem backend_goes_of_eq {t : ℕ} {stage : Stage}
    (h : stage.backend = (s.threads t).backend) (u : ℕ) :
    ((s.goes t stage).threads u).backend = (s.threads u).backend := by
  rw [backend_goes]
  split_ifs with hu
  · rw [h, hu]
  · rfl

theorem step_moves (s : State) (e : Event) : Moves s (s.step e) e.thread := by
  have hself : Moves s s e.thread := .keeps rfl rfl fun _ => rfl
  cases e with
  | call t =>
    simp only [step]
    split
    · rename_i hidle
      refine .keeps rfl rfl (backend_goes_of_eq ?_)
      rw [hidle]
      split_ifs <;> rfl
    · exact hself
  | check t =>
    simp only [step]
    split
    · rename_i hcalled
      refine .keeps rfl rfl (backend_goes_of_eq ?_)
      rw [hcalled]
      split_ifs <;> rfl
    · exact hself
  | create t =>
    simp only [step]
    split
    · exact .makes rfl rfl (backend_goes t _)
    · exact .makes rfl rfl (backend_goes t _)
    · exact hself
  | createFails t =>
    simp only [step]
    split
    · exact .drops rfl rfl (backend_goes t _)
    · exact .drops rfl rfl (backend_goes t _)
    · exact hself
  | put t =>
    simp only [step]
    split
    · rename_i b hfilling
      split_ifs
      · exact .puts b (by rw [Event.thread, hfilling]; rfl) rfl rfl (backend_goes t _)
      · exact hself
    · exact hself
  | finish t =>
    simp only [step]
    split
    · exact .drops rfl rfl (backend_goes t _)
    · exact hself
  | get t =>
    simp only [step]
    split
    · rename_i b queue _ hqueue
      exact .takes b hqueue rfl (backend_goes t _)
    · exact hself
  | expire t =>
    simp only [step]
    split
    · exact .drops rfl rfl (backend_goes t _)
    · exact hself
  | reset t =>
    simp only [step]
    split
    · rename_i b hholding
      exact .keeps rfl rfl (backend_goes_of_eq (by rw [hholding]; rfl))
    · exact hself
  | resetFails t =>
    simp only [step]
    split
    · exact .drops rfl rfl (backend_goes t _)
    · exact hself
  | putBack t =>
    simp only [step]
    split
    · rename_i b hreturning
      split_ifs
      · exact .puts b (by rw [Event.thread, hreturning]; rfl) rfl rfl (backend_goes t _)
      · exact .drops rfl rfl (backend_goes t _)
    · exact hself

theorem exclusive_step (h : Exclusive s) (e : Event) : Exclusive (s.step e) := by
  generalize hs : s.step e = s'
  have hmoves := hs ▸ step_moves s e
  cases hmoves with
  | keeps hqueue hfresh hbackend =>
    refine ⟨hqueue ▸ h.nodup, ?_, ?_, ?_⟩
    · rw [hqueue, hfresh]
      exact h.queued
    · intro t b ht
      rw [hqueue, hfresh]
      exact h.held t b (hbackend t ▸ ht)
    · intro t u b ht hu
      exact h.one t u b (hbackend t ▸ ht) (hbackend u ▸ hu)
  | makes hqueue hfresh hbackend =>
    have hnew : ∀ u, (s.threads u).backend ≠ some s.fresh := fun u hu =>
      absurd (h.held u _ hu).1 (Nat.lt_irrefl _)
    refine ⟨hqueue ▸ h.nodup, ?_, ?_, ?_⟩
    · intro b hb
      rw [hfresh]
      exact Nat.lt_succ_of_lt (h.queued b (hqueue ▸ hb))
    · intro t b ht
      rw [hbackend] at ht
      rw [hqueue, hfresh]
      split_ifs at ht
      · cases ht
        exact ⟨Nat.lt_succ_self _, fun hin => absurd (h.queued _ hin) (Nat.lt_irrefl _)⟩
      · exact ⟨Nat.lt_succ_of_lt (h.held t b ht).1, (h.held t b ht).2⟩
    · intro t u b ht hu
      rw [hbackend] at ht hu
      split_ifs at ht hu with heq heq'
      · rw [heq, heq']
      · cases ht
        exact absurd hu (hnew u)
      · cases hu
        exact absurd ht (hnew t)
      · exact h.one t u b ht hu
  | puts b hb hqueue hfresh hbackend =>
    obtain ⟨hlt, hnot⟩ := h.held _ b hb
    refine ⟨?_, ?_, ?_, ?_⟩
    · rw [hqueue]
      exact h.nodup.append (List.nodup_singleton b) (by simpa using hnot)
    · intro c hc
      rw [hqueue] at hc
      rw [hfresh]
      rcases List.mem_append.mp hc with hc | hc
      · exact h.queued c hc
      · rw [List.mem_singleton.mp hc]
        exact hlt
    · intro t c ht
      rw [hbackend] at ht
      split_ifs at ht with heq
      obtain ⟨hlt', hnot'⟩ := h.held t c ht
      refine ⟨hfresh ▸ hlt', ?_⟩
      rw [hqueue]
      intro hin
      rcases List.mem_append.mp hin with hin | hin
      · exact hnot' hin
      · obtain rfl := List.mem_singleton.mp hin
        exact heq (h.one t _ c ht hb)
    · intro t u c ht hu
      rw [hbackend] at ht hu
      split_ifs at ht hu
      exact h.one t u c ht hu
  | takes b hqueue hfresh hbackend =>
    have hnodup := h.nodup
    rw [hqueue, List.nodup_cons] at hnodup
    have hb : b ∈ s.queue := by
      rw [hqueue]
      exact List.mem_cons_self
    have hsub : ∀ c ∈ s'.queue, c ∈ s.queue := fun c hc => by
      rw [hqueue]
      exact List.mem_cons_of_mem b hc
    have hnew : ∀ u, (s.threads u).backend ≠ some b := fun u hu => (h.held u b hu).2 hb
    refine ⟨hnodup.2, ?_, ?_, ?_⟩
    · intro c hc
      rw [hfresh]
      exact h.queued c (hsub c hc)
    · intro t c ht
      rw [hbackend] at ht
      rw [hfresh]
      split_ifs at ht
      · cases ht
        exact ⟨h.queued b hb, hnodup.1⟩
      · exact ⟨(h.held t c ht).1, fun hin => (h.held t c ht).2 (hsub c hin)⟩
    · intro t u c ht hu
      rw [hbackend] at ht hu
      split_ifs at ht hu with heq heq'
      · rw [heq, heq']
      · cases ht
        exact absurd hu (hnew u)
      · cases hu
        exact absurd ht (hnew t)
      · exact h.one t u c ht hu
  | drops hqueue hfresh hbackend =>
    refine ⟨hqueue ▸ h.nodup, ?_, ?_, ?_⟩
    · rw [hqueue, hfresh]
      exact h.queued
    · intro t b ht
      rw [hbackend] at ht
      rw [hqueue, hfresh]
      split_ifs at ht
      exact h.held t b ht
    · intro t u b ht hu
      rw [hbackend] at ht hu
      split_ifs at ht hu
      exact h.one t u b ht hu

/-- In every interleaving no backend is with two threads, or with one and in the queue, or in the
queue twice. -/
theorem run_exclusive (events : List Event) : Exclusive (({} : State).run events) := by
  have hstart : Exclusive {} := by
    constructor
    · exact List.nodup_nil
    · simp
    · intro t b h
      cases h
    · intro t u b h
      cases h
  induction events using List.reverseRecOn with
  | nil => exact hstart
  | append_singleton events e ih =>
    rw [run, List.foldl_append]
    exact exclusive_step ih e

theorem run_cons (e : Event) (events : List Event) :
    s.run (e :: events) = (s.step e).run events := rfl

theorem threads_step_of_ne {e : Event} {t : ℕ} (h : e.thread ≠ t) :
    (s.step e).threads t = s.threads t := by
  have hgoes : ∀ stage, (s.goes e.thread stage).threads t = s.threads t := fun stage => by
    rw [threads_goes, if_neg (Ne.symm h)]
  cases e <;> simp only [step] <;> (repeat' split) <;> first | exact hgoes _ | rfl

theorem threads_run_of_ne {events : List Event} {t : ℕ} (h : ∀ e ∈ events, e.thread ≠ t) :
    (s.run events).threads t = s.threads t := by
  induction events generalizing s with
  | nil => rfl
  | cons e events ih =>
    rw [run_cons, ih fun d hd => h d (List.mem_cons_of_mem e hd),
      threads_step_of_ne (h e List.mem_cons_self)]

theorem initialized_step (h : s.initialized = true) (e : Event) :
    (s.step e).initialized = true := by
  cases e <;> simp only [step] <;> (repeat' split) <;> first | exact h | rfl

theorem initialized_eq_false {e : Event} (h : (s.step e).initialized = false) :
    s.initialized = false := by
  by_contra hnot
  rw [initialized_step (by simpa using hnot) e] at h
  cases h

end State

def Stage.Early : Stage → Prop
  | .idle | .called => True
  | .filling left backend => left ≤ poolSize ∧ (backend.isSome → 0 < left)
  | _ => False

structure Early (s : State) : Prop where
  stages : ∀ t, (s.threads t).Early
  bounded : s.queue.length ≤ maxsize

/-- What a step can do before the first filling is done. -/
inductive Fills (s : State) (e : Event) : State → Prop
  | stays : Fills s e s
  | calls : s.threads e.thread = .idle → Fills s e (s.goes e.thread .called)
  | enters : s.threads e.thread = .called → Fills s e (s.goes e.thread (.filling poolSize none))
  | creates (left : ℕ) : s.threads e.thread = .filling (left + 1) none →
    Fills s e { s.goes e.thread (.filling (left + 1) (some s.fresh)) with fresh := s.fresh + 1 }
  | fails (left : ℕ) : s.threads e.thread = .filling (left + 1) none → e.isCreateFails = true →
    Fills s e (s.goes e.thread .idle)
  | puts (left b : ℕ) : s.threads e.thread = .filling (left + 1) (some b) →
    s.queue.length < maxsize →
    Fills s e { s.goes e.thread (.filling left none) with queue := s.queue ++ [b] }
  | finishes : s.threads e.thread = .filling 0 none →
    Fills s e { s.goes e.thread .waiting with initialized := true }

namespace State

variable {s : State}

theorem step_fills (hfalse : s.initialized = false) (h : Early s) (e : Event) :
    Fills s e (s.step e) := by
  have hearly : ∀ t stage, s.threads t = stage → stage.Early := fun t _ heq => heq ▸ h.stages t
  cases e with
  | call t =>
    simp only [step, hfalse]
    split
    · exact .calls ‹_›
    · exact .stays
  | check t =>
    simp only [step, hfalse]
    split
    · exact .enters ‹_›
    · exact .stays
  | create t =>
    simp only [step]
    split
    · exact .creates _ ‹_›
    · rename_i hstage
      exact (hearly t _ hstage).elim
    · exact .stays
  | createFails t =>
    simp only [step]
    split
    · exact .fails _ ‹_› rfl
    · rename_i hstage
      exact (hearly t _ hstage).elim
    · exact .stays
  | put t =>
    simp only [step]
    split
    · split_ifs
      · exact .puts _ _ ‹_› ‹_›
      · exact .stays
    · exact .stays
  | finish t =>
    simp only [step]
    split
    · exact .finishes ‹_›
    · exact .stays
  | get t =>
    simp only [step]
    split
    · rename_i hstage _
      exact (hearly t _ hstage).elim
    · exact .stays
  | expire t =>
    simp only [step]
    split
    · rename_i hstage _
      exact (hearly t _ hstage).elim
    · exact .stays
  | reset t =>
    simp only [step]
    split
    · rename_i hstage
      exact (hearly t _ hstage).elim
    · exact .stays
  | resetFails t =>
    simp only [step]
    split
    · rename_i hstage
      exact (hearly t _ hstage).elim
    · exact .stays
  | putBack t =>
    simp only [step]
    split
    · rename_i hstage
      exact (hearly t _ hstage).elim
    · exact .stays

theorem early_goes (h : ∀ t, (s.threads t).Early) (stage : Stage) (hstage : stage.Early)
    (t u : ℕ) : ((s.goes t stage).threads u).Early := by
  rw [threads_goes]
  split_ifs
  · exact hstage
  · exact h u

theorem early_step (h : s.initialized = false → Early s) (e : Event)
    (hfalse : (s.step e).initialized = false) : Early (s.step e) := by
  have hstart := initialized_eq_false hfalse
  have hearly := h hstart
  have hfills := step_fills hstart hearly e
  generalize s.step e = s' at *
  have hstages := hearly.stages e.thread
  cases hfills with
  | stays => exact hearly
  | calls _ => exact ⟨early_goes hearly.stages .called trivial _, hearly.bounded⟩
  | enters _ =>
    exact ⟨early_goes hearly.stages (.filling poolSize none)
      ⟨le_rfl, fun h => absurd h (by decide)⟩ _, hearly.bounded⟩
  | creates left hstage =>
    rw [hstage] at hstages
    exact ⟨early_goes hearly.stages (.filling (left + 1) (some s.fresh))
      ⟨hstages.1, fun _ => Nat.succ_pos left⟩ _, hearly.bounded⟩
  | fails _ _ _ => exact ⟨early_goes hearly.stages .idle trivial _, hearly.bounded⟩
  | puts left b hstage hlt =>
    rw [hstage] at hstages
    refine ⟨early_goes hearly.stages (.filling left none)
      ⟨Nat.le_of_succ_le hstages.1, fun h => absurd h (by decide)⟩ _, ?_⟩
    rw [List.length_append]
    exact hlt
  | finishes _ => cases hfalse

theorem early_run (h : s.initialized = false → Early s) (events : List Event) :
    (s.run events).initialized = false → Early (s.run events) := by
  induction events generalizing s with
  | nil => exact h
  | cons e events ih => exact ih (early_step h e)

theorem early_start : ({} : State).initialized = false → Early {} := fun _ =>
  ⟨fun _ => trivial, Nat.zero_le _⟩

theorem doomed_step (h : s.Doomed) (hearly : Early s) (e : Event) : (s.step e).Doomed := by
  obtain ⟨hfalse, hnew, hold⟩ := h
  have hfills := step_fills hfalse hearly e
  have hbounded := hearly.bounded
  generalize s.step e = s' at *
  have hgoes : ∀ stage : Stage,
      (∀ left backend, stage = .filling left backend → maxsize < s.queue.length + left) →
      ∀ t left backend, (s.goes e.thread stage).threads t = .filling left backend →
        maxsize < s.queue.length + left := by
    intro stage hstage t left backend ht
    rw [threads_goes] at ht
    split_ifs at ht
    · exact hstage left backend ht
    · exact hold t left backend ht
  cases hfills with
  | stays => exact ⟨hfalse, hnew, hold⟩
  | calls _ => exact ⟨hfalse, hnew, hgoes _ fun _ _ h => nomatch h⟩
  | enters _ =>
    refine ⟨hfalse, hnew, hgoes _ fun left backend h => ?_⟩
    cases h
    exact hnew
  | creates left hstage =>
    refine ⟨hfalse, hnew, hgoes _ fun left backend h => ?_⟩
    cases h
    exact hold _ _ _ hstage
  | fails _ _ _ => exact ⟨hfalse, hnew, hgoes _ fun _ _ h => nomatch h⟩
  | puts left b hstage hlt =>
    have hleft := hold _ _ _ hstage
    have hlength : (s.queue ++ [b]).length = s.queue.length + 1 := List.length_append
    refine ⟨hfalse, ?_, ?_⟩
    · show maxsize < (s.queue ++ [b]).length + poolSize
      omega
    · intro t left' backend ht
      show maxsize < (s.queue ++ [b]).length + left'
      have ht : (s.goes e.thread (.filling left none)).threads t = .filling left' backend := ht
      rw [threads_goes] at ht
      split_ifs at ht
      · cases ht
        omega
      · have := hold t left' backend ht
        omega
  | finishes hstage =>
    have := hold _ _ _ hstage
    omega

theorem doomed_run (h : s.Doomed) (hearly : Early s) (events : List Event) :
    (s.run events).Doomed := by
  induction events generalizing s with
  | nil => exact h
  | cons e events ih =>
    have hdoomed := doomed_step h hearly e
    exact ih hdoomed (early_step (fun _ => hearly) e hdoomed.1)

theorem served_of_waiting {t : ℕ} (h : s.threads t = .waiting) :
    ∃ events b, (s.run events).threads t = .holding b := by
  cases hqueue : s.queue with
  | nil =>
    have hcreating : (s.goes t .creating).threads t = .creating := threads_goes_self t _
    refine ⟨[.expire t, .create t], s.fresh, ?_⟩
    simp only [run_cons, step, h, hqueue, hcreating]
    exact threads_goes_self t _
  | cons b queue =>
    refine ⟨[.get t], b, ?_⟩
    simp only [run_cons, step, h, hqueue]
    exact threads_goes_self t _

theorem served_of_step {t : ℕ} (e : Event)
    (h : ∃ events b, ((s.step e).run events).threads t = .holding b) :
    ∃ events b, (s.run events).threads t = .holding b := by
  obtain ⟨events, b, hb⟩ := h
  exact ⟨e :: events, b, hb⟩

/-- A filling with room for all that is left can be finished. -/
theorem served_of_filling {t left : ℕ} {backend : Option ℕ}
    (h : s.threads t = .filling left backend) (hleft : backend.isSome → 0 < left)
    (hroom : s.queue.length + left ≤ maxsize) :
    ∃ events b, (s.run events).threads t = .holding b := by
  induction left generalizing s backend with
  | zero =>
    cases backend with
    | some b => exact absurd (hleft rfl) (Nat.lt_irrefl 0)
    | none =>
      apply served_of_step (.finish t)
      apply served_of_waiting
      simp only [step, h]
      exact threads_goes_self t _
  | succ left ih =>
    have hput : ∀ (s : State) (b : ℕ), s.threads t = .filling (left + 1) (some b) →
        s.queue.length + (left + 1) ≤ maxsize →
        ∃ events b, (s.run events).threads t = .holding b := by
      intro s b h hroom
      have hlt : s.queue.length < maxsize := by omega
      apply served_of_step (.put t)
      simp only [step, h, if_pos hlt]
      refine ih (threads_goes_self t _) (fun h => absurd h (by decide)) ?_
      rw [List.length_append, List.length_singleton]
      omega
    cases backend with
    | some b => exact hput s b h hroom
    | none =>
      apply served_of_step (.create t)
      simp only [step, h]
      exact hput _ s.fresh (threads_goes_self t _) hroom

theorem served_of_idle {t : ℕ} (h : s.threads t = .idle)
    (hroom : s.initialized = true ∨ s.queue.length + poolSize ≤ maxsize) :
    ∃ events b, (s.run events).threads t = .holding b := by
  apply served_of_step (.call t)
  simp only [step, h]
  cases hinitialized : s.initialized with
  | true => exact served_of_waiting (threads_goes_self t _)
  | false =>
    rw [hinitialized] at hroom
    have hroom := hroom.resolve_left (by decide)
    apply served_of_step (.check t)
    have hcalled : (s.goes t .called).threads t = .called := threads_goes_self t _
    have hunset : (s.goes t .called).initialized = false := hinitialized
    simp only [if_neg Bool.false_ne_true, step, hcalled, hunset]
    exact served_of_filling (threads_goes_self t _) (fun h => absurd h (by decide)) hroom

theorem exists_idle (events : List Event) : ∃ t, (({} : State).run events).threads t = .idle := by
  obtain ⟨t, ht⟩ := Infinite.exists_notMem_finset (events.map Event.thread).toFinset
  refine ⟨t, threads_run_of_ne fun e he heq => ht ?_⟩
  rw [List.mem_toFinset, ← heq]
  exact List.mem_map_of_mem he

/-- After every interleaving, no continuation gives anybody a backend exactly if the pool is
doomed: neither those who fill it nor a new caller have room for what they have left. -/
theorem doomed_iff (events : List Event) :
    (({} : State).run events).Doomed ↔
      ∀ more t b, ((({} : State).run events).run more).threads t ≠ .holding b := by
  have hearly := early_run early_start events
  constructor
  · intro h more t b ht
    have hafter := early_run (fun _ => hearly h.1) more (doomed_run h (hearly h.1) more).1
    have hstage := hafter.stages t
    rw [ht] at hstage
    exact hstage
  · intro hnever
    by_contra hnot
    obtain ⟨t, hidle⟩ := exists_idle events
    have hserved : ∃ t more b, ((({} : State).run events).run more).threads t = .holding b := by
      cases hinitialized : (({} : State).run events).initialized with
      | true => exact ⟨t, served_of_idle hidle (Or.inl hinitialized)⟩
      | false =>
        by_cases hroom : (({} : State).run events).queue.length + poolSize ≤ maxsize
        · exact ⟨t, served_of_idle hidle (Or.inr hroom)⟩
        · have hold : ¬∀ t left backend,
              (({} : State).run events).threads t = .filling left backend →
                maxsize < (({} : State).run events).queue.length + left := fun hold =>
            hnot ⟨hinitialized, Nat.lt_of_not_le hroom, hold⟩
          push Not at hold
          obtain ⟨u, left, backend, hfilling, hle⟩ := hold
          have hstage := (hearly hinitialized).stages u
          rw [hfilling] at hstage
          exact ⟨u, served_of_filling hfilling hstage.2 hle⟩
    obtain ⟨t, more, b, hholding⟩ := hserved
    exact hnever more t b hholding

end State

/-- How many backends a thread that fills the pool has put. -/
def Stage.done : Stage → ℕ
  | .filling left _ => poolSize - left
  | _ => 0

namespace State

variable {s : State} {n : ℕ}

def Counted (n : ℕ) (s : State) : Prop :=
  s.queue.length = ∑ t ∈ Finset.range n, (s.threads t).done

theorem sum_goes {t : ℕ} (ht : t < n) (stage : Stage) :
    ∑ u ∈ Finset.range n, ((s.goes t stage).threads u).done + (s.threads t).done =
      ∑ u ∈ Finset.range n, (s.threads u).done + stage.done := by
  have hrest : ∑ u ∈ (Finset.range n).erase t, ((s.goes t stage).threads u).done =
      ∑ u ∈ (Finset.range n).erase t, (s.threads u).done := by
    apply Finset.sum_congr rfl
    intro u hu
    rw [threads_goes, if_neg (Finset.ne_of_mem_erase hu)]
  rw [← Finset.add_sum_erase _ _ (Finset.mem_range.mpr ht), hrest, threads_goes_self,
    ← Finset.add_sum_erase _ (fun u => (s.threads u).done) (Finset.mem_range.mpr ht)]
  omega

theorem counted_step (hfalse : s.initialized = false) (hearly : Early s) (h : Counted n s)
    {e : Event} (ht : e.thread < n) (hcreate : e.isCreateFails = false)
    (hafter : (s.step e).initialized = false) : Counted n (s.step e) := by
  have hfills := step_fills hfalse hearly e
  have hstages := hearly.stages e.thread
  have hsum := fun stage => sum_goes (s := s) ht stage
  generalize s.step e = s' at *
  unfold Counted at *
  cases hfills with
  | stays => exact h
  | calls hstage =>
    have hsum := hsum .called
    rw [hstage] at hsum
    exact h.trans hsum.symm
  | enters hstage =>
    have hsum := hsum (.filling poolSize none)
    rw [hstage] at hsum
    exact h.trans hsum.symm
  | creates left hstage =>
    have hsum := hsum (.filling (left + 1) (some s.fresh))
    rw [hstage] at hsum
    exact h.trans (Nat.add_right_cancel hsum).symm
  | fails left _ hfails =>
    rw [hcreate] at hfails
    cases hfails
  | puts left b hstage _ =>
    have hsum := hsum (.filling left none)
    rw [hstage] at hsum hstages
    have hle := hstages.1
    have hbefore : (Stage.filling (left + 1) (some b)).done = poolSize - (left + 1) := rfl
    have hdone : (Stage.filling left none).done = poolSize - left := rfl
    rw [hbefore, hdone] at hsum
    show (s.queue ++ [b]).length = _
    rw [List.length_append, List.length_singleton]
    show s.queue.length + 1 =
      ∑ u ∈ Finset.range n, ((s.goes e.thread (.filling left none)).threads u).done
    omega
  | finishes _ => cases hafter

theorem counted_run (hearly : s.initialized = false → Early s)
    (h : s.initialized = false → Counted n s) {events : List Event}
    (hevents : ∀ e ∈ events, e.thread < n ∧ e.isCreateFails = false) :
    (s.run events).initialized = false → Counted n (s.run events) := by
  induction events generalizing s with
  | nil => exact h
  | cons e events ih =>
    refine ih (early_step hearly e) (fun hafter => ?_) fun d hd =>
      hevents d (List.mem_cons_of_mem e hd)
    obtain ⟨ht, hcreate⟩ := hevents e List.mem_cons_self
    have hfalse := initialized_eq_false hafter
    exact counted_step hfalse (hearly hfalse) (h hfalse) ht hcreate hafter

/-- Five first callers, each with one backend left to put. -/
def fiveFillings : List Event := (List.range 5).flatMap fun t =>
  [.call t, .check t, .create t, .put t, .create t, .put t]

theorem doomed_fiveFillings : (({} : State).run fiveFillings).Doomed := by
  refine ⟨by decide +kernel, by decide +kernel, ?_⟩
  intro t left backend ht
  have hqueue : (({} : State).run fiveFillings).queue.length = 10 := by decide +kernel
  have hstages : ∀ t < 5, (({} : State).run fiveFillings).threads t = .filling 1 none := by
    decide +kernel
  have hthreads : ∀ e ∈ fiveFillings, e.thread < 5 := by decide +kernel
  by_cases hlt : t < 5
  · rw [hstages t hlt] at ht
    cases ht
    rw [hqueue]
    decide
  · have hother : ∀ e ∈ fiveFillings, e.thread ≠ t := fun e he =>
      Nat.ne_of_lt (Nat.lt_of_lt_of_le (hthreads e he) (Nat.le_of_not_lt hlt))
    have hidle := threads_run_of_ne (s := {}) hother
    rw [hidle] at ht
    cases ht

/-- Where no backend fails to start, threads below `n` can doom the pool exactly if they are five
or more. -/
theorem exists_doomed_iff (n : ℕ) :
    (∃ events : List Event, (∀ e ∈ events, e.thread < n ∧ e.isCreateFails = false) ∧
      (({} : State).run events).Doomed) ↔ 5 ≤ n := by
  constructor
  · rintro ⟨events, hevents, hfalse, hnew, hold⟩
    have hcounted := counted_run (s := {}) early_start
      (fun _ => by simp [Counted, Stage.done]) hevents hfalse
    have hearly := early_run early_start events hfalse
    generalize ({} : State).run events = s at *
    have hdone : ∀ t ∈ Finset.range n, (s.threads t).done ≤ s.queue.length - 8 := by
      intro t _
      have hstage := hearly.stages t
      have hold := hold t
      cases ht : s.threads t with
      | filling left backend =>
        rw [ht] at hstage
        have hleft := hold left backend ht
        have hle := hstage.1
        simp only [Stage.done, maxsize, poolSize] at *
        omega
      | _ => exact Nat.zero_le _
    have hsum := Finset.sum_le_sum hdone
    rw [← hcounted, Finset.sum_const_nat fun _ _ => rfl, Finset.card_range] at hsum
    by_contra hlt
    have hmul : n * (s.queue.length - 8) ≤ 4 * (s.queue.length - 8) :=
      Nat.mul_le_mul_right _ (by omega)
    have hbounded := hearly.bounded
    simp only [maxsize, poolSize] at *
    omega
  · intro hn
    refine ⟨fiveFillings, fun e he => ?_, doomed_fiveFillings⟩
    have hevents : ∀ e ∈ fiveFillings, e.thread < 5 ∧ e.isCreateFails = false := by
      decide +kernel
    exact ⟨Nat.lt_of_lt_of_le (hevents e he).1 hn, (hevents e he).2⟩

end State

end LocalPool
end IsabelleGym
