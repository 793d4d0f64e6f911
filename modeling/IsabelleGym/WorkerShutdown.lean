import IsabelleGym.ThreadedBackend

/-!
# What a shutdown leaves undone

A submit that read the flag before the close set it can put its job behind the
drain, and a close that stops waiting sets the stop flag with the exit job still
queued. Whatever is queued when the worker finds the flag set stays there.
-/

namespace IsabelleGym
namespace ThreadedBackend

open Runs

variable {F : Type}

/-- Once the worker has stopped, every future that a submit returned is completed. -/
def Answered (s : State F) : Prop :=
  s.worker = .stopped → ∀ st ∈ s.futures, st ≠ .pending

/-- The worker does not find the stop flag set with a submitted job queued, and no submit puts
its job behind that. -/
def LeavesNoJob (s : State F) : Event F → Prop
  | .readStop => s.worker = .atLoop → s.stop = true → ∀ job ∈ s.queue, job = .exit
  | .put i => s.worker = .stopped → s.passed[i]? = none
  | _ => True

/-- Every submit puts its job before the drain has found the queue empty. -/
def PutsBeforeDrained (s : State F) : Event F → Prop
  | .put i => (s.passed[i]?).isSome = true → s.closing = .notCalled ∨ s.closing = .draining
  | _ => True

namespace State

variable {s : State F}

theorem Tracked.answered_iff (h : s.Tracked) :
    Answered s ↔ (s.worker = .stopped → ∀ job ∈ s.queue, job = .exit) := by
  constructor
  · intro ha hstopped job hmem
    cases job with
    | exit => rfl
    | submitted fut fn =>
      have hpending := h.waits fut fn (List.mem_append_right _ hmem)
      exact absurd rfl (ha hstopped _ (List.mem_of_getElem? hpending))
  · rintro hqueue hstopped st hst rfl
    obtain ⟨fut, hfut⟩ := List.mem_iff_getElem?.mp hst
    obtain ⟨fn, hmem⟩ := h.pending fut hfut
    rw [hstopped] at hmem
    cases hqueue hstopped _ hmem

theorem Tracked.answered_step_iff (h : s.Tracked) (ha : Answered s) (e : Event F) :
    Answered (s.step e) ↔ LeavesNoJob s e := by
  have hleft := h.answered_iff.mp ha
  rw [(h.step e).answered_iff]
  rcases s.step_cases e with hsame | hmoves
  · rw [hsame]
    apply iff_of_true hleft
    cases e with
    | put i =>
      intro hstopped
      cases hi : s.passed[i]? with
      | none => rfl
      | some fn =>
        have hput := congrArg State.puts hsame
        simp [State.step, hi, submitUnchecked] at hput
    | readStop =>
      intro hw hs
      simp only [State.step, hw, hs, if_true] at hsame
      rw [← hsame] at hw
      cases hw
    | _ => trivial
  generalize s.step e = s' at hmoves
  cases hmoves with
  | put i fn hi =>
    constructor
    · intro hall hstopped
      cases hall hstopped (.submitted s.futures.length fn) (by simp [submitUnchecked])
    · intro hnone hstopped
      rw [hnone hstopped] at hi
      cases hi
  | stop hw hs => exact ⟨fun hall _ _ => hall rfl, fun hall _ => hall hw hs⟩
  | proceed hw hs =>
    apply iff_of_true
    · intro hstopped
      cases hstopped
    · intro _ hstop
      rw [hs] at hstop
      cases hstop
  | get | getTimesOut | finish =>
    apply iff_of_true _ trivial
    intro hstopped
    cases hstopped
  | drain job queue hc hq =>
    apply iff_of_true _ trivial
    intro hstopped job' hmem
    apply hleft (by simpa using hstopped)
    rw [hq]
    exact List.mem_cons_of_mem _ hmem
  | putExit hc =>
    apply iff_of_true _ trivial
    intro hstopped job hmem
    rcases List.mem_append.mp hmem with hold | hnew
    · exact hleft hstopped job hold
    · exact List.mem_singleton.mp hnew
  | reject | pass | setShuttingDown | drained | exitDone | exitTimesOut | setStop | join =>
    exact iff_of_true hleft trivial

structure PutOutDrained (s : State F) : Prop where
  tracked : s.Tracked
  queue : s.closing ≠ .notCalled → s.closing ≠ .draining → ∀ job ∈ s.queue, job = .exit

theorem PutOutDrained.step (h : s.PutOutDrained) (e : Event F) (he : PutsBeforeDrained s e) :
    (s.step e).PutOutDrained := by
  refine ⟨h.tracked.step e, ?_⟩
  have hqueue := h.queue
  rcases s.step_cases e with hsame | hmoves
  · rw [hsame]
    exact hqueue
  generalize s.step e = s' at hmoves
  cases hmoves with
  | put i fn hi =>
    intro hopen hdraining
    rcases he (by rw [hi]; rfl) with hc | hc
    · exact absurd hc hopen
    · exact absurd hc hdraining
  | get job queue hw hq =>
    intro hopen hdraining job' hmem
    apply hqueue hopen hdraining
    rw [hq]
    exact List.mem_cons_of_mem _ hmem
  | setShuttingDown hc => exact fun _ hno => absurd rfl hno
  | drain job queue hc hq => exact fun _ hno => absurd (by simpa using hc) hno
  | drained hc hq =>
    intro _ _ job hmem
    rw [hq] at hmem
    cases hmem
  | putExit hc =>
    intro _ _ job hmem
    rcases List.mem_append.mp hmem with hold | hnew
    · exact hqueue (by simp [hc]) (by simp [hc]) job hold
    · exact List.mem_singleton.mp hnew
  | exitDone hc | exitTimesOut hc | setStop hc | join hc =>
    exact fun _ _ => hqueue (by simp [hc]) (by simp [hc])
  | finish job raises hw => simpa using hqueue
  | reject | pass | stop | proceed | getTimesOut => exact hqueue

theorem PutOutDrained.leavesNoJob (h : s.PutOutDrained) (e : Event F)
    (he : PutsBeforeDrained s e) : LeavesNoJob s e := by
  have hclosed : s.stop = true → s.closing ≠ .notCalled ∧ s.closing ≠ .draining := by
    intro hstop
    rcases h.tracked.stopSet.mp hstop with hc | hc <;> simp [hc]
  cases e with
  | readStop =>
    intro _ hstop
    exact h.queue (hclosed hstop).1 (hclosed hstop).2
  | put i =>
    intro hstopped
    by_contra hsome
    obtain ⟨hopen, hdraining⟩ := hclosed (h.tracked.stopped hstopped)
    rcases he (Option.isSome_iff_ne_none.mpr hsome) with hc | hc
    · exact hopen hc
    · exact hdraining hc
  | _ => trivial

end State

/-- Over every run, a worker that stops leaves no future pending exactly when it leaves no job
in the queue, and it leaves none when every submit is through before the drain is. -/
theorem shutdown_answers_iff (run : List (Event F)) :
    (EveryStep State.step (fun s e => Answered (s.step e)) {} run ↔
        EveryStep State.step LeavesNoJob {} run) ∧
      (EveryStep State.step PutsBeforeDrained {} run →
        EveryStep State.step LeavesNoJob {} run) := by
  constructor
  · apply everyStep_iff_of_invariant
      (fun s e (h : s.Tracked ∧ Answered s) he =>
        ⟨h.1.step e, (h.1.answered_step_iff h.2 e).mpr he⟩)
      (fun s e h => h.1.answered_step_iff h.2 e)
    exact ⟨State.tracked_new, fun hstopped => by cases hstopped⟩
  · apply everyStep_of_invariant
      (fun s e (h : s.PutOutDrained) he => h.step e he)
      (fun s e h he => h.leavesNoJob e he)
    exact ⟨State.tracked_new, fun hno => absurd rfl hno⟩

/-- A submit is past its check when the close begins and puts its job once the exit job is done. -/
def latePut : List (Event ℕ) :=
  [.check 0, .setShuttingDown, .drain, .putExit, .readStop, .get, .finish false, .put 0,
    .exitDone, .setStop, .readStop, .join]

/-- The close has returned, the worker has stopped, and the future of the late job is pending. -/
theorem latePut_pending :
    (latePut.foldl State.step {}).closing = .returned ∧
      (latePut.foldl State.step {}).worker = .stopped ∧
      (latePut.foldl State.step {}).futures = [.pending] := ⟨rfl, rfl, rfl⟩

/-- One job at a time, in the order of the puts, none twice, the exit job behind all others, and
executed once the worker has stopped. -/
structure Orderly (s : State F) : Prop where
  oneAtATime : ∃ rest : List (Job F), rest.length ≤ 1 ∧ s.executed = s.finished ++ rest
  inOrder : s.executed.Sublist s.puts
  once : s.executed.Nodup
  exitLast : .exit ∉ s.executed.dropLast
  exitRuns : s.worker = .stopped → .exit ∈ s.executed

/-- The worker does not find the stop flag set with the exit job queued, and finds no job behind
the exit job. -/
def RunsExitLast (s : State F) : Event F → Prop
  | .readStop => s.worker = .atLoop → s.stop = true → .exit ∉ s.queue
  | .get => s.worker = .getting → .exit ∈ s.executed → s.queue = []
  | _ => True

/-- Every submit puts its job before the close puts the exit job, and the close does not give up
waiting while the exit job is queued. -/
def ExitIsWaitedFor (s : State F) : Event F → Prop
  | .put i => (s.passed[i]?).isSome = true → s.closing.exitSent = false
  | .exitTimesOut => s.closing = .waiting → .exit ∉ s.queue
  | _ => True

namespace State

variable {s : State F}

theorem Tracked.nodup_jobsPut (h : s.Tracked) : (s.executed ++ s.queue).Nodup :=
  h.order.nodup (List.Nodup.of_map Job.key h.once)

theorem Tracked.orderly_iff (h : s.Tracked) :
    Orderly s ↔ .exit ∉ s.executed.dropLast ∧ (s.worker = .stopped → .exit ∈ s.executed) := by
  constructor
  · exact fun ho => ⟨ho.exitLast, ho.exitRuns⟩
  · rintro ⟨hlast, hruns⟩
    refine ⟨⟨s.worker.jobs, ?_, h.running⟩, ?_, ?_, hlast, hruns⟩
    · cases s.worker <;> simp [Worker.jobs]
    · exact (List.sublist_append_left _ _).trans h.order
    · exact (List.nodup_append.mp h.nodup_jobsPut).1

theorem Tracked.exit_mem_iff_of_stop (h : s.Tracked) (hstop : s.stop = true) :
    .exit ∈ s.executed ↔ .exit ∉ s.queue := by
  have hput : .exit ∈ s.puts := by
    rw [h.exitPut]
    rcases h.stopSet.mp hstop with hc | hc <;> rw [hc] <;> rfl
  have hdisjoint := (List.nodup_append.mp h.nodup_jobsPut).2.2
  constructor
  · exact fun he hq => hdisjoint _ he _ hq rfl
  · intro hq
    exact (List.mem_append.mp (h.exitKept hput)).resolve_right hq

theorem Tracked.orderly_step_iff (h : s.Tracked) (ho : Orderly s) (e : Event F) :
    Orderly (s.step e) ↔ RunsExitLast s e := by
  have hbefore := h.orderly_iff.mp ho
  rw [(h.step e).orderly_iff]
  rcases s.step_cases e with hsame | hmoves
  · rw [hsame]
    apply iff_of_true hbefore
    cases e with
    | readStop =>
      intro hw hs
      simp only [State.step, hw, hs, if_true] at hsame
      rw [← hsame] at hw
      cases hw
    | get =>
      intro hw _
      cases hq : s.queue with
      | nil => rfl
      | cons job queue =>
        simp only [State.step, hw, hq] at hsame
        rw [← hsame] at hw
        cases hw
    | _ => trivial
  generalize s.step e = s' at hmoves
  cases hmoves with
  | stop hw hs =>
    have hmem := h.exit_mem_iff_of_stop hs
    constructor
    · exact fun hall _ _ => hmem.mp (hall.2 rfl)
    · exact fun hall => ⟨hbefore.1, fun _ => hmem.mpr (hall hw hs)⟩
  | proceed hw hs =>
    apply iff_of_true
    · refine ⟨hbefore.1, fun hstopped => ?_⟩
      cases hstopped
    · intro _ hstop
      rw [hs] at hstop
      cases hstop
  | get job queue hw hq =>
    simp only [List.dropLast_concat]
    constructor
    · exact fun hall _ he => absurd he hall.1
    · intro hall
      refine ⟨fun he => ?_, fun hstopped => ?_⟩
      · have hnil := hall hw he
        rw [hq] at hnil
        cases hnil
      · cases hstopped
  | getTimesOut hw hq =>
    apply iff_of_true _ trivial
    refine ⟨hbefore.1, fun hstopped => ?_⟩
    cases hstopped
  | finish job raises hw =>
    apply iff_of_true _ trivial
    refine ⟨by simpa using hbefore.1, fun hstopped => ?_⟩
    cases hstopped
  | drain job queue hc hq =>
    apply iff_of_true _ trivial
    simpa using hbefore
  | reject | pass | put | setShuttingDown | drained | putExit | exitDone | exitTimesOut | setStop
  | join => exact iff_of_true hbefore trivial

/-- Nothing stands behind the exit job, whose future is completed only by running it, and the
close goes on only when it is out of the queue. -/
structure ExitBehind (s : State F) : Prop where
  tracked : s.Tracked
  last : .exit ∉ (s.executed ++ s.queue).dropLast
  exitWaits : .exit ∈ s.worker.jobs ++ s.queue → s.exitFut = some .pending
  left : s.closing.exitSent = true → s.closing ≠ .waiting → .exit ∉ s.queue

theorem Tracked.exit_not_mem (h : s.Tracked) (hc : s.closing.exitSent = false) :
    .exit ∉ s.executed ++ s.queue := by
  intro hmem
  have hsent := h.exitPut.mp (h.order.subset hmem)
  rw [hc] at hsent
  cases hsent

theorem exitBehind_new : ({} : State F).ExitBehind where
  tracked := tracked_new
  last := by simp
  exitWaits := by simp [Worker.jobs]
  left hsent := by cases hsent

theorem ExitBehind.finish (h : s.ExitBehind) {job : Job F} (raises : Bool)
    (hw : s.worker = .running job) :
    { s.settle job (.ofRaises raises) with
      worker := .atLoop, finished := s.finished ++ [job] }.ExitBehind := by
  have hnodup := h.tracked.nodup_jobs
  have hwaits := h.exitWaits
  rw [hw] at hnodup hwaits
  refine ⟨h.tracked.finish raises hw, by simpa using h.last, ?_, by simpa using h.left⟩
  intro hmem
  have hqueue : .exit ∈ s.queue := by simpa [Worker.jobs] using hmem
  cases job with
  | submitted fut fn => exact hwaits (List.mem_append_right _ hqueue)
  | exit =>
    rw [List.map_append] at hnodup
    have hdisjoint := (List.nodup_append.mp hnodup).2.2
    exact absurd rfl (hdisjoint none (by simp [Worker.jobs, Job.key]) none
      (List.mem_map.mpr ⟨_, hqueue, rfl⟩))

theorem ExitBehind.step (h : s.ExitBehind) (e : Event F) (he : ExitIsWaitedFor s e) :
    (s.step e).ExitBehind := by
  have htracked := h.tracked.step e
  rcases s.step_cases e with hsame | hmoves
  · rw [hsame]
    exact h
  generalize s.step e = s' at hmoves htracked
  cases hmoves with
  | reject | pass | stop | proceed | getTimesOut =>
    refine ⟨htracked, h.last, ?_, h.left⟩
    intro hmem
    apply h.exitWaits
    simp_all [Worker.jobs]
  | put i fn hi =>
    have hopen := he (by rw [hi]; rfl)
    have hnot := h.tracked.exit_not_mem hopen
    refine ⟨htracked, ?_, ?_, fun hsent => ?_⟩
    · simp only [submitUnchecked, ← List.append_assoc, List.dropLast_concat]
      exact hnot
    · intro hmem
      apply h.exitWaits
      simpa [submitUnchecked] using hmem
    · have hsent' : s.closing.exitSent = true := hsent
      rw [hopen] at hsent'
      cases hsent'
  | get job queue hw hq =>
    have hlast := h.last
    have hwaits := h.exitWaits
    have hleft := h.left
    rw [hq] at hlast hwaits hleft
    rw [hw] at hwaits
    refine ⟨htracked, by simpa using hlast, hwaits, fun hsent hwait hmem => ?_⟩
    exact hleft hsent hwait (List.mem_cons_of_mem _ hmem)
  | finish job raises hw => exact h.finish raises hw
  | drain job queue hc hq =>
    have hopen : s.closing.exitSent = false := by rw [hc]; rfl
    have hnot := h.tracked.exit_not_mem hopen
    have hsub : ∀ j, j ∈ s.worker.jobs ++ queue → j ∈ s.executed ++ s.queue := by
      intro j hj
      rw [h.tracked.running, hq]
      rcases List.mem_append.mp hj with hj | hj
      · exact List.mem_append_left _ (List.mem_append_right _ hj)
      · exact List.mem_append_right _ (List.mem_cons_of_mem _ hj)
    refine ⟨htracked, fun hmem => hnot ?_, fun hmem => absurd (hsub _ (by simpa using hmem)) hnot,
      fun hsent => ?_⟩
    · have hin : .exit ∈ s.executed ++ queue := by
        simpa using (List.dropLast_sublist _).subset hmem
      rw [hq]
      exact (List.Sublist.refl s.executed |>.append (List.sublist_cons_self job queue)).subset hin
    · rw [closing_settle, hopen] at hsent
      cases hsent
  | setShuttingDown hc | drained hc hq =>
    exact ⟨htracked, h.last, h.exitWaits, fun hsent => by cases hsent⟩
  | putExit hc =>
    have hopen : s.closing.exitSent = false := by rw [hc]; rfl
    refine ⟨htracked, ?_, fun _ => rfl, fun _ hno => absurd rfl hno⟩
    simp only [← List.append_assoc, List.dropLast_concat]
    exact h.tracked.exit_not_mem hopen
  | exitDone hc hdone =>
    exact ⟨htracked, h.last, h.exitWaits, fun _ _ hmem =>
      hdone (h.exitWaits (List.mem_append_right _ hmem))⟩
  | exitTimesOut hc => exact ⟨htracked, h.last, h.exitWaits, fun _ _ => he hc⟩
  | setStop hc | join hc =>
    exact ⟨htracked, h.last, h.exitWaits, fun _ _ => h.left (by rw [hc]; rfl) (by simp [hc])⟩

theorem ExitBehind.runsExitLast (h : s.ExitBehind) (e : Event F) : RunsExitLast s e := by
  cases e with
  | readStop =>
    intro _ hstop
    rcases h.tracked.stopSet.mp hstop with hc | hc <;>
      exact h.left (by rw [hc]; rfl) (by simp [hc])
  | get =>
    intro _ hmem
    by_contra hne
    apply h.last
    rw [List.dropLast_append_of_ne_nil hne]
    exact List.mem_append_left _ hmem
  | _ => trivial

end State

/-- Over every run, jobs are executed one at a time in the order of their puts, and the exit job
exactly once and last, exactly when the worker neither leaves the exit job in the queue nor
finds a job behind it; so when no job is put behind it and the close waits for it. -/
theorem exit_runs_last_iff (run : List (Event F)) :
    (EveryStep State.step (fun s e => Orderly (s.step e)) {} run ↔
        EveryStep State.step RunsExitLast {} run) ∧
      (EveryStep State.step ExitIsWaitedFor {} run →
        EveryStep State.step RunsExitLast {} run) := by
  constructor
  · apply everyStep_iff_of_invariant
      (fun s e (h : s.Tracked ∧ Orderly s) he =>
        ⟨h.1.step e, (h.1.orderly_step_iff h.2 e).mpr he⟩)
      (fun s e h => h.1.orderly_step_iff h.2 e)
    refine ⟨State.tracked_new, State.tracked_new.orderly_iff.mpr ⟨by simp, fun hstopped => ?_⟩⟩
    cases hstopped
  · exact everyStep_of_invariant (fun s e (h : s.ExitBehind) he => h.step e he)
      (fun s e h _ => h.runsExitLast e) State.exitBehind_new

/-- The running job outlasts the wait for the exit job. -/
def slowJob : List (Event ℕ) :=
  [.check 0, .put 0, .readStop, .get, .setShuttingDown, .drain, .putExit, .exitTimesOut, .setStop,
    .finish false, .readStop, .join]

/-- A submit is past its check when the close begins and puts its job behind the exit job, which
the worker reaches before the close has set the stop flag. -/
def putBehindExit : List (Event ℕ) :=
  [.check 0, .setShuttingDown, .drain, .putExit, .put 0, .readStop, .get, .finish false,
    .readStop, .get]

/-- The exit job is lost behind a slow one, or a job runs on the exited backend. -/
theorem exit_lost_or_not_last :
    ((slowJob.foldl State.step {}).worker = .stopped ∧
        (slowJob.foldl State.step {}).closing = .returned ∧
        (slowJob.foldl State.step {}).executed = [.submitted 0 0]) ∧
      (putBehindExit.foldl State.step {}).executed = [.exit, .submitted 0 0] :=
  ⟨⟨rfl, rfl, rfl⟩, rfl⟩

end ThreadedBackend
end IsabelleGym
