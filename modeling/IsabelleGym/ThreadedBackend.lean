import IsabelleGym.Runs
import Mathlib.Data.List.Nodup
import Mathlib.Data.List.Sublists

/-!
# The worker thread of a backend and its shutdown

Submitters, the worker loop and one `close` share a queue and two flags, without
a lock. A submit reads the shutdown flag first and puts its job later; the close
sets the flag, drains the queue, puts the exit job and waits for it; the worker
reads the stop flag between two jobs. Each of these is a step of its own here.
-/

namespace IsabelleGym
namespace ThreadedBackend

variable {F : Type}

/-- A submitted job with the number of its future, or the exit job of the close. -/
inductive Job (F : Type)
  | submitted (fut : ℕ) (fn : F)
  | exit
deriving DecidableEq

inductive FutureState
  | pending | result | exception
deriving DecidableEq

inductive Worker (F : Type)
  | atLoop
  | getting
  | running (job : Job F)
  | stopped

inductive Closing
  | notCalled | draining | drained | waiting | leaving | joining | returned
deriving DecidableEq

/-- The fields of the backend, the submits that have passed the check of the flag, the progress
of the close, and three records: the jobs put, started and finished so far. -/
structure State (F : Type) where
  queue : List (Job F) := []
  futures : List FutureState := []
  exitFut : Option FutureState := none
  shuttingDown : Bool := false
  stop : Bool := false
  worker : Worker F := .atLoop
  passed : List F := []
  closing : Closing := .notCalled
  puts : List (Job F) := []
  executed : List (Job F) := []
  finished : List (Job F) := []

inductive Event (F : Type)
  | check (fn : F)
  | put (i : ℕ)
  | readStop
  | get
  | getTimesOut
  | finish (raises : Bool)
  | setShuttingDown
  | drain
  | putExit
  | exitDone
  | exitTimesOut
  | setStop
  | join

namespace Job

/-- The number of the future; none for the exit job. -/
def key : Job F → Option ℕ
  | .submitted fut _ => some fut
  | .exit => none

end Job

def Worker.jobs : Worker F → List (Job F)
  | .running job => [job]
  | _ => []

def FutureState.ofRaises (raises : Bool) : FutureState := if raises then .exception else .result

def Closing.exitSent : Closing → Bool
  | .waiting | .leaving | .joining | .returned => true
  | _ => false

namespace State

variable (s : State F)

def settle (job : Job F) (st : FutureState) : State F :=
  match job with
  | .submitted fut _ => { s with futures := s.futures.set fut st }
  | .exit => { s with exitFut := some st }

def submitUnchecked (fn : F) : State F :=
  let job := Job.submitted s.futures.length fn
  { s with
    futures := s.futures ++ [.pending], queue := s.queue ++ [job], puts := s.puts ++ [job] }

def step : Event F → State F
  | .check fn =>
    if s.shuttingDown then { s with futures := s.futures ++ [.exception] }
    else { s with passed := s.passed ++ [fn] }
  | .put i =>
    match s.passed[i]? with
    | some fn => { s.submitUnchecked fn with passed := s.passed.eraseIdx i }
    | none => s
  | .readStop =>
    match s.worker with
    | .atLoop => { s with worker := if s.stop then .stopped else .getting }
    | _ => s
  | .get =>
    match s.worker, s.queue with
    | .getting, job :: queue =>
      { s with queue, worker := .running job, executed := s.executed ++ [job] }
    | _, _ => s
  | .getTimesOut =>
    match s.worker, s.queue with
    | .getting, [] => { s with worker := .atLoop }
    | _, _ => s
  | .finish raises =>
    match s.worker with
    | .running job =>
      { s.settle job (.ofRaises raises) with
        worker := .atLoop, finished := s.finished ++ [job] }
    | _ => s
  | .setShuttingDown =>
    match s.closing with
    | .notCalled => { s with shuttingDown := true, closing := .draining }
    | _ => s
  | .drain =>
    match s.closing, s.queue with
    | .draining, job :: queue => { s.settle job .exception with queue }
    | .draining, [] => { s with closing := .drained }
    | _, _ => s
  | .putExit =>
    match s.closing with
    | .drained =>
      { s with
        exitFut := some .pending, queue := s.queue ++ [.exit], puts := s.puts ++ [.exit]
        closing := .waiting }
    | _ => s
  | .exitDone =>
    match s.closing with
    | .waiting => if s.exitFut = some .pending then s else { s with closing := .leaving }
    | _ => s
  | .exitTimesOut =>
    match s.closing with
    | .waiting => { s with closing := .leaving }
    | _ => s
  | .setStop =>
    match s.closing with
    | .leaving => { s with stop := true, closing := .joining }
    | _ => s
  | .join =>
    match s.closing with
    | .joining => { s with closing := .returned }
    | _ => s

inductive Moves (s : State F) : Event F → State F → Prop
  | reject (fn : F) (h : s.shuttingDown = true) :
    Moves s (.check fn) { s with futures := s.futures ++ [.exception] }
  | pass (fn : F) (h : s.shuttingDown = false) :
    Moves s (.check fn) { s with passed := s.passed ++ [fn] }
  | put (i : ℕ) (fn : F) (h : s.passed[i]? = some fn) :
    Moves s (.put i) { s.submitUnchecked fn with passed := s.passed.eraseIdx i }
  | stop (hw : s.worker = .atLoop) (h : s.stop = true) :
    Moves s .readStop { s with worker := .stopped }
  | proceed (hw : s.worker = .atLoop) (h : s.stop = false) :
    Moves s .readStop { s with worker := .getting }
  | get (job : Job F) (queue : List (Job F)) (hw : s.worker = .getting)
    (hq : s.queue = job :: queue) :
    Moves s .get { s with queue, worker := .running job, executed := s.executed ++ [job] }
  | getTimesOut (hw : s.worker = .getting) (hq : s.queue = []) :
    Moves s .getTimesOut { s with worker := .atLoop }
  | finish (job : Job F) (raises : Bool) (hw : s.worker = .running job) :
    Moves s (.finish raises) { s.settle job (.ofRaises raises) with
      worker := .atLoop, finished := s.finished ++ [job] }
  | setShuttingDown (hc : s.closing = .notCalled) :
    Moves s .setShuttingDown { s with shuttingDown := true, closing := .draining }
  | drain (job : Job F) (queue : List (Job F)) (hc : s.closing = .draining)
    (hq : s.queue = job :: queue) :
    Moves s .drain { s.settle job .exception with queue }
  | drained (hc : s.closing = .draining) (hq : s.queue = []) :
    Moves s .drain { s with closing := .drained }
  | putExit (hc : s.closing = .drained) :
    Moves s .putExit { s with
      exitFut := some .pending, queue := s.queue ++ [.exit], puts := s.puts ++ [.exit]
      closing := .waiting }
  | exitDone (hc : s.closing = .waiting) (h : s.exitFut ≠ some .pending) :
    Moves s .exitDone { s with closing := .leaving }
  | exitTimesOut (hc : s.closing = .waiting) :
    Moves s .exitTimesOut { s with closing := .leaving }
  | setStop (hc : s.closing = .leaving) :
    Moves s .setStop { s with stop := true, closing := .joining }
  | join (hc : s.closing = .joining) : Moves s .join { s with closing := .returned }

/-- The step is not enabled, or it is one of the moves. -/
theorem step_cases (e : Event F) : s.step e = s ∨ s.Moves e (s.step e) := by
  cases e with
  | check fn =>
    cases h : s.shuttingDown
    · simpa [step, h] using Or.inr (Moves.pass fn h)
    · simpa [step, h] using Or.inr (Moves.reject fn h)
  | put i =>
    cases h : s.passed[i]? with
    | none => simp [step, h]
    | some fn => simpa [step, h] using Or.inr (Moves.put i fn h)
  | readStop =>
    cases hw : s.worker with
    | atLoop =>
      cases h : s.stop
      · simpa [step, hw, h] using Or.inr (Moves.proceed hw h)
      · simpa [step, hw, h] using Or.inr (Moves.stop hw h)
    | getting | running job | stopped => simp [step, hw]
  | get =>
    cases hw : s.worker with
    | getting =>
      cases hq : s.queue with
      | nil => simp [step, hw, hq]
      | cons job queue => simpa [step, hw, hq] using Or.inr (Moves.get job queue hw hq)
    | atLoop | running job | stopped => simp [step, hw]
  | getTimesOut =>
    cases hw : s.worker with
    | getting =>
      cases hq : s.queue with
      | nil => simpa [step, hw, hq] using Or.inr (Moves.getTimesOut hw hq)
      | cons job queue => simp [step, hw, hq]
    | atLoop | running job | stopped => simp [step, hw]
  | finish raises =>
    cases hw : s.worker with
    | running job => simpa [step, hw] using Or.inr (Moves.finish job raises hw)
    | atLoop | getting | stopped => simp [step, hw]
  | setShuttingDown =>
    by_cases hc : s.closing = .notCalled
    · simpa [step, hc] using Or.inr (Moves.setShuttingDown hc)
    · cases h : s.closing <;> simp_all [step]
  | drain =>
    by_cases hc : s.closing = .draining
    · cases hq : s.queue with
      | nil => simpa [step, hc, hq] using Or.inr (Moves.drained hc hq)
      | cons job queue => simpa [step, hc, hq] using Or.inr (Moves.drain job queue hc hq)
    · cases h : s.closing <;> simp_all [step]
  | putExit =>
    by_cases hc : s.closing = .drained
    · simpa [step, hc] using Or.inr (Moves.putExit hc)
    · cases h : s.closing <;> simp_all [step]
  | exitDone =>
    by_cases hc : s.closing = .waiting
    · by_cases h : s.exitFut = some .pending
      · simp [step, hc, h]
      · simpa [step, hc, h] using Or.inr (Moves.exitDone hc h)
    · cases h : s.closing <;> simp_all [step]
  | exitTimesOut =>
    by_cases hc : s.closing = .waiting
    · simpa [step, hc] using Or.inr (Moves.exitTimesOut hc)
    · cases h : s.closing <;> simp_all [step]
  | setStop =>
    by_cases hc : s.closing = .leaving
    · simpa [step, hc] using Or.inr (Moves.setStop hc)
    · cases h : s.closing <;> simp_all [step]
  | join =>
    by_cases hc : s.closing = .joining
    · simpa [step, hc] using Or.inr (Moves.join hc)
    · cases h : s.closing <;> simp_all [step]

/-- Every pending future belongs to the running job or a queued one, and the jobs started and
queued are puts in their order. -/
structure Tracked (s : State F) : Prop where
  fresh : ∀ fut fn, .submitted fut fn ∈ s.puts → fut < s.futures.length
  once : (s.puts.map Job.key).Nodup
  order : (s.executed ++ s.queue).Sublist s.puts
  running : s.executed = s.finished ++ s.worker.jobs
  pending : ∀ fut, s.futures[fut]? = some .pending →
    ∃ fn, .submitted fut fn ∈ s.worker.jobs ++ s.queue
  waits : ∀ fut fn, .submitted fut fn ∈ s.worker.jobs ++ s.queue →
    s.futures[fut]? = some .pending
  exitPut : .exit ∈ s.puts ↔ s.closing.exitSent = true
  exitKept : .exit ∈ s.puts → .exit ∈ s.executed ++ s.queue
  stopSet : s.stop = true ↔ s.closing = .joining ∨ s.closing = .returned
  stopped : s.worker = .stopped → s.stop = true

variable {s : State F}

theorem tracked_new : ({} : State F).Tracked where
  fresh := by simp
  once := by simp
  order := by simp
  running := rfl
  pending := by simp
  waits := by simp [Worker.jobs]
  exitPut := by simp [Closing.exitSent]
  exitKept := by simp
  stopSet := by simp
  stopped := by simp

theorem ofRaises_ne_pending (raises : Bool) : FutureState.ofRaises raises ≠ .pending := by
  cases raises <;> simp [FutureState.ofRaises]

theorem Tracked.nodup_jobs (h : s.Tracked) :
    ((s.worker.jobs ++ s.queue).map Job.key).Nodup := by
  have hall : ((s.executed ++ s.queue).map Job.key).Nodup := (h.order.map Job.key).nodup h.once
  rw [h.running, List.append_assoc, List.map_append] at hall
  exact (List.nodup_append.mp hall).2.1

/-- Settling the future of a job that is then dropped keeps the others pending. -/
theorem settle_spec {job : Job F} {rest : List (Job F)} {st : FutureState}
    (hst : st ≠ .pending) (hnodup : ((job :: rest).map Job.key).Nodup)
    (hpending : ∀ fut, s.futures[fut]? = some .pending → ∃ fn, .submitted fut fn ∈ job :: rest)
    (hwaits : ∀ fut fn, .submitted fut fn ∈ job :: rest → s.futures[fut]? = some .pending) :
    (s.settle job st).futures.length = s.futures.length ∧
      (∀ fut, (s.settle job st).futures[fut]? = some .pending →
        ∃ fn, Job.submitted fut fn ∈ rest) ∧
      ∀ fut fn, .submitted fut fn ∈ rest → (s.settle job st).futures[fut]? = some .pending := by
  cases job with
  | exit =>
    refine ⟨rfl, fun fut hfut => ?_, fun fut fn hmem => hwaits fut fn (List.mem_cons_of_mem _ hmem)⟩
    obtain ⟨fn, hmem⟩ := hpending fut hfut
    exact ⟨fn, by simpa using hmem⟩
  | submitted i g =>
    have hother : ∀ fut fn, Job.submitted fut fn ∈ rest → fut ≠ i := by
      rintro fut fn hmem rfl
      rw [List.map_cons, List.nodup_cons] at hnodup
      exact hnodup.1 (List.mem_map.mpr ⟨_, hmem, rfl⟩)
    refine ⟨by simp [settle], fun fut hfut => ?_, fun fut fn hmem => ?_⟩
    · by_cases hi : fut = i
      · subst hi
        by_cases hlt : fut < s.futures.length
        · exact absurd (by simpa [settle, hlt] using hfut) hst
        · simp [settle, hlt] at hfut
      · have hsame : s.futures[fut]? = some .pending := by
          simpa [settle, List.getElem?_set_ne (Ne.symm hi)] using hfut
        obtain ⟨fn, hmem⟩ := hpending fut hsame
        rcases List.mem_cons.mp hmem with heq | hrest
        · cases heq
          exact absurd rfl hi
        · exact ⟨fn, hrest⟩
    · have hi := hother fut fn hmem
      simpa [settle, List.getElem?_set_ne (Ne.symm hi)] using
        hwaits fut fn (List.mem_cons_of_mem _ hmem)

theorem pending_concat {futures : List FutureState} {st : FutureState} {fut : ℕ}
    (h : (futures ++ [st])[fut]? = some .pending) :
    futures[fut]? = some .pending ∨ fut = futures.length ∧ st = .pending := by
  rcases lt_trichotomy fut futures.length with hlt | heq | hgt
  · rw [List.getElem?_append_left hlt] at h
    exact Or.inl h
  · subst heq
    exact Or.inr ⟨rfl, by simpa using h⟩
  · rw [List.getElem?_append_right (by omega)] at h
    rw [List.getElem?_eq_none (by simp; omega)] at h
    cases h

theorem getElem?_concat_of_some {futures : List FutureState} {a : FutureState} {fut : ℕ}
    (st : FutureState) (h : futures[fut]? = some a) : (futures ++ [st])[fut]? = some a := by
  rw [List.getElem?_append_left (List.getElem?_eq_some_iff.mp h).1, h]

@[simp] theorem queue_settle (job : Job F) (st : FutureState) :
    (s.settle job st).queue = s.queue := by cases job <;> rfl

@[simp] theorem worker_settle (job : Job F) (st : FutureState) :
    (s.settle job st).worker = s.worker := by cases job <;> rfl

@[simp] theorem puts_settle (job : Job F) (st : FutureState) :
    (s.settle job st).puts = s.puts := by cases job <;> rfl

@[simp] theorem executed_settle (job : Job F) (st : FutureState) :
    (s.settle job st).executed = s.executed := by cases job <;> rfl

@[simp] theorem finished_settle (job : Job F) (st : FutureState) :
    (s.settle job st).finished = s.finished := by cases job <;> rfl

@[simp] theorem closing_settle (job : Job F) (st : FutureState) :
    (s.settle job st).closing = s.closing := by cases job <;> rfl

@[simp] theorem stop_settle (job : Job F) (st : FutureState) :
    (s.settle job st).stop = s.stop := by cases job <;> rfl

/-- Between two jobs the worker changes nothing but its place in the loop. -/
theorem Tracked.withWorker (h : s.Tracked) {worker : Worker F}
    (hjobs : worker.jobs = s.worker.jobs) (hstop : worker = .stopped → s.stop = true) :
    { s with worker }.Tracked where
  fresh := h.fresh
  once := h.once
  order := h.order
  running := by rw [hjobs, h.running]
  pending := by rw [hjobs]; exact h.pending
  waits := by rw [hjobs]; exact h.waits
  exitPut := h.exitPut
  exitKept := h.exitKept
  stopSet := h.stopSet
  stopped := hstop

/-- A close that neither puts the exit job nor sets the stop flag only goes on. -/
theorem Tracked.withClosing (h : s.Tracked) {closing : Closing}
    (hsent : closing.exitSent = s.closing.exitSent)
    (hstop : closing = .joining ∨ closing = .returned ↔
      s.closing = .joining ∨ s.closing = .returned) :
    { s with closing }.Tracked where
  fresh := h.fresh
  once := h.once
  order := h.order
  running := h.running
  pending := h.pending
  waits := h.waits
  exitPut := by rw [hsent]; exact h.exitPut
  exitKept := h.exitKept
  stopSet := h.stopSet.trans hstop.symm
  stopped := h.stopped

theorem Tracked.put (h : s.Tracked) (fn : F) (passed : List F) :
    { s.submitUnchecked fn with passed }.Tracked where
  fresh fut g hmem := by
    simp only [submitUnchecked, List.length_append, List.length_singleton]
    rcases List.mem_append.mp hmem with hold | hnew
    · have := h.fresh fut g hold
      omega
    · cases List.mem_singleton.mp hnew
      omega
  once := by
    simp only [submitUnchecked, List.map_append, List.map_singleton]
    apply List.Nodup.append h.once (List.nodup_singleton _)
    intro key hkey hlast
    obtain ⟨job, hjob, rfl⟩ := List.mem_map.mp hkey
    cases job with
    | exit => simp [Job.key] at hlast
    | submitted fut g =>
      have hlt := h.fresh fut g hjob
      have heq : fut = s.futures.length := by simpa [Job.key] using hlast
      omega
  order := by
    simp only [submitUnchecked, ← List.append_assoc]
    exact h.order.append (List.Sublist.refl _)
  running := h.running
  pending fut hfut := by
    rcases pending_concat hfut with hold | ⟨rfl, _⟩
    · obtain ⟨g, hmem⟩ := h.pending fut hold
      exact ⟨g, by simpa [submitUnchecked, or_assoc] using Or.inl (List.mem_append.mp hmem)⟩
    · exact ⟨fn, by simp [submitUnchecked]⟩
  waits fut g hmem := by
    simp only [submitUnchecked, ← List.append_assoc] at hmem ⊢
    rcases List.mem_append.mp hmem with hold | hnew
    · exact getElem?_concat_of_some _ (h.waits fut g hold)
    · cases List.mem_singleton.mp hnew
      simp
  exitPut := by simpa [submitUnchecked] using h.exitPut
  exitKept := by
    have hkept := h.exitKept
    simp only [List.mem_append] at hkept
    simpa [submitUnchecked] using hkept
  stopSet := h.stopSet
  stopped := h.stopped

theorem Tracked.get (h : s.Tracked) {job : Job F} {queue : List (Job F)}
    (hw : s.worker = .getting) (hq : s.queue = job :: queue) :
    { s with queue, worker := .running job, executed := s.executed ++ [job] }.Tracked := by
  have hrunning := h.running
  have hpending := h.pending
  have hwaits := h.waits
  have horder := h.order
  have hkept := h.exitKept
  rw [hw] at hrunning hpending hwaits
  rw [hq] at hpending hwaits horder hkept
  constructor
  · exact h.fresh
  · exact h.once
  · simpa using horder
  · simp only [Worker.jobs, List.append_nil] at hrunning ⊢
    rw [hrunning]
  · exact hpending
  · exact hwaits
  · exact h.exitPut
  · simpa using hkept
  · exact h.stopSet
  · intro hstopped
    cases hstopped

theorem Tracked.finish (h : s.Tracked) {job : Job F} (raises : Bool)
    (hw : s.worker = .running job) :
    { s.settle job (.ofRaises raises) with
      worker := .atLoop, finished := s.finished ++ [job] }.Tracked := by
  have hnodup := h.nodup_jobs
  have hpending := h.pending
  have hwaits := h.waits
  have hrunning := h.running
  rw [hw] at hnodup hpending hwaits hrunning
  obtain ⟨hlength, hpending', hwaits'⟩ :=
    settle_spec (ofRaises_ne_pending raises) hnodup hpending hwaits
  constructor
  · simp only [puts_settle, hlength]
    exact h.fresh
  · simpa using h.once
  · simpa using h.order
  · simpa [Worker.jobs] using hrunning
  · simpa [Worker.jobs] using hpending'
  · simpa [Worker.jobs] using hwaits'
  · simpa using h.exitPut
  · simpa using h.exitKept
  · simpa using h.stopSet
  · intro hstopped
    cases hstopped

theorem Tracked.drain (h : s.Tracked) {job : Job F} {queue : List (Job F)}
    (hc : s.closing = .draining) (hq : s.queue = job :: queue) :
    { s.settle job .exception with queue }.Tracked := by
  have hperm : (s.worker.jobs ++ s.queue).Perm (job :: (s.worker.jobs ++ queue)) := by
    rw [hq]
    exact List.perm_middle
  have hnodup : ((job :: (s.worker.jobs ++ queue)).map Job.key).Nodup :=
    (hperm.map Job.key).nodup_iff.mp h.nodup_jobs
  obtain ⟨hlength, hpending, hwaits⟩ := settle_spec
    (by simp : FutureState.exception ≠ .pending) hnodup
    (fun fut hfut => (h.pending fut hfut).imp fun _ hmem => hperm.mem_iff.mp hmem)
    (fun fut fn hmem => h.waits fut fn (hperm.mem_iff.mpr hmem))
  have hdropped : (s.executed ++ queue).Sublist (s.executed ++ s.queue) := by
    rw [hq]
    exact (List.Sublist.refl _).append (List.sublist_cons_self job queue)
  have hnotSent : .exit ∉ s.puts := by
    rw [h.exitPut, hc]
    simp [Closing.exitSent]
  constructor
  · simp only [puts_settle, hlength]
    exact h.fresh
  · simpa using h.once
  · simpa using hdropped.trans h.order
  · simpa using h.running
  · simpa using hpending
  · simpa using hwaits
  · simpa using h.exitPut
  · simp [hnotSent]
  · simpa using h.stopSet
  · simpa using h.stopped

theorem Tracked.putExit (h : s.Tracked) (hc : s.closing = .drained) :
    { s with
      exitFut := some .pending, queue := s.queue ++ [Job.exit], puts := s.puts ++ [Job.exit]
      closing := .waiting }.Tracked := by
  have hnotSent : .exit ∉ s.puts := by
    rw [h.exitPut, hc]
    simp [Closing.exitSent]
  have hstop : s.stop = false := by
    have := h.stopSet
    rw [hc] at this
    simpa using this
  constructor
  · simpa using h.fresh
  · rw [List.map_append]
    apply List.Nodup.append h.once (List.nodup_singleton _)
    intro key hkey hlast
    obtain ⟨job, hjob, rfl⟩ := List.mem_map.mp hkey
    cases job with
    | exit => exact hnotSent hjob
    | submitted fut g => simp [Job.key] at hlast
  · rw [← List.append_assoc]
    exact h.order.append (List.Sublist.refl _)
  · exact h.running
  · intro fut hfut
    obtain ⟨fn, hmem⟩ := h.pending fut hfut
    exact ⟨fn, by simpa using hmem⟩
  · intro fut fn hmem
    exact h.waits fut fn (by simpa using hmem)
  · simp [Closing.exitSent]
  · simp
  · simp [hstop]
  · exact h.stopped

theorem Tracked.step (h : s.Tracked) (e : Event F) : (s.step e).Tracked := by
  rcases s.step_cases e with hsame | hmoves
  · rw [hsame]
    exact h
  generalize s.step e = s' at hmoves
  cases hmoves with
  | reject fn hdown =>
    refine ⟨fun fut g hmem => ?_, h.once, h.order, h.running, fun fut hfut => ?_,
      fun fut g hmem => getElem?_concat_of_some _ (h.waits fut g hmem), h.exitPut, h.exitKept,
      h.stopSet, h.stopped⟩
    · have := h.fresh fut g hmem
      simp only [List.length_append]
      omega
    · rcases pending_concat hfut with hold | ⟨_, hnew⟩
      · exact h.pending fut hold
      · cases hnew
  | pass fn hup =>
    exact ⟨h.fresh, h.once, h.order, h.running, h.pending, h.waits, h.exitPut, h.exitKept,
      h.stopSet, h.stopped⟩
  | put i fn hi => exact h.put fn _
  | stop hw hs => exact h.withWorker (by rw [hw]; rfl) fun _ => hs
  | proceed hw hs => exact h.withWorker (by rw [hw]; rfl) fun hno => by cases hno
  | get job queue hw hq => exact h.get hw hq
  | getTimesOut hw hq => exact h.withWorker (by rw [hw]; rfl) fun hno => by cases hno
  | finish job raises hw => exact h.finish raises hw
  | setShuttingDown hc =>
    have hgoes : { s with closing := .draining }.Tracked :=
      h.withClosing (by rw [hc]; rfl) (by rw [hc]; simp)
    exact ⟨hgoes.fresh, hgoes.once, hgoes.order, hgoes.running, hgoes.pending, hgoes.waits,
      hgoes.exitPut, hgoes.exitKept, hgoes.stopSet, hgoes.stopped⟩
  | drain job queue hc hq => exact h.drain hc hq
  | drained hc hq => exact h.withClosing (by rw [hc]; rfl) (by rw [hc]; simp)
  | putExit hc => exact h.putExit hc
  | exitDone hc hdone => exact h.withClosing (by rw [hc]; rfl) (by rw [hc]; simp)
  | exitTimesOut hc => exact h.withClosing (by rw [hc]; rfl) (by rw [hc]; simp)
  | setStop hc =>
    exact ⟨h.fresh, h.once, h.order, h.running, h.pending, h.waits, by
      rw [h.exitPut, hc]; rfl, h.exitKept, by simp, fun _ => rfl⟩
  | join hc => exact h.withClosing (by rw [hc]; rfl) (by rw [hc]; simp)

end State
end ThreadedBackend
end IsabelleGym
