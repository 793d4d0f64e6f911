import IsabelleGym.Interleaving
import IsabelleGym.ServerConcurrency
import IsabelleGym.ThreadedBackend

/-!
# Runs of the lease-atomic server

The sessions of the abstract server are components that share nothing, so its
schedules are determined by what each session sees. A session serves its
requests in the order they were enqueued, and the worker thread of a backend
that is not being closed is one of its sessions.
-/

namespace ServerConcurrency

open Runs Interleaving

variable {Sid Cid Req Lst : Type}

def actsOn : Action Sid Cid Req Lst → Sid
  | .acquire _ s | .release _ s | .enqueue _ s _ | .start s | .finish s _ => s

def EnabledOn (x : SessionState Cid Req Lst) : Action Sid Cid Req Lst → Prop
  | .acquire _ _ => x.owner = none
  | .release c _ => x.owner = some c ∧ x.q = [] ∧ x.running = none
  | .enqueue c _ _ => x.owner = some c
  | .start _ => x.owner ≠ none ∧ x.running = none ∧ x.q ≠ []
  | .finish _ _ => x.owner ≠ none ∧ x.running ≠ none

def execOn (x : SessionState Cid Req Lst) :
    Action Sid Cid Req Lst → SessionState Cid Req Lst
  | .acquire c _ => { x with owner := some c }
  | .release _ _ => { x with owner := none }
  | .enqueue _ _ r => { x with q := x.q ++ [r] }
  | .start _ => { x with running := x.q.head?, q := x.q.tail }
  | .finish _ st => { x with running := none, lst := st }

def sessions : Components Sid (SessionState Cid Req Lst) (Action Sid Cid Req Lst) where
  on := actsOn
  enabled := EnabledOn
  act := execOn

theorem enabled_eq : Enabled = (@sessions Sid Cid Req Lst).Enabled := by
  funext σ a
  cases a <;> rfl

variable [DecidableEq Sid]

theorem exec_eq : exec = (@sessions Sid Cid Req Lst).exec := by
  funext σ a
  cases a <;> rfl

/-- Two schedules in which every session sees the same actions are both possible or neither, and
lead to the same state. They differ by the order of neighbours on distinct sessions alone. -/
theorem schedules_agree (σ : SystemState Sid Cid Req Lst) {as bs : List (Action Sid Cid Req Lst)}
    (h : ∀ s, as.filter (fun a => actsOn a = s) = bs.filter (fun a => actsOn a = s)) :
    sessions.Rearranged as bs ∧ (EveryStep exec Enabled σ as ↔ EveryStep exec Enabled σ bs) ∧
      as.foldl exec σ = bs.foldl exec σ := by
  have hproj : ∀ s, sessions.proj s as = sessions.proj s bs := h
  refine ⟨Components.rearranged_iff.mpr hproj, ?_, ?_⟩
  · rw [exec_eq, enabled_eq, sessions.everyStep_enabled_iff, sessions.everyStep_enabled_iff]
    simp only [hproj]
  · funext s
    rw [exec_eq, sessions.foldl_exec_apply, sessions.foldl_exec_apply, hproj]

def twoSessions : SystemState Bool ℕ ℕ ℕ := fun _ => ⟨none, [], none, 0⟩

theorem schedules_agree_two :
    ([.acquire 0 true, .acquire 1 false] : List (Action Bool ℕ ℕ ℕ)).foldl exec twoSessions =
      ([.acquire 1 false, .acquire 0 true] : List (Action Bool ℕ ℕ ℕ)).foldl exec twoSessions :=
  (schedules_agree twoSessions (by intro s; cases s <;> rfl)).2.2

section Fifo

def SessionState.jobs (x : SessionState Cid Req Lst) : List Req := x.running.toList ++ x.q

def Action.requests : Action Sid Cid Req Lst → List Req
  | .enqueue _ _ r => [r]
  | _ => []

def Action.isFinish : Action Sid Cid Req Lst → Bool
  | .finish _ _ => true
  | _ => false

def enqueued (s : Sid) (as : List (Action Sid Cid Req Lst)) : List Req :=
  (as.filter fun a => actsOn a = s).flatMap Action.requests

def finishes (s : Sid) (as : List (Action Sid Cid Req Lst)) : ℕ :=
  (as.filter fun a => actsOn a = s).countP Action.isFinish

omit [DecidableEq Sid] in
theorem jobs_execOn {x : SessionState Cid Req Lst} {a : Action Sid Cid Req Lst}
    (h : EnabledOn x a) :
    (execOn x a).jobs = (x.jobs ++ a.requests).drop (if a.isFinish then 1 else 0) ∧
      (if a.isFinish then 1 else 0) ≤ x.jobs.length := by
  cases a with
  | acquire c s | release c s => simp [execOn, Action.requests, Action.isFinish, SessionState.jobs]
  | enqueue c s r => simp [execOn, Action.requests, Action.isFinish, SessionState.jobs]
  | start s =>
    obtain ⟨_, hrunning, hq⟩ := h
    obtain ⟨r, q, hq⟩ := List.exists_cons_of_ne_nil hq
    simp [execOn, Action.requests, Action.isFinish, SessionState.jobs, hrunning, hq]
  | finish s st =>
    obtain ⟨_, hrunning⟩ := h
    obtain ⟨r, hr⟩ := Option.ne_none_iff_exists'.mp hrunning
    simp [execOn, Action.requests, Action.isFinish, SessionState.jobs, hr]

omit [DecidableEq Sid] in
theorem jobs_foldl_execOn {x : SessionState Cid Req Lst} {as : List (Action Sid Cid Req Lst)}
    (h : EveryStep execOn EnabledOn x as) :
    (as.foldl execOn x).jobs =
        (x.jobs ++ as.flatMap Action.requests).drop (as.countP Action.isFinish) ∧
      as.countP Action.isFinish ≤ (x.jobs ++ as.flatMap Action.requests).length := by
  induction as generalizing x with
  | nil => simp
  | cons a as ih =>
    obtain ⟨hjobs, hle⟩ := jobs_execOn h.1
    obtain ⟨hrest, hrestLe⟩ := ih h.2
    have hdrop : (execOn x a).jobs ++ as.flatMap Action.requests =
        (x.jobs ++ (a :: as).flatMap Action.requests).drop (if a.isFinish then 1 else 0) := by
      rw [hjobs, List.flatMap_cons, ← List.append_assoc]
      refine (List.drop_append_of_le_length ?_).symm
      rw [List.length_append]
      omega
    rw [hdrop] at hrest hrestLe
    rw [List.foldl_cons, hrest, List.drop_drop, List.countP_cons]
    rw [List.length_drop] at hrestLe
    refine ⟨by rw [Nat.add_comm], ?_⟩
    simp only [List.length_append, List.flatMap_cons] at hrestLe ⊢
    omega

/-- In every possible schedule a session finishes the requests in the order they were enqueued,
each once: what runs or waits is the rest. A session is released only when nothing is left. -/
theorem served_in_order {σ : SystemState Sid Cid Req Lst} {as : List (Action Sid Cid Req Lst)}
    (h : EveryStep exec Enabled σ as) (s : Sid) :
    (as.foldl exec σ s).jobs = ((σ s).jobs ++ enqueued s as).drop (finishes s as) ∧
      finishes s as ≤ ((σ s).jobs ++ enqueued s as).length ∧
      ∀ c, Enabled (as.foldl exec σ) (.release c s) →
        finishes s as = ((σ s).jobs ++ enqueued s as).length := by
  rw [exec_eq, enabled_eq] at h
  obtain ⟨hjobs, hle⟩ := jobs_foldl_execOn ((sessions.everyStep_enabled_iff σ as).mp h s)
  have hstate := sessions.foldl_exec_apply σ as s
  rw [← exec_eq] at hstate
  have hrest : (as.foldl exec σ s).jobs =
      ((σ s).jobs ++ enqueued s as).drop (finishes s as) := by
    rw [hstate]
    exact hjobs
  refine ⟨hrest, hle, ?_⟩
  rintro c ⟨_, hq, hrunning⟩
  have hempty : (as.foldl exec σ s).jobs = [] := by simp [SessionState.jobs, hq, hrunning]
  rw [hrest, List.drop_eq_nil_iff] at hempty
  exact Nat.le_antisymm hle hempty

def twoRequests : List (Action Bool ℕ ℕ ℕ) :=
  [.acquire 0 true, .enqueue 0 true 5, .enqueue 0 true 6, .start true, .finish true 1]

theorem served_in_order_two : (twoRequests.foldl exec twoSessions true).jobs = [6] :=
  (@served_in_order _ _ _ _ _ twoSessions twoRequests
    (by simp [twoRequests, twoSessions, Enabled, exec, updSess]) true).1

end Fifo
end ServerConcurrency

namespace IsabelleGym
namespace ThreadedBackend

open Runs ServerConcurrency

variable {F Cid : Type}

namespace State

/-- The one session of a backend, leased throughout; its local state is the list of the jobs
finished so far. -/
def session (c : Cid) (s : State F) : SystemState Unit Cid (Job F) (List (Job F)) := fun _ =>
  { owner := some c
    q := s.queue
    running := s.worker.jobs.head?
    lst := s.finished }

theorem session_of_idle {c : Cid} {s : State F} {worker worker' : Worker F}
    (hw : s.worker = worker) (hjobs : worker'.jobs = worker.jobs) :
    { s with worker := worker' }.session c = s.session c := by
  funext u
  simp [session, hw, hjobs]

/-- Before a close, a step of the backend is nothing to the session or one action of it. -/
theorem step_session (c : Cid) {s : State F} (hclosing : s.closing = .notCalled)
    (hdown : s.shuttingDown = false) {e : Event F} (he : e ≠ .setShuttingDown) :
    (s.step e).closing = .notCalled ∧ (s.step e).shuttingDown = false ∧
      ∃ as : List (Action Unit Cid (Job F) (List (Job F))),
        EveryStep exec Enabled (s.session c) as ∧
        (s.step e).session c = as.foldl exec (s.session c) ∧
        (s.step e).puts = s.puts ++ enqueued () as := by
  have hnothing : ∀ s' : State F, s'.closing = .notCalled → s'.shuttingDown = false →
      s'.session c = s.session c → s'.puts = s.puts →
      s'.closing = .notCalled ∧ s'.shuttingDown = false ∧
        ∃ as : List (Action Unit Cid (Job F) (List (Job F))),
          EveryStep exec Enabled (s.session c) as ∧ s'.session c = as.foldl exec (s.session c) ∧
          s'.puts = s.puts ++ enqueued () as := fun s' hc hd hsession hputs =>
    ⟨hc, hd, [], trivial, hsession, by rw [hputs]; exact (List.append_nil _).symm⟩
  have hone : ∀ (s' : State F) (a : Action Unit Cid (Job F) (List (Job F))),
      s'.closing = .notCalled → s'.shuttingDown = false → Enabled (s.session c) a →
      s'.session c = exec (s.session c) a → s'.puts = s.puts ++ a.requests →
      s'.closing = .notCalled ∧ s'.shuttingDown = false ∧
        ∃ as : List (Action Unit Cid (Job F) (List (Job F))),
          EveryStep exec Enabled (s.session c) as ∧ s'.session c = as.foldl exec (s.session c) ∧
          s'.puts = s.puts ++ enqueued () as := fun s' a hc hd ha hsession hputs =>
    ⟨hc, hd, [a], ⟨ha, trivial⟩, hsession, by rw [hputs]; simp [enqueued]⟩
  rcases s.step_cases e with hsame | hmoves
  · rw [hsame]
    exact hnothing s hclosing hdown rfl rfl
  generalize s.step e = s' at hmoves
  cases hmoves with
  | reject fn hup =>
    rw [hdown] at hup
    cases hup
  | pass fn _ => exact hnothing _ hclosing hdown rfl rfl
  | put i fn _ =>
    refine hone _ (.enqueue c () (.submitted s.futures.length fn)) hclosing hdown rfl ?_ rfl
    funext u
    simp [session, exec, updSess, submitUnchecked]
  | stop hw _ => exact hnothing _ hclosing hdown (session_of_idle hw rfl) rfl
  | proceed hw _ => exact hnothing _ hclosing hdown (session_of_idle hw rfl) rfl
  | get job queue hw hq =>
    refine hone _ (.start ()) hclosing hdown ?_ ?_ (List.append_nil _).symm
    · simp [Enabled, session, hw, hq, Worker.jobs]
    · funext u
      simp [session, exec, updSess, hq, Worker.jobs]
  | getTimesOut hw _ => exact hnothing _ hclosing hdown (session_of_idle hw rfl) rfl
  | finish job raises hw =>
    refine hone _ (.finish () (s.finished ++ [job])) ?_ ?_ ?_ ?_ ?_
    · simpa using hclosing
    · cases job <;> exact hdown
    · simp [Enabled, session, hw, Worker.jobs]
    · funext u
      simp [session, exec, updSess, Worker.jobs]
    · simp [Action.requests]
  | setShuttingDown _ => exact absurd rfl he
  | drain job queue hc _ | drained hc _ | putExit hc | exitDone hc _ | exitTimesOut hc
  | setStop hc | join hc =>
    rw [hclosing] at hc
    cases hc

/-- A backend that is not being closed runs as one leased session of the abstract server, its puts
as the requests enqueued. -/
theorem runs_as_session (c : Cid) {run : List (Event F)} (h : ∀ e ∈ run, e ≠ .setShuttingDown) :
    ∃ as : List (Action Unit Cid (Job F) (List (Job F))),
      EveryStep exec Enabled (({} : State F).session c) as ∧
      (run.foldl step {}).session c = as.foldl exec (({} : State F).session c) ∧
      (run.foldl step {}).puts = enqueued () as := by
  suffices hall : ∀ s : State F, s.closing = .notCalled → s.shuttingDown = false →
      ∃ as : List (Action Unit Cid (Job F) (List (Job F))),
        EveryStep exec Enabled (s.session c) as ∧
        (run.foldl step s).session c = as.foldl exec (s.session c) ∧
        (run.foldl step s).puts = s.puts ++ enqueued () as from hall {} rfl rfl
  induction run with
  | nil => exact fun s _ _ => ⟨[], trivial, rfl, (List.append_nil _).symm⟩
  | cons e run ih =>
    intro s hclosing hdown
    obtain ⟨hclosing', hdown', as, has, hsession, hputs⟩ :=
      step_session c hclosing hdown (h e List.mem_cons_self)
    obtain ⟨bs, hbs, hsession', hputs'⟩ := ih (fun e he => h e (List.mem_cons_of_mem _ he)) _
      hclosing' hdown'
    rw [hsession] at hbs hsession'
    refine ⟨as ++ bs, (everyStep_append exec Enabled _ as bs).mpr ⟨has, hbs⟩, ?_, ?_⟩
    · rw [List.foldl_cons, hsession', List.foldl_append]
    · rw [List.foldl_cons, hputs', hputs, enqueued, enqueued, enqueued, List.filter_append,
        List.flatMap_append, List.append_assoc]

theorem runs_as_session_put : ∃ as : List (Action Unit ℕ (Job ℕ) (List (Job ℕ))),
    enqueued () as = [.submitted 0 7] := by
  obtain ⟨as, _, _, hputs⟩ := @runs_as_session ℕ ℕ 0 [.check 7, .put 0] (by simp)
  exact ⟨as, hputs.symm⟩

end State
end ThreadedBackend
end IsabelleGym
