import IsabelleGym.Runs

/-!
# The process group of a gateway

The launcher of a gateway leads a process group, in which the JVM and Isabelle
run. A process that has exited is known to the system until its parent reads the
exit status, and `poll` reads it. From then on `getpgid` no longer finds the
launcher, and `_signal_group` signals nobody.
-/

namespace IsabelleGym
namespace GatewayProcess

open Runs

/-- The launcher: running, exited, or with its exit status read. -/
inductive Leader
  | running | zombie | reaped
deriving DecidableEq

inductive Signal
  | term | kill
deriving DecidableEq

inductive Stage
  | notCalled | shutdown | polling | polled | killed | returned
deriving DecidableEq

structure State where
  leader : Leader := .running
  /-- The other processes of the group that are alive. -/
  others : List ℕ := []
  /-- Those that a SIGTERM has been sent to. -/
  asked : List ℕ := []
  stage : Stage := .notCalled

/-- The first three are up to the processes of the group. A process ends on a SIGTERM when it
likes. -/
inductive Event
  | fork (parent : Option ℕ) (child : ℕ)
  | exits (pid : ℕ)
  | leaderExits
  | hasTerminated
  | callTerminate
  | sigterm
  | pollOnce
  | waitExpires
  | sigkill
  | wait

namespace State

variable (s : State)

/-- `Popen.poll`: whether there is an exit status, which is read. -/
def poll : State × Bool :=
  match s.leader with
  | .running => (s, false)
  | .zombie | .reaped => ({ s with leader := .reaped }, true)

/-- `os.getpgid` of the launcher, which leads its group. -/
def getpgid : Option Unit := if s.leader = .reaped then none else some ()

/-- The launcher ends on a SIGKILL and is not read yet. -/
def signalLeader (sig : Signal) : State :=
  match s.leader, sig with
  | .running, .kill => { s with leader := .zombie }
  | _, _ => s

def killpg (sig : Signal) : Option State :=
  if s.leader = .reaped ∧ s.others = [] then none
  else
    match sig with
    | .term => some { s.signalLeader sig with asked := s.asked ++ s.others }
    | .kill => some { s.signalLeader sig with others := [] }

def sendSignal (sig : Signal) : State :=
  let (s', exited) := s.poll
  if exited then s' else s'.signalLeader sig

def signalGroup (sig : Signal) : State :=
  match s.getpgid with
  | some _ => (s.killpg sig).getD (s.sendSignal sig)
  | none => s.sendSignal sig

def step : Event → State
  | .fork parent child =>
    match parent with
    | none => if s.leader = .running then { s with others := s.others ++ [child] } else s
    | some pid => if pid ∈ s.others then { s with others := s.others ++ [child] } else s
  | .exits pid => { s with others := s.others.filter (· ≠ pid) }
  | .leaderExits => if s.leader = .running then { s with leader := .zombie } else s
  | .hasTerminated => s.poll.1
  | .callTerminate =>
    match s.stage with
    | .notCalled | .returned => { s with stage := .shutdown }
    | _ => s
  | .sigterm =>
    match s.stage with
    | .shutdown => { s.signalGroup .term with stage := .polling }
    | _ => s
  | .pollOnce =>
    match s.stage with
    | .polling =>
      let (s', exited) := s.poll
      if exited then { s' with stage := .polled } else s'
    | _ => s
  | .waitExpires =>
    match s.stage with
    | .polling => { s with stage := .polled }
    | _ => s
  | .sigkill =>
    match s.stage with
    | .polled => { s.signalGroup .kill with stage := .killed }
    | _ => s
  | .wait =>
    match s.stage with
    | .killed => { s.poll.1 with stage := .returned }
    | _ => s

variable {s}

@[simp] theorem poll_others : s.poll.1.others = s.others := by
  unfold poll
  split <;> rfl

@[simp] theorem poll_stage : s.poll.1.stage = s.stage := by
  unfold poll
  split <;> rfl

theorem poll_leader_running : s.poll.1.leader = .running ↔ s.leader = .running := by
  unfold poll
  split <;> simp_all

theorem poll_of_reaped (h : s.leader = .reaped) : s.poll = (s, true) := by
  unfold poll
  simp only [h]
  rw [← h]

/-- A launcher whose exit status has been read stands for nobody. -/
theorem signalGroup_of_reaped (h : s.leader = .reaped) (sig : Signal) : s.signalGroup sig = s := by
  simp [signalGroup, getpgid, sendSignal, h, poll_of_reaped h]

theorem signalGroup_kill (h : s.leader ≠ .reaped) :
    (s.signalGroup .kill).others = [] ∧ (s.signalGroup .kill).leader = .zombie := by
  cases hl : s.leader with
  | reaped => exact absurd hl h
  | running | zombie => simp [signalGroup, getpgid, killpg, signalLeader, hl]

end State

/-- The SIGKILL of `terminate` has been sent. -/
def State.PastKill (s : State) : Prop := s.stage = .killed ∨ s.stage = .returned

/-- Behind its SIGKILL, `terminate` leaves no process of the group alive. -/
def State.NoOrphans (s : State) : Prop := s.PastKill → s.others = [] ∧ s.leader ≠ .running

/-- The SIGKILL is sent before the exit status of the launcher is read, or to nobody. -/
def KillsInTime (s : State) : Event → Prop
  | .sigkill => s.stage = .polled → s.leader = .reaped → s.others = []
  | _ => True

namespace State

variable {s : State}

theorem noOrphans_of_stage (h : ¬ s.PastKill) : s.NoOrphans := fun hpast => absurd hpast h

theorem NoOrphans.of_eq {s' : State} (h : s.NoOrphans) (hstage : s'.stage = s.stage)
    (hothers : s.others = [] → s'.others = [])
    (hleader : s'.leader = .running → s.leader = .running) : s'.NoOrphans := by
  intro hpast
  unfold PastKill at hpast
  rw [hstage] at hpast
  obtain ⟨hnone, hexited⟩ := h hpast
  exact ⟨hothers hnone, fun hrunning => hexited (hleader hrunning)⟩

theorem noOrphans_sigkill_iff (hstage : s.stage = .polled) :
    (s.step .sigkill).NoOrphans ↔ (s.leader = .reaped → s.others = []) := by
  have hstep : s.step .sigkill = { s.signalGroup .kill with stage := .killed } := by
    simp [step, hstage]
  rw [hstep]
  by_cases hreaped : s.leader = .reaped
  · rw [signalGroup_of_reaped hreaped]
    simp [NoOrphans, PastKill, hreaped]
  · obtain ⟨hnone, hzombie⟩ := signalGroup_kill hreaped
    simp [NoOrphans, PastKill, hreaped, hnone, hzombie]

theorem noOrphans_step_iff (h : s.NoOrphans) (e : Event) :
    (s.step e).NoOrphans ↔ KillsInTime s e := by
  cases e with
  | sigkill =>
    by_cases hstage : s.stage = .polled
    · rw [noOrphans_sigkill_iff hstage]
      simp [KillsInTime, hstage]
    · have hsame : s.step .sigkill = s := by
        cases hs : s.stage <;> simp_all [step]
      rw [hsame]
      simp [KillsInTime, hstage, h]
  | fork parent child =>
    refine iff_of_true ?_ trivial
    intro hpast
    have hstage : (s.step (.fork parent child)).stage = s.stage := by
      cases parent <;> simp only [step] <;> split_ifs <;> rfl
    unfold PastKill at hpast
    rw [hstage] at hpast
    obtain ⟨hnone, hexited⟩ := h hpast
    cases parent <;> simp [step, hnone, hexited]
  | exits pid =>
    exact iff_of_true (h.of_eq rfl (fun hnone => by simp [step, hnone]) id) trivial
  | leaderExits =>
    refine iff_of_true ?_ trivial
    simp only [step]
    split_ifs
    · exact h.of_eq rfl id (by simp)
    · exact h
  | hasTerminated =>
    exact iff_of_true (h.of_eq poll_stage (by simp [step]) poll_leader_running.mp) trivial
  | callTerminate =>
    refine iff_of_true ?_ trivial
    simp only [step]
    split
    · exact noOrphans_of_stage (by simp [PastKill])
    · exact noOrphans_of_stage (by simp [PastKill])
    · exact h
  | sigterm =>
    refine iff_of_true ?_ trivial
    simp only [step]
    split
    · exact noOrphans_of_stage (by simp [PastKill])
    · exact h
  | pollOnce =>
    refine iff_of_true ?_ trivial
    simp only [step]
    split
    · rename_i hstage
      refine noOrphans_of_stage ?_
      unfold PastKill
      split_ifs <;> simp [hstage]
    · exact h
  | waitExpires =>
    refine iff_of_true ?_ trivial
    simp only [step]
    split
    · exact noOrphans_of_stage (by simp [PastKill])
    · exact h
  | wait =>
    refine iff_of_true ?_ trivial
    simp only [step]
    split
    · rename_i hstage
      obtain ⟨hnone, hexited⟩ := h (Or.inl hstage)
      intro _
      exact ⟨by simpa using hnone, fun hrunning => hexited (poll_leader_running.mp hrunning)⟩
    · exact h

/-- Over every run of a gateway and its termination, `terminate` leaves nobody alive exactly if no
SIGKILL comes after the exit status of the launcher has been read while others are alive. -/
theorem noOrphans_iff (es : List Event) :
    EveryStep step (fun s e => (s.step e).NoOrphans) ({} : State) es ↔
      EveryStep step KillsInTime ({} : State) es := by
  refine everyStep_iff_of_invariant (fun s e h hq => (noOrphans_step_iff h e).mpr hq)
    (fun s e h => noOrphans_step_iff h e) (noOrphans_of_stage ?_)
  simp [PastKill]

theorem reaped_step (hreaped : s.leader = .reaped) (e : Event) :
    (s.step e).leader = .reaped ∧ (s.step e).asked = s.asked ∧
      ∀ pid ∈ s.others, e ≠ .exits pid → pid ∈ (s.step e).others := by
  have hpoll := poll_of_reaped hreaped
  cases e with
  | fork parent child =>
    cases parent <;> simp only [step] <;> split_ifs <;> simp_all
  | exits pid =>
    refine ⟨hreaped, rfl, fun other hother hne => ?_⟩
    simp only [step, List.mem_filter, decide_eq_true_eq]
    exact ⟨hother, fun heq => hne (heq ▸ rfl)⟩
  | leaderExits => simp [step, hreaped]
  | hasTerminated => simp [step, hpoll, hreaped]
  | callTerminate | sigterm | pollOnce | waitExpires | sigkill | wait =>
    simp only [step]
    split <;> simp [hpoll, hreaped, signalGroup_of_reaped hreaped]

/-- Once any poll has seen that the launcher exited, no signal of `terminate` reaches the group: a
process that does not exit by itself stays alive, and nobody is asked to exit any more. -/
theorem survives_of_reaped (hreaped : s.leader = .reaped) {es : List Event} {pid : ℕ}
    (hpid : pid ∈ s.others) (hes : .exits pid ∉ es) :
    pid ∈ (es.foldl step s).others ∧ (es.foldl step s).asked = s.asked := by
  induction es generalizing s with
  | nil => exact ⟨hpid, rfl⟩
  | cons e es ih =>
    obtain ⟨hleader, hasked, hkept⟩ := reaped_step hreaped e
    have hne : e ≠ .exits pid := fun heq => hes (heq ▸ List.mem_cons_self)
    obtain ⟨halive, hasked'⟩ :=
      ih hleader (hkept pid hpid hne) fun hin => hes (List.mem_cons_of_mem e hin)
    exact ⟨halive, hasked'.trans hasked⟩

/-- The JVM runs on while the launcher, which started it, ends on the SIGTERM. -/
def outlivedLauncher : List Event :=
  [.fork none 7, .callTerminate, .sigterm, .leaderExits, .pollOnce]

theorem survives_outlivedLauncher :
    7 ∈ ([.sigkill, .wait].foldl step (outlivedLauncher.foldl step {})).others :=
  (survives_of_reaped rfl (by decide) (by simp)).1

end State
end GatewayProcess
end IsabelleGym
