import IsabelleGym.EditSteps

/-!
# One Python session in front of its worker

A session method calls the backend through the queue of its worker and waits. A
wait that times out, or ends in an exception, gives no answer, but its job stays
queued and runs before every later one. So the session that the worker arrives at
once the queue is drained does not depend on any of the waits: each call applies
its function to it.
-/

namespace IsabelleGym

/-- How a wait on the future of a job ends: with its answer, or without one after the worker has
run some of the queued jobs. -/
inductive Wait
  | answered
  | timedOut (ran : ℕ)
deriving DecidableEq

def BackendFn.fails (I : Isabelle) (channelId : String) (s : ReplSession) : BackendFn → Bool
  | .step useTheories isarString => (s.sendEdit I useTheories isarString).raised.isSome
  | .verifyChunk isarString run => (s.verifyChunk I channelId isarString run).value.isNone
  | .stepChunkReport isarString run probeState =>
    (s.stepChunkReport I channelId isarString run probeState).value.isNone
  | .probe .openSubgoals useTheories replies _ =>
    (s.openSubgoals I useTheories channelId replies).value.isNone
  | _ => false

/-- `_Isabelle_Session` with its worker thread. The checkpoints are the keys of its table. -/
structure IsabelleSession where
  backend : ReplSession
  queue : List BackendFn := []
  checkpoints : List EnvStateID := []
  enteredThy : Text := []
  verifiedTheories : List Text := []

namespace IsabelleSession

variable (I : Isabelle) (channelId : String) (x : IsabelleSession)

def runJobs (jobs : List BackendFn) : IsabelleSession :=
  { x with backend := jobs.foldl (ReplSession.runBackend I channelId) x.backend }

def drained : ReplSession := (x.runJobs I channelId x.queue).backend

def workerRuns (n : ℕ) : IsabelleSession :=
  { x.runJobs I channelId (x.queue.take n) with queue := x.queue.drop n }

/-- `_call_backend`: whether an answer came, and the session behind the wait. -/
def callBackend (fn : BackendFn) (w : Wait) : Bool × IsabelleSession :=
  let submitted := { x with queue := x.queue ++ [fn] }
  match w with
  | .answered => (!fn.fails I channelId (x.drained I channelId),
      submitted.workerRuns I channelId submitted.queue.length)
  | .timedOut ran => (false, submitted.workerRuns I channelId ran)

/-- `enter_thy` notes the name it is called with, whether or not the backend accepts it. -/
def noteEntered : BackendFn → IsabelleSession
  | .enterThy thyName => { x with enteredThy := thyName }
  | _ => x

def resetBookkeeping : IsabelleSession :=
  { x with checkpoints := [], enteredThy := [], verifiedTheories := [] }

/-- The body of a session method; the answered waits at the end of the list are left out. -/
def runBody : List (Instr BackendFn) → List Wait → IsabelleSession → IsabelleSession
  | [], _, x => x
  | .callBackend fn caught :: rest, waits, x =>
    let r := (x.noteEntered fn).callBackend I channelId fn (waits.headD .answered)
    if r.1 || caught then runBody rest waits.tail r.2 else r.2
  | .resetBookkeeping :: rest, waits, x => runBody rest waits x.resetBookkeeping
  | .appendHistory _ :: rest, waits, x => runBody rest waits x

def saveCheckpoint (w : Wait) : IsabelleSession :=
  let checkpointId := (x.drained I channelId).saveState.1
  let r := x.callBackend I channelId .saveState w
  if r.1 then { r.2 with checkpoints := r.2.checkpoints.insert checkpointId } else r.2

/-- `restore_checkpoint`, with whether it returns `True`. The answer of the backend is not
looked at. -/
def restoreCheckpoint (checkpointId : ℤ) (w : Wait) : Bool × IsabelleSession :=
  if 0 ≤ checkpointId ∧ checkpointId.toNat ∈ x.checkpoints then
    x.callBackend I channelId (.restoreState checkpointId.toNat) w
  else (false, x)

@[simp] theorem drained_workerRuns (n : ℕ) :
    (x.workerRuns I channelId n).drained I channelId = x.drained I channelId := by
  simp only [workerRuns, drained, runJobs]
  rw [← List.foldl_append, List.take_append_drop]

/-- Answered or not, a call applies its function to the drained session. -/
@[simp] theorem drained_callBackend (fn : BackendFn) (w : Wait) :
    (x.callBackend I channelId fn w).2.drained I channelId =
      (x.drained I channelId).runBackend I channelId fn := by
  cases w <;> simp [callBackend] <;> simp [drained, runJobs]

@[simp] theorem drained_noteEntered (fn : BackendFn) :
    (x.noteEntered fn).drained I channelId = x.drained I channelId := by
  cases fn <;> rfl

@[simp] theorem drained_resetBookkeeping :
    x.resetBookkeeping.drained I channelId = x.drained I channelId := rfl

@[simp] theorem checkpoints_callBackend (fn : BackendFn) (w : Wait) :
    (x.callBackend I channelId fn w).2.checkpoints = x.checkpoints := by
  cases w <;> rfl

@[simp] theorem checkpoints_noteEntered (fn : BackendFn) :
    (x.noteEntered fn).checkpoints = x.checkpoints := by
  cases fn <;> rfl

end IsabelleSession
end IsabelleGym
