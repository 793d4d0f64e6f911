import IsabelleGym.FileOps
import IsabelleGym.PythonStr
import IsabelleGym.Sessions

/-!
# The endpoints of a session

The backend functions the server calls, as they act on the REPL session, and the
session methods behind the endpoints: which of them count themselves, which
backend functions they call in which order, and where they keep the history. The
cache of Isabelle sessions is off, as it is by default, so a reset starts a fresh
one. Times, log messages and the texts of responses are left out.
-/

namespace IsabelleGym

inductive Query
  | currentThyNameString
  | getSource
  | commandAtLine (line : ℕ)
  | goalsAtLine (line : ℕ)
  | hoverAt (line col : ℕ)
  | definitionAt (line col : ℕ)
  | sledgehammerAt (line subgoal timeoutS : ℕ)

inductive BackendFn
  | enterThy (inputThyName : Text)
  | reset
  | step (useTheories : Text → UseResult) (isarString : Text)
  | rollback
  | verifyChunk (isarString : Text) (run : ChunkRun)
  | stepChunkReport (isarString : Text) (run : ChunkRun) (probeState : Bool)
  | saveState
  | restoreState (stateId : EnvStateID)
  | probe (p : ReplSession.Probe) (useTheories : Text → UseResult) (replies : Replies)
      (results : ℕ → List Message)
  | query (q : Query)

namespace ReplSession

/-- `enter_thy` of the backend, which refuses what is no theory name. -/
def enterInputThy (I : Isabelle) (s : ReplSession) (inputThyName : Text) : ReplSession :=
  match extractThyName I inputThyName with
  | none => s
  | some thyName => s.enterThy thyName

def runBackend (I : Isabelle) (channelId : String) (s : ReplSession) : BackendFn → ReplSession
  | .enterThy inputThyName => s.enterInputThy I inputThyName
  | .reset => fresh s.initialThys
  | .step useTheories isarString => (s.sendEdit I useTheories isarString).session
  | .rollback => s.rollbackLastTextEdit.session
  | .verifyChunk isarString run => (s.verifyChunk I channelId isarString run).session
  | .stepChunkReport isarString run probeState =>
    (s.stepChunkReport I channelId isarString run probeState).session
  | .saveState => s.saveState.2
  | .restoreState stateId => (s.restoreState I stateId).2
  | .probe p useTheories replies results => runProbe I useTheories s channelId replies results p
  | .query _ => s

end ReplSession

def replBackend (I : Isabelle) (channelId : String) (initialThys : List Text) :
    BackendApi BackendFn ReplSession where
  create := ReplSession.fresh initialThys
  run fn s := s.runBackend I channelId fn

namespace SessionMethod

def call (fn : BackendFn) : Instr BackendFn := .callBackend fn false

def step (useTheories : Text → UseResult) (command : Text) : List (Instr BackendFn) :=
  if PythonStr.strip command = [] then [] else [call (.step useTheories command)]

def openSubgoals (useTheories : Text → UseResult) (replies : Replies) : BackendFn :=
  .probe .openSubgoals useTheories replies fun _ => []

def enterThyBody (useTheories : Text → UseResult) (thyName : Text) (header : Option Text) :
    List (Instr BackendFn) :=
  call (.enterThy thyName) :: (header.map (step useTheories)).getD []

/-- The subgoals are asked for unless the command is `end` or a theory header, and an exception
there is caught. -/
def executeCommand (useTheories : Text → UseResult) (command : Text) (subgoals : Option Replies) :
    Method BackendFn where
  accounted := true
  body := step useTheories command ++
    (subgoals.map fun replies => .callBackend (openSubgoals useTheories replies) true).toList ++
    [.appendHistory command]

def verifyChunk (chunk : Text) (run : ChunkRun) : Method BackendFn where
  accounted := true
  body := [call (.verifyChunk chunk run)]

/-- Without a theory name the method raises behind the reset. -/
def loadDocument (text : Text) (thyName header : Option Text) (useTheories : Text → UseResult)
    (report : Option (ChunkRun × Bool)) : Method BackendFn where
  accounted := true
  body := [call .reset, .resetBookkeeping] ++
    (thyName.map fun name => enterThyBody useTheories name header ++
      (match report with
        | some (run, probeState) => [call (.stepChunkReport text run probeState)]
        | none => step useTheories text) ++ [.appendHistory text]).getD []

def getProofState (useTheories : Text → UseResult) (subgoalReplies inProofReplies : Replies) :
    Method BackendFn where
  accounted := true
  body := [call (openSubgoals useTheories subgoalReplies),
    call (.probe .inProof useTheories inProofReplies fun _ => []),
    call (.query .currentThyNameString)]

def saveCheckpoint : Method BackendFn := ⟨true, [call .saveState]⟩

def restoreCheckpoint (checkpointId : EnvStateID) : Method BackendFn :=
  ⟨true, [call (.restoreState checkpointId)]⟩

def sledgehammer (useTheories : Text → UseResult) (timeoutS : ℤ) (replies : Replies) :
    Method BackendFn :=
  ⟨true, [call (.probe (.sledgehammer timeoutS) useTheories replies fun _ => [])]⟩

def sledgehammerAt (line subgoal timeoutS : ℕ) : Method BackendFn :=
  ⟨true, [call (.query (.sledgehammerAt line subgoal timeoutS))]⟩

-- The remaining methods do not count themselves.

def rollback : Method BackendFn := ⟨false, [call .rollback]⟩

def enterThy (useTheories : Text → UseResult) (thyName : Text) (header : Option Text) :
    Method BackendFn :=
  ⟨false, enterThyBody useTheories thyName header⟩

def localFacts (useTheories : Text → UseResult) (replies : Replies) : Method BackendFn :=
  ⟨false, [call (.probe .localFacts useTheories replies fun _ => [])]⟩

def globalFacts (useTheories : Text → UseResult) (limit : ℤ) (replies : Replies) :
    Method BackendFn :=
  ⟨false, [call (.probe (.globalFacts limit) useTheories replies fun _ => [])]⟩

def getSource : Method BackendFn :=
  ⟨false, [call (.query .getSource), call (.query .currentThyNameString)]⟩

def commandAtLine (line : ℕ) : Method BackendFn := ⟨false, [call (.query (.commandAtLine line))]⟩

def goalsAtLine (line : ℕ) : Method BackendFn := ⟨false, [call (.query (.goalsAtLine line))]⟩

def hoverAt (line col : ℕ) : Method BackendFn := ⟨false, [call (.query (.hoverAt line col))]⟩

def definitionAt (line col : ℕ) : Method BackendFn :=
  ⟨false, [call (.query (.definitionAt line col))]⟩

end SessionMethod
end IsabelleGym
