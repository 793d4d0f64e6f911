import IsabelleGym.LinearAgent

/-!
# Training data

A proving agent with a collector behind it. Each tactic that the gym answers is
recorded with the subgoals the search believes in before it and those the gym
shows after it. Where the file of a session cannot be written, the session stays
the current one and is ended once more as a failure.
-/

namespace IsabelleGym
namespace TrainingData

open LinearAgent (Limits Methods ProofContext ProofResult)
open Mcts (Gym)

variable {G : Gym} {V A : Type}

structure TacticInvocation where
  before : Text
  after : Text
  tactic : Text
  success : Bool
  goalId : ℕ
  subgoalsBefore : List Text
  subgoalsAfter : List Text
  theoremStatement : Text
  proofStep : ℕ
  agentName : Text
  proofDepth : ℕ
  totalSubgoals : ℕ
  subgoalsReduced : ℤ

structure ProofSession where
  theoremStatement : Text
  agentName : Text
  success : Bool := false
  totalSteps : ℕ := 0
  errorMessage : Option Text := none
  tacticInvocations : List TacticInvocation := []
  finalProof : Option Text := none
  successfulTactics : ℕ := 0
  failedTactics : ℕ := 0
  uniqueTacticsUsed : List Text := []

namespace ProofSession

variable (session : ProofSession)

def addTacticInvocation (invocation : TacticInvocation) : ProofSession :=
  { session with
    tacticInvocations := session.tacticInvocations ++ [invocation]
    totalSteps := session.totalSteps + 1
    successfulTactics := session.successfulTactics + if invocation.success then 1 else 0
    failedTactics := session.failedTactics + if invocation.success then 0 else 1
    uniqueTacticsUsed := session.uniqueTacticsUsed.insert invocation.tactic }

def invocation (beforeState afterState : ProofContext V) (tactic : Text) (goalId : ℕ)
    (success : Bool) : TacticInvocation where
  before := (beforeState.subgoals[goalId]?).getD []
  after :=
    match afterState.subgoals[goalId]? with
    | some goal => goal
    | none => if afterState.subgoals.isEmpty then "⊢ True".toList else []
  tactic := tactic
  success := success
  goalId := goalId
  subgoalsBefore := beforeState.subgoals
  subgoalsAfter := afterState.subgoals
  theoremStatement := session.theoremStatement
  proofStep := session.tacticInvocations.length
  agentName := session.agentName
  proofDepth := beforeState.proofDepth
  totalSubgoals := beforeState.subgoals.length
  subgoalsReduced := (beforeState.subgoals.length : ℤ) - afterState.subgoals.length

def finished (result : ProofResult) : ProofSession :=
  { session with
    success := result.success
    finalProof := some result.finalState
    errorMessage :=
      if result.errorMessage.getD [] = [] then session.errorMessage else result.errorMessage }

end ProofSession

/-- The collected sessions are those of `others` and behind them the current one, as often as it
has been ended. -/
structure TrainingDataCollector where
  currentSession : Option ProofSession := none
  others : List ProofSession := []
  entries : ℕ := 0
  totalInvocations : ℕ := 0
  totalSuccessfulInvocations : ℕ := 0

namespace TrainingDataCollector

variable (c : TrainingDataCollector)

def collectedSessions : List ProofSession :=
  c.others ++ (c.currentSession.map fun session => List.replicate c.entries session).getD []

def startSession (theoremStatement agentName : Text) : TrainingDataCollector :=
  { c with
    currentSession := some { theoremStatement, agentName }
    others := c.collectedSessions
    entries := 0 }

def recordTacticInvocation (beforeState afterState : ProofContext V) (tactic : Text) (goalId : ℕ)
    (success : Bool) : Except Text TrainingDataCollector :=
  match c.currentSession with
  | none => .error "No active session. Call start_session() first.".toList
  | some session => .ok { c with
      currentSession := some (session.addTacticInvocation
        (session.invocation beforeState afterState tactic goalId success))
      totalInvocations := c.totalInvocations + 1
      totalSuccessfulInvocations := c.totalSuccessfulInvocations + if success then 1 else 0 }

/-- `end_session` with the file written or not; the session is collected before. -/
def endSession (result : ProofResult) (saved : Except Text Unit) :
    TrainingDataCollector × Except Text Unit :=
  match c.currentSession with
  | none => (c, .ok ())
  | some session =>
    let c := { c with currentSession := some (session.finished result), entries := c.entries + 1 }
    match saved with
    | .error e => (c, .error e)
    | .ok () => ({ c with currentSession := none, others := c.collectedSessions, entries := 0 },
        .ok ())

def getTrainingDataset (filterSuccessful filterSuccessfulSessions : Bool) :
    List TacticInvocation :=
  (c.collectedSessions.filter fun session => !filterSuccessfulSessions || session.success).flatMap
    fun session => session.tacticInvocations.filter fun i => !filterSuccessful || i.success

end TrainingDataCollector

def searchResult (success : Bool) (proofSteps : ℤ) (finalProofLength : ℕ) (finalState : Text)
    (errorMessage : Option Text) : ProofResult where
  success := success
  proofSteps := proofSteps
  finalProofLength := finalProofLength
  finalState := finalState
  rewardSignal := 0
  guidanceCalls := 0
  tacticRecommendations := []
  errorMessage := errorMessage

def searchContext [Zero V] [One V] (subgoals : List Text) (currentTheorem : Text)
    (proofDepth : ℕ) : ProofContext V :=
  { (ProofContext.make subgoals currentTheorem : ProofContext V) with
    priorities := List.replicate subgoals.length 0
    proofDepth }

structure Search (G : Gym) (V A : Type) where
  gym : G.State
  agent : A
  context : ProofContext V
  collector : TrainingDataCollector

inductive Progress (G : Gym) (V A : Type)
  | continues (s : Search G V A)
  | ends (s : Search G V A) (outcome : Except Text ProofResult)

section Proof

/-- A result with the source of the theory, which can raise. -/
def Search.finish (s : Search G V A) (success : Bool) (proofSteps : ℤ)
    (errorMessage : Option Text) : Except Text ProofResult :=
  (G.getSource s.gym).map fun source =>
    searchResult success proofSteps s.context.proofDepth source errorMessage

variable [Zero V] [One V]

def tryTactic (s : Search G V A) (goalId : ℕ) (tactic : Text) : Progress G V A :=
  match G.step tactic s.gym with
  | (gym, .error e) => .ends { s with gym } (.error e)
  | (gym, .ok tacticResult) =>
    match G.openSubgoals gym with
    | (gym, .error e) => .ends { s with gym } (.error e)
    | (gym, .ok afterSubgoals) =>
      let syntaxSuccess := Mcts.isSyntaxSuccessful tacticResult
      let afterState : ProofContext V := searchContext afterSubgoals
        (s.context.currentTheorem ++ '\n' :: tactic)
        (s.context.proofDepth + if syntaxSuccess then 1 else 0)
      let realProgress := decide (afterSubgoals.length ≠ s.context.subgoals.length ∨
        afterSubgoals ≠ s.context.subgoals)
      let actualSuccess := syntaxSuccess && realProgress
      match s.collector.recordTacticInvocation s.context afterState tactic goalId
        actualSuccess with
      | .error e => .ends { s with gym } (.error e)
      | .ok collector =>
        let context := if actualSuccess then afterState
          else { s.context with attemptedTactics := s.context.attemptedTactics ++ [tactic] }
        .continues { s with gym, collector, context }

variable (M : Methods G V A) (limits : Limits)

def updatePriorities (s : Search G V A) : Search G V A × Except Text Unit :=
  if 1 < s.context.subgoals.length then
    match M.evaluatePriorities s.gym s.agent s.context with
    | (agent, .error e) => ({ s with agent }, .error e)
    | (agent, .ok priorities) =>
      ({ s with agent, context := { s.context with priorities } }, .ok ())
  else (s, .ok ())

variable [LT V] [DecidableLT V]

def chooseTactic (step : ℕ) (s : Search G V A) : Progress G V A :=
  match s.context.activeGoalId with
  | none => .ends s (s.finish false step (some "No available goals".toList))
  | some goalId =>
    match M.recommendTactic s.gym s.agent s.context goalId with
    | (agent, .error e) => .ends { s with agent } (.error e)
    | (agent, .ok tactic) =>
      let s := { s with agent }
      let tactic := tactic.getD []
      if tactic = [] then
        .ends s (s.finish false step (some "No more tactics available".toList))
      else tryTactic s goalId tactic

def searchStep (step : ℕ) (s : Search G V A) : Progress G V A :=
  if limits.timedOut step then
    .ends s (s.finish false step
      (some ("Search timeout after ".toList ++ limits.timeout ++ ['s'])))
  else if s.context.isComplete then .ends s (s.finish true step none)
  else if limits.maxDepth ≤ s.context.proofDepth then
    .ends s (s.finish false step
      (some ("Maximum depth " ++ toString limits.maxDepth ++ " reached").toList))
  else
    match updatePriorities M s with
    | (s, .error e) => .ends s (.error e)
    | (s, .ok ()) => chooseTactic M step s

def searchLoop : ℕ → ℕ → Search G V A → Search G V A × Except Text ProofResult
  | 0, _, s => (s, s.finish false limits.maxSteps
      (some ("Maximum steps " ++ toString limits.maxSteps ++ " reached").toList))
  | n + 1, step, s =>
    match searchStep M limits step s with
    | .ends s outcome => (s, outcome)
    | .continues s => searchLoop n (step + 1) s

/-- The search behind `start_session`: what it leaves, and its result or what it raises. -/
def searchWithDataCollection (theoremStatement : Text) (gym : G.State) (agent : A)
    (collector : TrainingDataCollector) : A × TrainingDataCollector × Except Text ProofResult :=
  let failed (e : Text) := searchResult false 0 0 []
    (some ("Failed to start theorem: ".toList ++ e))
  match G.step theoremStatement gym with
  | (_, .error e) => (agent, collector, .ok (failed e))
  | (gym, .ok result) =>
    if Mcts.isSyntaxSuccessful result then
      match G.openSubgoals gym with
      | (_, .error e) => (agent, collector, .error e)
      | (gym, .ok initialSubgoals) =>
        if initialSubgoals.isEmpty then
          (agent, collector,
            .ok (failed "No subgoals found after theorem statement".toList))
        else
          let r := searchLoop M limits limits.maxSteps.toNat 0
            { gym, agent, collector, context := searchContext initialSubgoals theoremStatement 0 }
          (r.1.agent, r.1.collector, r.2)
    else (agent, collector, .ok (failed (Mcts.getErrorMessage result)))

/-- A call of `prove_theorem`, with what comes of the first and the second file it writes. -/
structure Call (G : Gym) where
  theoremStatement : Text
  limits : Limits := { maxSteps := 50, maxDepth := 20, timeout := "30.0".toList }
  gym : G.State
  saved : Except Text Unit := .ok ()
  savedAgain : Except Text Unit := .ok ()

/-- `prove_theorem` of the agent around a base agent of this name. What it raises is left out. -/
def proveTheorem (agentName : Text) (call : Call G) (agent : A)
    (collector : TrainingDataCollector) : A × TrainingDataCollector :=
  let r := searchWithDataCollection M call.limits call.theoremStatement call.gym agent
    (collector.startSession call.theoremStatement agentName)
  match r.2.2 with
  | .error e =>
    (r.1, (r.2.1.endSession (searchResult false 0 0 [] (some e)) call.saved).1)
  | .ok result =>
    match r.2.1.endSession result call.saved with
    | (collector, .ok ()) => (r.1, collector)
    | (collector, .error e) =>
      (r.1, (collector.endSession (searchResult false 0 0 [] (some e)) call.savedAgain).1)

def proveAll (agentName : Text) (calls : List (Call G)) (agent : A)
    (collector : TrainingDataCollector) : A × TrainingDataCollector :=
  calls.foldl (fun r call => proveTheorem M agentName call r.1 r.2) (agent, collector)

end Proof

end TrainingData
end IsabelleGym
