import Mathlib.Algebra.Field.Rat
import IsabelleGym.Cursors
import IsabelleGym.MctsAgent

/-!
# The linear proving agent

The agent tries one tactic after the other on the document of the gym. A tactic
succeeds when it is accepted and changes the open subgoals, and the context keeps
the subgoals of the last success. Any call of the gym or of the agent's own
methods can raise, which ends the proof with a failure.
-/

namespace IsabelleGym
namespace LinearAgent

open Mcts List

variable {G : Gym} {V A : Type}

structure ProofContext (V : Type) where
  subgoals : List Text
  priorities : List V
  currentTheorem : Text
  proofDepth : ℕ := 0
  solved : List Bool
  attemptedTactics : List Text := []
  successfulTactics : List Text := []

namespace ProofContext

/-- The constructor followed by `__post_init__`. -/
def make [One V] (subgoals : List Text) (currentTheorem : Text) : ProofContext V where
  subgoals := subgoals
  priorities := List.replicate subgoals.length 1
  currentTheorem := currentTheorem
  solved := List.replicate subgoals.length false

variable (context : ProofContext V)

def unsolvedGoals : List (ℕ × V) :=
  (context.priorities.zipIdx.filter fun p => context.solved[p.2]? = some false).map
    fun p => (p.2, p.1)

/-- The first unsolved goal of the highest priority; none stands for `-1`. -/
def activeGoalId [LT V] [DecidableLT V] : Option ℕ :=
  if context.subgoals.isEmpty then none
  else (context.unsolvedGoals.foldl Node.activeGoalId.highest none).map Prod.fst

def isComplete : Bool := context.subgoals.isEmpty || context.solved.all id

def updateSubgoals [One V] (newSubgoals : List Text) : ProofContext V :=
  { context with
    subgoals := newSubgoals
    priorities := List.replicate newSubgoals.length 1
    solved := List.replicate newSubgoals.length false }

def recordTacticAttempt (tactic : Text) (success : Bool) : ProofContext V :=
  { context with
    attemptedTactics := context.attemptedTactics ++ [tactic]
    successfulTactics :=
      if success then context.successfulTactics ++ [tactic] else context.successfulTactics }

end ProofContext

structure Counters where
  sessionStepCount : ℕ := 0
  sessionTacticHistory : List Text := []
  sessionPriorityCalls : ℕ := 0
  totalProofsAttempted : ℕ := 0
  totalProofsSucceeded : ℕ := 0
  totalTacticsTried : ℕ := 0
  totalTacticsSucceeded : ℕ := 0

def Counters.resetSession (c : Counters) : Counters :=
  { c with sessionStepCount := 0, sessionTacticHistory := [], sessionPriorityCalls := 0 }

structure ProofResult where
  success : Bool
  proofSteps : ℤ
  finalProofLength : ℕ
  finalState : Text
  tacticAttempts : ℕ := 0
  successfulTactics : ℕ := 0
  failedTactics : ℤ := 0
  priorityUpdates : ℕ := 0
  rewardSignal : ℤ
  guidanceCalls : ℕ
  tacticRecommendations : List Text
  errorMessage : Option Text := none

section Results

variable (c : Counters)

def createSuccessResult (steps : ℕ) (context : ProofContext V) : ProofResult where
  success := true
  proofSteps := steps
  finalProofLength := context.proofDepth
  finalState := "Proof completed".toList
  tacticAttempts := context.attemptedTactics.length
  successfulTactics := context.successfulTactics.length
  failedTactics := context.attemptedTactics.length - context.successfulTactics.length
  priorityUpdates := c.sessionPriorityCalls
  rewardSignal := 100
  guidanceCalls := c.sessionPriorityCalls
  tacticRecommendations := c.sessionTacticHistory

def createFailureResult (errorMsg : Text) (steps : ℤ) (depth : ℕ) : ProofResult where
  success := false
  proofSteps := steps
  finalProofLength := depth
  finalState := "Proof failed".toList
  rewardSignal := -10
  guidanceCalls := c.sessionPriorityCalls
  tacticRecommendations := c.sessionTacticHistory
  errorMessage := some errorMsg

def createTimeoutResult (steps : ℕ) (context : ProofContext V) (errorMsg : Text) :
    ProofResult where
  success := false
  proofSteps := steps
  finalProofLength := context.proofDepth
  finalState := "Proof timeout".toList
  tacticAttempts := context.attemptedTactics.length
  successfulTactics := context.successfulTactics.length
  failedTactics := context.attemptedTactics.length - context.successfulTactics.length
  rewardSignal := -5
  guidanceCalls := c.sessionPriorityCalls
  tacticRecommendations := c.sessionTacticHistory
  errorMessage := some errorMsg

def unexpectedError (e : Text) : ProofResult :=
  createFailureResult c ("Unexpected error during proof: ".toList ++ e) 0 0

end Results

structure Methods (G : Gym) (V A : Type) where
  recommendTactic : G.State → A → ProofContext V → ℕ → A × Except Text (Option Text)
  evaluatePriorities : G.State → A → ProofContext V → A × Except Text (List V)

/-- The limits of a call, the timeout as it is printed, and whether the time is up at a step. -/
structure Limits where
  maxSteps : ℤ := 100
  maxDepth : ℤ := 50
  timeout : Text := "60.0".toList
  timedOut : ℕ → Bool := fun _ => false

structure State (G : Gym) (V A : Type) where
  gym : G.State
  agent : A
  counters : Counters
  context : ProofContext V

/-- A tactic given to the gym, with the context it is for. -/
structure Attempt (G : Gym) (V : Type) where
  gym : G.State
  context : ProofContext V
  targetGoalId : ℕ
  tactic : Text

inductive Progress (G : Gym) (V A : Type)
  | continues (s : State G V A)
  | ends (s : State G V A) (result : ProofResult)

section Proof

variable [One V]

def State.recordTactic (s : State G V A) (tactic : Text) (syntaxSuccess : Bool)
    (afterSubgoals : List Text) : State G V A :=
  let beforeSubgoals := s.context.subgoals
  let progressMade :=
    decide (afterSubgoals.length ≠ beforeSubgoals.length ∨ afterSubgoals ≠ beforeSubgoals)
  let actualSuccess := syntaxSuccess && progressMade
  let counters := { s.counters with
    totalTacticsTried := s.counters.totalTacticsTried + 1
    sessionStepCount := s.counters.sessionStepCount + 1 }
  let context := s.context.recordTacticAttempt tactic actualSuccess
  if actualSuccess then
    { s with
      counters := { counters with
        totalTacticsSucceeded := counters.totalTacticsSucceeded + 1
        sessionTacticHistory := counters.sessionTacticHistory ++ [tactic] }
      context := { context.updateSubgoals afterSubgoals with
        proofDepth := context.proofDepth + 1 } }
  else { s with counters, context }

def tryTactic (s : State G V A) (targetGoalId : ℕ) (tactic : Text) : Progress G V A :=
  let s := { s with counters := { s.counters with
    sessionTacticHistory := s.counters.sessionTacticHistory ++
      [("Goal " ++ toString targetGoalId ++ ": ").toList ++ tactic] } }
  match G.step tactic s.gym with
  | (gym, .error e) => .ends { s with gym } (unexpectedError s.counters e)
  | (gym, .ok tacticResult) =>
    match G.openSubgoals gym with
    | (gym, .error e) => .ends { s with gym } (unexpectedError s.counters e)
    | (gym, .ok afterSubgoals) =>
      .continues ({ s with gym }.recordTactic tactic (isSyntaxSuccessful tacticResult)
        afterSubgoals)

variable (M : Methods G V A) (limits : Limits)

/-- Priorities are asked for where there are several subgoals. -/
def updatePriorities (s : State G V A) : State G V A × Except Text Unit :=
  if 1 < s.context.subgoals.length then
    match M.evaluatePriorities s.gym s.agent s.context with
    | (agent, .error e) => ({ s with agent }, .error e)
    | (agent, .ok priorities) =>
      ({ s with
        agent
        context := { s.context with priorities }
        counters := { s.counters with
          sessionPriorityCalls := s.counters.sessionPriorityCalls + 1 } }, .ok ())
  else (s, .ok ())

variable [LT V] [DecidableLT V]

def chooseTactic (step : ℕ) (s : State G V A) : Option (Attempt G V) × Progress G V A :=
  match s.context.activeGoalId with
  | none => (none, .ends s (createFailureResult s.counters "No available goals to work on".toList
      step s.context.proofDepth))
  | some targetGoalId =>
    match M.recommendTactic s.gym s.agent s.context targetGoalId with
    | (agent, .error e) => (none, .ends { s with agent } (unexpectedError s.counters e))
    | (agent, .ok tactic) =>
      let s := { s with agent }
      let tactic := tactic.getD []
      if tactic = [] then
        (none, .ends s (createFailureResult s.counters "No more tactics available".toList step
          s.context.proofDepth))
      else (some ⟨s.gym, s.context, targetGoalId, tactic⟩, tryTactic s targetGoalId tactic)

/-- One step of the proof: the tactic it gives to the gym, and how the proof goes on. -/
def proofStep (step : ℕ) (s : State G V A) : Option (Attempt G V) × Progress G V A :=
  if limits.timedOut step then
    (none, .ends s (createTimeoutResult s.counters step s.context
      ("Proof timeout after ".toList ++ limits.timeout ++ ['s'])))
  else if s.context.isComplete then
    let counters := { s.counters with
      totalProofsSucceeded := s.counters.totalProofsSucceeded + 1 }
    (none, .ends { s with counters } (createSuccessResult counters step s.context))
  else if limits.maxDepth ≤ s.context.proofDepth then
    (none, .ends s (createFailureResult s.counters
      ("Maximum proof depth " ++ toString limits.maxDepth ++ " reached").toList step
      s.context.proofDepth))
  else
    match updatePriorities M s with
    | (s, .error e) => (none, .ends s (unexpectedError s.counters e))
    | (s, .ok ()) => chooseTactic M step s

def proofLoop : ℕ → ℕ → State G V A → List (Attempt G V) × State G V A × ProofResult
  | 0, _, s => ([], s, createFailureResult s.counters
      ("Maximum steps " ++ toString limits.maxSteps ++ " reached").toList limits.maxSteps
      s.context.proofDepth)
  | n + 1, step, s =>
    match proofStep M limits step s with
    | (attempt, .ends s result) => (attempt.toList, s, result)
    | (attempt, .continues s) =>
      let rest := proofLoop n (step + 1) s
      (attempt.toList ++ rest.1, rest.2)

/-- A call of `prove_theorem`: the tactics it gives to the gym, and what it leaves behind. -/
structure Run (G : Gym) (V A : Type) where
  attempts : List (Attempt G V) := []
  gym : G.State
  agent : A
  counters : Counters
  result : ProofResult

def proveTheorem (theoremStatement : Text) (gym : G.State) (agent : A) (counters : Counters) :
    Run G V A :=
  let counters := { counters.resetSession with
    totalProofsAttempted := counters.totalProofsAttempted + 1 }
  match G.step theoremStatement gym with
  | (gym, .error e) => { gym, agent, counters, result := unexpectedError counters e }
  | (gym, .ok initialResult) =>
    if isSyntaxSuccessful initialResult then
      match G.openSubgoals gym with
      | (gym, .error e) => { gym, agent, counters, result := unexpectedError counters e }
      | (gym, .ok initialSubgoals) =>
        if initialSubgoals.isEmpty then
          { gym, agent, counters, result := createFailureResult counters
              "No subgoals found after theorem statement".toList 0 0 }
        else
          let r := proofLoop M limits limits.maxSteps.toNat 0
            { gym, agent, counters
              context := ProofContext.make initialSubgoals theoremStatement }
          { attempts := r.1, gym := r.2.1.gym, agent := r.2.1.agent
            counters := r.2.1.counters, result := r.2.2 }
    else
      { gym, agent, counters, result := createFailureResult counters
          ("Failed to start theorem: ".toList ++ getErrorMessage initialResult) 0 0 }

structure Call (G : Gym) where
  theoremStatement : Text
  limits : Limits := {}
  gym : G.State

def proveAll (agent : A) (counters : Counters) :
    List (Call G) → List (Run G V A) × A × Counters
  | [] => ([], agent, counters)
  | call :: calls =>
    let r := proveTheorem M call.limits call.theoremStatement call.gym agent counters
    let rest := proveAll r.agent r.counters calls
    (r :: rest.1, rest.2)

end Proof

structure SimpleIsabelleAgent where
  goalTacticCounters : Dict (List Text × ℕ) ℕ := []

namespace SimpleIsabelleAgent

def basicTactics : List Text := ["by auto", "by simp", "by blast"].map String.toList

def introTactics : List Text :=
  ["apply (rule impI)", "apply (rule allI)", "apply (rule conjI)"].map String.toList

def eliminationTactics : List Text :=
  ["apply (erule conjE)", "apply (erule disjE)", "apply (erule exE)"].map String.toList

def tactics (targetSubgoal : Text) : List Text :=
  if targetSubgoal.head? = some '∀' ∨ '∀' ∈ targetSubgoal then introTactics
  else if '∧' ∈ targetSubgoal ∨ '∨' ∈ targetSubgoal then eliminationTactics
  else basicTactics

def recommendTactic (agent : SimpleIsabelleAgent) (context : ProofContext V) (targetGoalId : ℕ) :
    SimpleIsabelleAgent × Option Text :=
  match context.subgoals[targetGoalId]? with
  | none => (agent, none)
  | some targetSubgoal =>
    let key := (context.subgoals, targetGoalId)
    let counter := Cursors.position agent.goalTacticCounters key
    match (tactics targetSubgoal)[counter]? with
    | none => (agent, none)
    | some tactic =>
      ({ goalTacticCounters := Dict.put agent.goalTacticCounters key (counter + 1) }, some tactic)

def evaluatePriorities (context : ProofContext ℚ) : List ℚ :=
  1 :: List.replicate (context.subgoals.length - 1) (1 / 2)

def methods (G : Gym) : Methods G ℚ SimpleIsabelleAgent where
  recommendTactic _ agent context targetGoalId :=
    let r := agent.recommendTactic context targetGoalId
    (r.1, .ok r.2)
  evaluatePriorities _ agent context := (agent, .ok (evaluatePriorities context))

end SimpleIsabelleAgent

end LinearAgent
end IsabelleGym
