import IsabelleGym.PythonStr
import IsabelleGym.ThyStatus

/-!
# The tree search of the proving agent

Each node of the search carries a script of its own, while the gym is one
document that only grows. Selection, estimates, tactics and priorities come from
a policy, the answers of the gym from its state; what either raises inside the
expansion is caught and kept as feedback.
-/

namespace IsabelleGym
namespace Mcts

open PythonStr

/-- What a step answers: its error text, which may be missing or fail to arrive, and the answer
printed as a whole. -/
structure StepResult where
  errorOutput : Except Text (Option Text)
  shown : Text

def isHarmless (stripped : Text) : Bool :=
  stripped.isEmpty ||
    ["###", "Warning:", "note:", "Warning —"].any (·.toList.isPrefixOf stripped)

def hasErrorOutput (result : StepResult) : Bool :=
  match result.errorOutput with
  | .error _ => true
  | .ok none => false
  | .ok (some errorOutput) =>
    (splitlines (strip errorOutput)).any fun line => !isHarmless (strip line)

def isSyntaxSuccessful (result : StepResult) : Bool := !hasErrorOutput result

def getErrorMessage (result : StepResult) : Text :=
  match result.errorOutput with
  | .ok (some errorOutput) => strip errorOutput
  | _ => "Unknown error occurred".toList

def lines (texts : List Text) : Text := texts.flatMap (· ++ ['\n'])

/-- A gym, with the texts inserted into its current theory. A step inserts its text or leaves
the theory alone, and a step accepted has inserted it; asking for the subgoals may leave texts of
its own behind. Any call can raise. -/
structure Gym where
  State : Type
  texts : State → List Text
  currentThy : State → Except Text Text
  openSubgoals : State → State × Except Text (List Text)
  step : Text → State → State × Except Text StepResult
  getSource : State → Except Text Text
  texts_openSubgoals : ∀ st, texts st <+: texts (openSubgoals st).1
  texts_step : ∀ text st,
    texts (step text st).1 = texts st ∨ texts (step text st).1 = texts st ++ [text]
  texts_accepted : ∀ text st result, (step text st).2 = .ok result →
    isSyntaxSuccessful result = true → texts (step text st).1 = texts st ++ [text]

def Gym.document (G : Gym) (st : G.State) : Text := lines (G.texts st)

/-- A node of the search tree. Nodes are numbered in the order they are made. -/
structure Node (V : Type) where
  subgoals : List Text
  priorities : List V
  currentTheorem : Text
  proofDepth : ℕ
  solved : List Bool
  attemptedTactics : List Text := []
  visitCount : ℕ := 1
  totalValue : V
  children : List ℕ := []
  parent : Option ℕ := none
  parentGoalId : Option ℕ := none
  exhausted : Bool := false
  subtreeExhausted : Bool := false
  tacticFeedback : Option Text := none
  trials : List ℕ

namespace Node

variable {V : Type}

/-- The constructor followed by `__post_init__`. -/
def make [Zero V] [One V] (subgoals : List Text) (priorities : List V) (currentTheorem : Text)
    (proofDepth : ℕ) (parent parentGoalId : Option ℕ) : Node V where
  subgoals := subgoals
  priorities :=
    if priorities.length ≠ subgoals.length then List.replicate subgoals.length 1 else priorities
  currentTheorem := currentTheorem
  proofDepth := proofDepth
  solved := List.replicate subgoals.length false
  totalValue := 0
  parent := parent
  parentGoalId := parentGoalId
  trials := List.replicate subgoals.length 0

def recordTrial (node : Node V) (targetGoalId : ℕ) (tactic : Text) : Node V :=
  { node with
    attemptedTactics :=
      if node.attemptedTactics.contains tactic then node.attemptedTactics
      else node.attemptedTactics ++ [tactic]
    trials := node.trials.modify targetGoalId (· + 1) }

def isComplete (node : Node V) : Bool := node.subgoals.isEmpty || node.solved.all id

def unsolvedGoals (node : Node V) : List (ℕ × V) :=
  (node.priorities.zipIdx.filter fun p => node.solved[p.2]? = some false).map fun p => (p.2, p.1)

/-- The first unsolved goal of the highest priority; none stands for `-1`. -/
def activeGoalId [LT V] [DecidableLT V] (node : Node V) : Option ℕ :=
  if node.subgoals.isEmpty then none
  else (node.unsolvedGoals.foldl highest none).map Prod.fst
where
  highest : Option (ℕ × V) → ℕ × V → Option (ℕ × V)
    | none, goal => some goal
    | some best, goal => if best.2 < goal.2 then some goal else some best

end Node

/-- Selection, tactics, priorities and estimates of an agent, by the number of the search step
and the tree. A selected path consists of nodes of the tree, and none of them edits the theory. -/
structure Policy (V : Type) where
  select : ℕ → (nodes : List (Node V)) → Except Text (List (Fin nodes.length))
  recommendTactic : ℕ → List (Node V) → Node V → ℕ → Except Text (Option Text)
  evaluatePriorities : ℕ → List (Node V) → Node V → Except Text (List V)
  estimate : ℕ → List (Node V) → Node V → Except Text V

structure ProofResult where
  success : Bool
  proofSteps : ℤ
  finalProofLength : ℕ
  finalState : Text
  guidanceCalls : ℕ := 0
  tacticRecommendations : List Text := []
  errorMessage : Option Text := none

/-- The selected node at a moment of the search, the size of the tree and the gym. -/
structure Moment (G : Gym) (V : Type) where
  selected : ℕ
  treeSize : ℕ
  node : Node V
  gym : G.State

inductive Outcome (G : Gym) (V : Type)
  | proved (moment : Moment G V) (result : ProofResult)
  | failed (result : ProofResult)
  | raised (message : Text)

namespace Outcome

variable {G : Gym} {V : Type}

def result : Outcome G V → Option ProofResult
  | proved _ result => some result
  | failed result => some result
  | raised _ => none

def moment : Outcome G V → Option (Moment G V)
  | proved moment _ => some moment
  | _ => none

end Outcome

structure SearchState (G : Gym) (V : Type) where
  gym : G.State
  nodes : List (Node V)
  priorityCalls : ℕ := 0
  tacticHistory : List Text := []

inductive Progress (G : Gym) (V : Type)
  | continues (s : SearchState G V)
  | ends (outcome : Outcome G V)

section Search

variable {G : Gym} {V : Type}

def childrenExhausted (nodes : List (Node V)) (node : Node V) : Bool :=
  node.children.all fun child => (nodes[child]?.map Node.subtreeExhausted).getD false

def backup [Add V] (nodes : List (Node V)) (states : List ℕ) (value : V) : List (Node V) :=
  states.foldl (fun nodes state => nodes.modify state fun node =>
    { node with
      totalValue := node.totalValue + value
      visitCount := node.visitCount + 1
      subtreeExhausted :=
        if node.children.isEmpty then node.subtreeExhausted
        else childrenExhausted nodes node && node.exhausted }) nodes

namespace SearchState

variable (s : SearchState G V)

def modifyNode (state : ℕ) (f : Node V → Node V) : SearchState G V :=
  { s with nodes := s.nodes.modify state f }

def setFeedback (state : ℕ) (feedback : Option Text) : SearchState G V :=
  s.modifyNode state fun node => { node with tacticFeedback := feedback }

/-- Priorities are asked for where there are several subgoals. -/
def countPriorityCall (newSubgoals : List Text) : SearchState G V :=
  { s with priorityCalls := s.priorityCalls + if 1 < newSubgoals.length then 1 else 0 }

def addChild [Add V] (searchTrajectory : List ℕ) (state : ℕ) (childState : Node V)
    (recommendation : Text) : SearchState G V :=
  let nodes := s.nodes.modify state (fun node =>
    { node with children := node.children ++ [s.nodes.length] }) ++ [childState]
  { s with
    nodes := backup nodes searchTrajectory childState.totalValue
    tacticHistory := s.tacticHistory ++ [recommendation] }

end SearchState

variable [Zero V] [One V] [Add V] [LT V] [DecidableLT V]
variable (P : Policy V) (maxTrialsPerGoal : ℤ) (iStep : ℕ)

def newPriorities (nodes : List (Node V)) (node : Node V) (newSubgoals : List Text) :
    Except Text (List V) :=
  if newSubgoals.length ≤ 1 then .ok (List.replicate newSubgoals.length 0)
  else P.evaluatePriorities iStep nodes node

/-- The expansion behind an accepted tactic: the child, its estimate and the backup. -/
def acceptTactic (s : SearchState G V) (searchTrajectory : List ℕ) (state : ℕ) (node : Node V)
    (targetGoalId : ℕ) (tactic : Text) : SearchState G V :=
  match G.openSubgoals s.gym with
  | (gym, .error e) => { s with gym }.setFeedback state (some e)
  | (gym, .ok newSubgoals) =>
    let s := { s with gym }
    match newPriorities P iStep s.nodes node newSubgoals with
    | .error e => s.setFeedback state (some e)
    | .ok priorities =>
      let s := s.countPriorityCall newSubgoals
      let childState := Node.make newSubgoals priorities (node.currentTheorem ++ '\n' :: tactic)
        (node.proofDepth + 1) (some state) (some targetGoalId)
      match P.estimate iStep s.nodes childState with
      | .error e => s.setFeedback state (some e)
      | .ok value =>
        s.addChild searchTrajectory state { childState with totalValue := value }
          (("Goal " ++ toString targetGoalId ++ ": ").toList ++ tactic)

/-- The expansion of a node by a tactic, with the moment the gym is given the tactic. -/
def expand (s : SearchState G V) (searchTrajectory : List ℕ) (state : ℕ) (node : Node V)
    (targetGoalId : ℕ) (tactic : Text) : Option (Moment G V) × SearchState G V :=
  let s := s.modifyNode state (·.recordTrial targetGoalId tactic)
  let node := node.recordTrial targetGoalId tactic
  match G.openSubgoals s.gym with
  | (gym, .error e) => (none, { s with gym }.setFeedback state (some e))
  | (gym, .ok _) =>
    let moment := { selected := state, treeSize := s.nodes.length, node, gym }
    match G.step tactic gym with
    | (gym, .error e) => (some moment, { s with gym }.setFeedback state (some e))
    | (gym, .ok tacticResult) =>
      if isSyntaxSuccessful tacticResult then
        (some moment, acceptTactic P iStep { s with gym } searchTrajectory state node targetGoalId
          tactic)
      else (some moment, { s with gym }.setFeedback state (some tacticResult.shown))

def chooseTactic (nodes : List (Node V)) (node : Node V) (targetGoalId : ℕ) :
    Except Text (Option Text) :=
  if ((node.trials.getD targetGoalId 0 : ℕ) : ℤ) > maxTrialsPerGoal then .ok none
  else P.recommendTactic iStep nodes node targetGoalId

/-- One step of the search: the moment a tactic is executed, and how the search goes on. -/
def searchStep (s : SearchState G V) : Option (Moment G V) × Progress G V :=
  match P.select iStep s.nodes with
  | .error e => (none, .ends (.raised e))
  | .ok searchTrajectory =>
    match searchTrajectory.getLast? with
    | none => (none, .ends (.raised "list index out of range".toList))
    | some state =>
      let node := s.nodes[state]
      if node.isComplete then
        match G.getSource s.gym with
        | .error e => (none, .ends (.raised e))
        | .ok source =>
          (none, .ends (.proved
            { selected := state, treeSize := s.nodes.length, node, gym := s.gym }
            { success := true
              proofSteps := iStep
              finalProofLength := node.proofDepth
              finalState := source
              guidanceCalls := s.priorityCalls
              tacticRecommendations := s.tacticHistory }))
      else
        match node.activeGoalId with
        | none => (none, .continues (s.modifyNode state fun node =>
            { node with exhausted := true, subtreeExhausted := true }))
        | some targetGoalId =>
          match chooseTactic P maxTrialsPerGoal iStep s.nodes node targetGoalId with
          | .error e => (none, .ends (.raised e))
          | .ok tactic =>
            if tactic.getD [] = [] then
              (none, .continues (s.modifyNode state fun node =>
                { node with
                  tacticFeedback := none
                  exhausted := true
                  subtreeExhausted := childrenExhausted s.nodes node }))
            else
              let r := expand P iStep s (searchTrajectory.map Fin.val) state node targetGoalId
                (tactic.getD [])
              (r.1, .continues r.2)

def searchLoop (maxSteps : ℤ) : ℕ → ℕ → SearchState G V → List (Moment G V) × Outcome G V
  | 0, _, s =>
    match G.getSource s.gym with
    | .error e => ([], .raised e)
    | .ok source =>
      ([], .failed
        { success := false
          proofSteps := maxSteps
          finalProofLength := (s.nodes.head?.map Node.proofDepth).getD 0
          finalState := source
          guidanceCalls := s.priorityCalls
          tacticRecommendations := s.tacticHistory
          errorMessage := some "MCTS search steps exhausted".toList })
  | n + 1, iStep, s =>
    match searchStep P maxTrialsPerGoal iStep s with
    | (moment, .ends outcome) => (moment.toList, outcome)
    | (moment, .continues s) =>
      let rest := searchLoop maxSteps n (iStep + 1) s
      (moment.toList ++ rest.1, rest.2)

/-- A call of `prove_theorem`: the gym when the root has its statement, whether the search took
over a proof that was open already, the moments tactics are executed for a node, and the end. -/
structure Run (G : Gym) (V : Type) where
  root : G.State
  takenOver : Bool
  executions : List (Moment G V)
  outcome : Outcome G V

def failedStart (message : String) (detail : Text) : Outcome G V :=
  .failed
    { success := false
      proofSteps := 0
      finalProofLength := 0
      finalState := []
      errorMessage := some (message.toList ++ detail) }

def searchFrom (theoremStatement : Text) (maxSteps : ℤ) (gym : G.State) (subgoals : List Text) :
    List (Moment G V) × Outcome G V :=
  let searchRoot := Node.make subgoals (List.replicate subgoals.length 0) theoremStatement 0
    none none
  match P.estimate 0 [] searchRoot with
  | .error e => ([], .raised e)
  | .ok value =>
    searchLoop P maxTrialsPerGoal maxSteps maxSteps.toNat 0
      { gym, nodes := [{ searchRoot with totalValue := value }] }

/-- The theorem started by its statement, for a gym without open subgoals. -/
def startTheorem (theoremStatement : Text) (maxSteps : ℤ) (gym : G.State) : Run G V :=
  match G.step theoremStatement gym with
  | (gym, .error e) => ⟨gym, false, [], .raised e⟩
  | (gym, .ok theoremResult) =>
    if isSyntaxSuccessful theoremResult then
      match G.openSubgoals gym with
      | (_, .error e) => ⟨gym, false, [], .raised e⟩
      | (gym', .ok subgoals) =>
        if subgoals.isEmpty then
          ⟨gym, false, [], failedStart
            "Failed to start theorem: No subgoals generated after theorem statement" []⟩
        else
          let search := searchFrom P maxTrialsPerGoal theoremStatement maxSteps gym' subgoals
          ⟨gym, false, search.1, search.2⟩
    else
      ⟨gym, false, [], failedStart "Failed to start theorem: " (getErrorMessage theoremResult)⟩

def proveTheorem (theoremStatement : Text) (maxSteps : ℤ) (gym : G.State) : Run G V :=
  match G.currentThy gym with
  | .error e => ⟨gym, false, [], .raised e⟩
  | .ok _ =>
    match G.openSubgoals gym with
    | (gym, .error e) => ⟨gym, false, [], .raised e⟩
    | (gym, .ok subgoals) =>
      if subgoals.isEmpty then startTheorem P maxTrialsPerGoal theoremStatement maxSteps gym
      else
        let search := searchFrom P maxTrialsPerGoal theoremStatement maxSteps gym subgoals
        ⟨gym, true, search.1, search.2⟩

end Search
end Mcts
end IsabelleGym
