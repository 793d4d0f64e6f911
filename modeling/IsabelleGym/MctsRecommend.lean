import IsabelleGym.Cursors
import IsabelleGym.MctsTrials
import IsabelleGym.SplitWords

/-!
# The tactics of the simple search agent

The agent keeps a cursor for each goal among its open subgoals and gives the
tactics of the goal in turn, but for those the node has attempted. The cursors
are never reset: they outlive the node, the search and the call.
-/

namespace IsabelleGym
namespace Mcts

open List PythonStr

variable {G : Gym} {V : Type}

structure SimpleTactics where
  goalTacticIdMap : Dict (List Text × ℕ) ℕ := []
  primaryTactics : List Text := ["by auto", "by simp", "by blast"].map String.toList
  secondaryTactics : List Text := []
  specializedTactics : List Text := []

namespace SimpleTactics

def tactics (agent : SimpleTactics) (target : Text) : List Text :=
  if "True".toList <:+: target then agent.primaryTactics
  else if (words target).length ≤ 3 then agent.primaryTactics ++ agent.secondaryTactics
  else agent.primaryTactics ++ agent.secondaryTactics ++ agent.specializedTactics

def recommendTactic (agent : SimpleTactics) (node : Node V) (targetGoalId : ℕ) :
    Option Text × SimpleTactics :=
  match node.subgoals[targetGoalId]? with
  | none => (none, agent)
  | some target =>
    let r := Cursors.ask agent.goalTacticIdMap (node.subgoals, targetGoalId)
      node.attemptedTactics.contains (agent.tactics target)
    (r.1, { agent with goalTacticIdMap := r.2 })

/-- What is left of the tactics of a goal among its open subgoals. -/
def remaining (agent : SimpleTactics) (goal : List Text × ℕ) : List Text :=
  ((goal.1[goal.2]?.map agent.tactics).getD []).drop
    (Cursors.position agent.goalTacticIdMap goal)

variable (agent : SimpleTactics) (node : Node V) (targetGoalId : ℕ)

theorem remaining_recommendTactic_sublist :
    (agent.recommendTactic node targetGoalId).1.toList ++
        (agent.recommendTactic node targetGoalId).2.remaining (node.subgoals, targetGoalId) <+
      agent.remaining (node.subgoals, targetGoalId) := by
  unfold recommendTactic
  split
  · exact List.Sublist.refl _
  · rename_i target htarget
    dsimp only
    rw [remaining, remaining, htarget]
    exact Cursors.ask_sublist agent.goalTacticIdMap (node.subgoals, targetGoalId) _
      (agent.tactics target)

theorem remaining_recommendTactic_of_ne {goal : List Text × ℕ}
    (h : goal ≠ (node.subgoals, targetGoalId)) :
    (agent.recommendTactic node targetGoalId).2.remaining goal = agent.remaining goal := by
  unfold recommendTactic
  split
  · rfl
  · dsimp only
    rw [remaining, Cursors.position_ask_of_ne _ _ _ _ h, remaining]
    rfl

theorem remaining_recommendTactic (goal : List Text × ℕ) :
    (agent.recommendTactic node targetGoalId).2.remaining goal <+ agent.remaining goal := by
  by_cases hgoal : goal = (node.subgoals, targetGoalId)
  · subst hgoal
    exact (List.sublist_append_right _ _).trans
      (agent.remaining_recommendTactic_sublist node targetGoalId)
  · rw [remaining_recommendTactic_of_ne agent node targetGoalId hgoal]

end SimpleTactics

section Requests

variable [Zero V] [One V] [Add V] [LT V] [DecidableLT V]
variable (P : Policy V) (maxTrialsPerGoal : ℤ) (iStep : ℕ)

def Policy.recommendBy (f : ℕ → Node V → ℕ → Option Text) : Policy V :=
  { P with recommendTactic := fun iStep _ node targetGoalId => .ok (f iStep node targetGoalId) }

def Policy.recommending (agent : SimpleTactics) : Policy V :=
  P.recommendBy fun _ node targetGoalId => (agent.recommendTactic node targetGoalId).1

/-- The node and the goal that a step of the search asks a tactic for. -/
def request (s : SearchState G V) : Option (Node V × ℕ) :=
  match P.select iStep s.nodes with
  | .error _ => none
  | .ok searchTrajectory =>
    match searchTrajectory.getLast? with
    | none => none
    | some state =>
      let node := s.nodes.get state
      if node.isComplete then none
      else
        match node.activeGoalId with
        | none => none
        | some targetGoalId =>
          if ((node.trials.getD targetGoalId 0 : ℕ) : ℤ) > maxTrialsPerGoal then none
          else some (node, targetGoalId)

variable {P maxTrialsPerGoal iStep}

omit [LT V] [DecidableLT V] in
theorem expand_moment {s : SearchState G V} {searchTrajectory : List ℕ} {state : ℕ}
    {node : Node V} {targetGoalId : ℕ} {tactic : Text} {m : Moment G V}
    (h : (expand P iStep s searchTrajectory state node targetGoalId tactic).1 = some m) :
    m.node = node.recordTrial targetGoalId tactic := by
  unfold expand at h
  dsimp only at h
  split at h
  · cases h
  · split at h
    · cases h
      rfl
    · split_ifs at h <;> cases h <;> rfl

omit [Zero V] [One V] [Add V] in
theorem request_eq_some {s : SearchState G V} {searchTrajectory : List (Fin s.nodes.length)}
    {state : Fin s.nodes.length} {targetGoalId : ℕ}
    (hselect : P.select iStep s.nodes = .ok searchTrajectory)
    (hlast : searchTrajectory.getLast? = some state)
    (hcomplete : ¬(s.nodes.get state).isComplete = true)
    (hgoal : (s.nodes.get state).activeGoalId = some targetGoalId)
    (hmany : ¬(((s.nodes.get state).trials.getD targetGoalId 0 : ℕ) : ℤ) > maxTrialsPerGoal) :
    request P maxTrialsPerGoal iStep s = some (s.nodes.get state, targetGoalId) := by
  rw [request, hselect]
  dsimp only
  rw [hlast]
  dsimp only
  rw [if_neg hcomplete, hgoal]
  exact if_neg hmany

/-- A step that executes a tactic has asked for it. -/
theorem searchStep_request {s : SearchState G V} {m : Moment G V}
    (h : (searchStep P maxTrialsPerGoal iStep s).1 = some m) :
    ∃ node targetGoalId tactic,
      request P maxTrialsPerGoal iStep s = some (node, targetGoalId) ∧
      P.recommendTactic iStep s.nodes node targetGoalId = .ok (some tactic) ∧
      node.activeGoalId = some targetGoalId ∧
      m.node = node.recordTrial targetGoalId tactic := by
  unfold searchStep at h
  split at h
  · cases h
  · rename_i searchTrajectory hselect
    split at h
    · cases h
    · rename_i state hlast
      dsimp only at h
      split_ifs at h with hcomplete
      · split at h <;> cases h
      · split at h
        · cases h
        · rename_i targetGoalId hgoal
          split at h
          · cases h
          · rename_i tactic hchoose
            split_ifs at h with hnone
            · unfold chooseTactic at hchoose
              split_ifs at hchoose with hmany
              · cases hchoose
                exact absurd rfl hnone
              · cases tactic with
                | none => exact absurd rfl hnone
                | some tactic =>
                  exact ⟨_, _, tactic, request_eq_some hselect hlast hcomplete hgoal hmany, hchoose,
                    hgoal, expand_moment h⟩

end Requests

section Runs

variable [Zero V] [One V] [Add V] [LT V] [DecidableLT V]

abbrev Execution (G : Gym) (V : Type) := Moment G V × Text

/-- The tactics executed while a goal is the active one among its open subgoals. -/
def executedFor (goal : List Text × ℕ) (executions : List (Execution G V)) : List Text :=
  (executions.filter fun e =>
    e.1.node.subgoals = goal.1 ∧ e.1.node.activeGoalId = some goal.2).map Prod.snd

omit [Zero V] [One V] [Add V] in
theorem executedFor_append (goal : List Text × ℕ) (a b : List (Execution G V)) :
    executedFor goal (a ++ b) = executedFor goal a ++ executedFor goal b := by
  rw [executedFor, List.filter_append, List.map_append, executedFor, executedFor]

namespace SimpleTactics

variable (P : Policy V) (maxTrialsPerGoal : ℤ)

def answer (agent : SimpleTactics) (iStep : ℕ) (s : SearchState G V) :
    Option Text × SimpleTactics :=
  match request P maxTrialsPerGoal iStep s with
  | none => (none, agent)
  | some (node, targetGoalId) => agent.recommendTactic node targetGoalId

def step (agent : SimpleTactics) (iStep : ℕ) (s : SearchState G V) :
    Option (Execution G V) × Progress G V :=
  let r := searchStep (P.recommending agent) maxTrialsPerGoal iStep s
  (r.1.map fun m => (m, (agent.answer P maxTrialsPerGoal iStep s).1.getD []), r.2)

def searchLoop (maxSteps : ℤ) : ℕ → ℕ → SimpleTactics → SearchState G V →
    List (Execution G V) × Outcome G V × SimpleTactics
  | 0, iStep, agent, s => ([], (Mcts.searchLoop P maxTrialsPerGoal maxSteps 0 iStep s).2, agent)
  | n + 1, iStep, agent, s =>
    let agent' := (agent.answer P maxTrialsPerGoal iStep s).2
    match agent.step P maxTrialsPerGoal iStep s with
    | (execution, .ends outcome) => (execution.toList, outcome, agent')
    | (execution, .continues s) =>
      let rest := searchLoop maxSteps n (iStep + 1) agent' s
      (execution.toList ++ rest.1, rest.2)

variable (agent : SimpleTactics)

omit [Zero V] [One V] [Add V] in
theorem remaining_answer (iStep : ℕ) (s : SearchState G V) (goal : List Text × ℕ) :
    (agent.answer P maxTrialsPerGoal iStep s).2.remaining goal <+ agent.remaining goal := by
  unfold answer
  split
  · exact List.Sublist.refl _
  · exact agent.remaining_recommendTactic _ _ goal

/-- A step takes the tactic it executes from what is left for the active goal. -/
theorem executedFor_step_sublist (iStep : ℕ) (s : SearchState G V) (goal : List Text × ℕ) :
    executedFor goal (agent.step P maxTrialsPerGoal iStep s).1.toList ++
        (agent.answer P maxTrialsPerGoal iStep s).2.remaining goal <+
      agent.remaining goal := by
  unfold step
  dsimp only
  cases hm : (Mcts.searchStep (P.recommending agent) maxTrialsPerGoal iStep s).1 with
  | none => exact agent.remaining_answer P maxTrialsPerGoal iStep s goal
  | some m =>
    obtain ⟨node, targetGoalId, tactic, hrequest, htactic, hactive, hnode⟩ := searchStep_request hm
    have hanswer : agent.answer P maxTrialsPerGoal iStep s =
        agent.recommendTactic node targetGoalId := by
      have hrequest : request P maxTrialsPerGoal iStep s = some (node, targetGoalId) := hrequest
      rw [answer, hrequest]
    have htactic : (agent.recommendTactic node targetGoalId).1 = some tactic :=
      Except.ok.inj htactic
    have hsubgoals : m.node.subgoals = node.subgoals := by rw [hnode, Node.recordTrial]
    have hgoalId : m.node.activeGoalId = some targetGoalId := by
      rw [hnode, Node.activeGoalId_of_shape_eq (node.shape_recordTrial targetGoalId tactic),
        hactive]
    rw [hanswer, Option.map_some, Option.toList_some, executedFor]
    by_cases hgoal : goal = (node.subgoals, targetGoalId)
    · subst hgoal
      have hsublist := agent.remaining_recommendTactic_sublist node targetGoalId
      rw [htactic, Option.toList_some] at hsublist
      simpa [hsubgoals, hgoalId, htactic] using hsublist
    · have hother : ¬(m.node.subgoals = goal.1 ∧ m.node.activeGoalId = some goal.2) := by
        rintro ⟨hfst, hsnd⟩
        rw [hsubgoals] at hfst
        rw [hgoalId] at hsnd
        exact hgoal (Prod.ext hfst.symm (Option.some.inj hsnd).symm)
      rw [List.filter_cons_of_neg (by simpa using hother), List.filter_nil, List.map_nil,
        List.nil_append]
      exact agent.remaining_recommendTactic node targetGoalId goal

theorem executedFor_searchLoop_sublist (maxSteps : ℤ) (n iStep : ℕ) (s : SearchState G V)
    (goal : List Text × ℕ) :
    executedFor goal (agent.searchLoop P maxTrialsPerGoal maxSteps n iStep s).1 ++
        (agent.searchLoop P maxTrialsPerGoal maxSteps n iStep s).2.2.remaining goal <+
      agent.remaining goal := by
  induction n generalizing iStep agent s with
  | zero => exact List.Sublist.refl _
  | succ n ih =>
    have hstep := agent.executedFor_step_sublist P maxTrialsPerGoal iStep s goal
    rw [searchLoop]
    dsimp only
    split
    · rename_i heq
      rw [heq] at hstep
      exact hstep
    · rename_i s' heq
      rw [heq] at hstep
      dsimp only
      rw [executedFor_append, List.append_assoc]
      exact ((ih _ (iStep + 1) s').append_left _).trans hstep

end SimpleTactics

/-- Where a call of `prove_theorem` starts its search, or how it ends before. -/
inductive Opening (G : Gym) (V : Type)
  | ends (root : G.State) (takenOver : Bool) (outcome : Outcome G V)
  | starts (root : G.State) (takenOver : Bool) (s : SearchState G V)

section Opening

variable (P : Policy V) (theoremStatement : Text)

def openSearch (root : G.State) (takenOver : Bool) (gym : G.State) (subgoals : List Text) :
    Opening G V :=
  let searchRoot := Node.make subgoals (List.replicate subgoals.length 0) theoremStatement 0
    none none
  match P.estimate 0 [] searchRoot with
  | .error e => .ends root takenOver (.raised e)
  | .ok value => .starts root takenOver { gym, nodes := [{ searchRoot with totalValue := value }] }

def openTheorem (gym : G.State) : Opening G V :=
  match G.step theoremStatement gym with
  | (gym, .error e) => .ends gym false (.raised e)
  | (gym, .ok theoremResult) =>
    if isSyntaxSuccessful theoremResult then
      match G.openSubgoals gym with
      | (_, .error e) => .ends gym false (.raised e)
      | (gym', .ok subgoals) =>
        if subgoals.isEmpty then
          .ends gym false (failedStart
            "Failed to start theorem: No subgoals generated after theorem statement" [])
        else openSearch P theoremStatement gym false gym' subgoals
    else
      .ends gym false (failedStart "Failed to start theorem: " (getErrorMessage theoremResult))

def openProof (gym : G.State) : Opening G V :=
  match G.currentThy gym with
  | .error e => .ends gym false (.raised e)
  | .ok _ =>
    match G.openSubgoals gym with
    | (gym, .error e) => .ends gym false (.raised e)
    | (gym, .ok subgoals) =>
      if subgoals.isEmpty then openTheorem P theoremStatement gym
      else openSearch P theoremStatement gym true gym subgoals

def Opening.run (maxTrialsPerGoal maxSteps : ℤ) : Opening G V → Run G V
  | .ends root takenOver outcome => ⟨root, takenOver, [], outcome⟩
  | .starts root takenOver s =>
    let search := searchLoop P maxTrialsPerGoal maxSteps maxSteps.toNat 0 s
    ⟨root, takenOver, search.1, search.2⟩

theorem run_openSearch (maxTrialsPerGoal maxSteps : ℤ) (root gym : G.State) (takenOver : Bool)
    (subgoals : List Text) :
    (openSearch P theoremStatement root takenOver gym subgoals).run P maxTrialsPerGoal maxSteps =
      ⟨root, takenOver,
        (searchFrom P maxTrialsPerGoal theoremStatement maxSteps gym subgoals).1,
        (searchFrom P maxTrialsPerGoal theoremStatement maxSteps gym subgoals).2⟩ := by
  cases hestimate : P.estimate 0 [] (Node.make subgoals (List.replicate subgoals.length 0)
    theoremStatement 0 none none) with
  | error e => simp only [searchFrom, openSearch, hestimate, Opening.run]
  | ok value => simp only [searchFrom, openSearch, hestimate, Opening.run]

theorem run_openTheorem (maxTrialsPerGoal maxSteps : ℤ) (gym : G.State) :
    (openTheorem P theoremStatement gym).run P maxTrialsPerGoal maxSteps =
      startTheorem P maxTrialsPerGoal theoremStatement maxSteps gym := by
  rcases hstep : G.step theoremStatement gym with ⟨gym', _ | theoremResult⟩
  · simp only [openTheorem, startTheorem, hstep, Opening.run]
  · simp only [openTheorem, startTheorem, hstep]
    split_ifs
    · rcases hopen : G.openSubgoals gym' with ⟨gym'', _ | subgoals⟩
      · rfl
      · dsimp only
        split_ifs
        · rfl
        · exact run_openSearch ..
    · rfl

/-- A call opens its search and runs the loop from there. -/
theorem run_openProof (maxTrialsPerGoal maxSteps : ℤ) (gym : G.State) :
    (openProof P theoremStatement gym).run P maxTrialsPerGoal maxSteps =
      proveTheorem P maxTrialsPerGoal theoremStatement maxSteps gym := by
  cases hthy : G.currentThy gym with
  | error e => simp only [openProof, proveTheorem, hthy, Opening.run]
  | ok thy =>
    rcases hopen : G.openSubgoals gym with ⟨gym', _ | subgoals⟩
    · simp only [openProof, proveTheorem, hthy, hopen, Opening.run]
    · simp only [openProof, proveTheorem, hthy, hopen]
      split_ifs
      · exact run_openTheorem ..
      · exact run_openSearch ..

end Opening

structure Call (G : Gym) (V : Type) where
  policy : Policy V
  maxTrialsPerGoal : ℤ := 5
  theoremStatement : Text
  maxSteps : ℤ := 100
  gym : G.State

namespace SimpleTactics

def proveTheorem (agent : SimpleTactics) (call : Call G V) :
    List (Execution G V) × Outcome G V × SimpleTactics :=
  match openProof call.policy call.theoremStatement call.gym with
  | .ends _ _ outcome => ([], outcome, agent)
  | .starts _ _ s => agent.searchLoop call.policy call.maxTrialsPerGoal call.maxSteps
      call.maxSteps.toNat 0 s

/-- The tactics executed in some calls, and the agent they leave. -/
def proveAll : SimpleTactics → List (Call G V) → List (Execution G V) × SimpleTactics
  | agent, [] => ([], agent)
  | agent, call :: calls =>
    let r := agent.proveTheorem call
    let rest := r.2.2.proveAll calls
    (r.1 ++ rest.1, rest.2)

theorem executedFor_proveTheorem_sublist (agent : SimpleTactics) (call : Call G V)
    (goal : List Text × ℕ) :
    executedFor goal (agent.proveTheorem call).1 ++
        (agent.proveTheorem call).2.2.remaining goal <+
      agent.remaining goal := by
  unfold proveTheorem
  split
  · exact List.Sublist.refl _
  · exact agent.executedFor_searchLoop_sublist ..

/-- Over all calls of an agent, whatever their statements, gyms and policies, the tactics
executed for a goal and those left for it are taken in turn from what was left before. -/
theorem executedFor_proveAll_sublist (agent : SimpleTactics) (calls : List (Call G V))
    (goal : List Text × ℕ) :
    executedFor goal (agent.proveAll calls).1 ++ (agent.proveAll calls).2.remaining goal <+
      agent.remaining goal := by
  induction calls generalizing agent with
  | nil => exact List.Sublist.refl _
  | cons call calls ih =>
    have hcall := agent.executedFor_proveTheorem_sublist call goal
    rw [proveAll, executedFor_append, List.append_assoc]
    exact ((ih _).append_left _).trans hcall

section Policies

variable (P : Policy V) (maxTrialsPerGoal : ℤ) {f g : ℕ → Node V → ℕ → Option Text}

theorem searchStep_recommendBy {iStep : ℕ} (h : f iStep = g iStep) (s : SearchState G V) :
    searchStep (P.recommendBy f) maxTrialsPerGoal iStep s =
      searchStep (P.recommendBy g) maxTrialsPerGoal iStep s := by
  have hchoose : chooseTactic (P.recommendBy f) maxTrialsPerGoal iStep s.nodes =
      chooseTactic (P.recommendBy g) maxTrialsPerGoal iStep s.nodes := by
    funext node targetGoalId
    unfold chooseTactic Policy.recommendBy
    dsimp only
    rw [h]
  unfold searchStep
  rw [hchoose]
  rfl

theorem searchLoop_recommendBy (maxSteps : ℤ) (n : ℕ) {iStep : ℕ} (s : SearchState G V)
    (h : ∀ j, iStep ≤ j → f j = g j) :
    Mcts.searchLoop (P.recommendBy f) maxTrialsPerGoal maxSteps n iStep s =
      Mcts.searchLoop (P.recommendBy g) maxTrialsPerGoal maxSteps n iStep s := by
  induction n generalizing iStep s with
  | zero => rfl
  | succ n ih =>
    rw [Mcts.searchLoop, searchStep_recommendBy P maxTrialsPerGoal (h iStep le_rfl),
      Mcts.searchLoop]
    split
    · rfl
    · rw [ih _ fun j hj => h j (Nat.le_of_succ_le hj)]

/-- A search under the agent is one under a policy that gives the agent's answers at each step. -/
theorem exists_recommendBy_searchLoop (maxSteps : ℤ) (n iStep : ℕ) (agent : SimpleTactics)
    (s : SearchState G V) :
    ∃ f, Mcts.searchLoop (P.recommendBy f) maxTrialsPerGoal maxSteps n iStep s =
      ((agent.searchLoop P maxTrialsPerGoal maxSteps n iStep s).1.map Prod.fst,
        (agent.searchLoop P maxTrialsPerGoal maxSteps n iStep s).2.1) := by
  induction n generalizing iStep agent s with
  | zero =>
    refine ⟨fun _ _ _ => none, ?_⟩
    rw [Mcts.searchLoop, searchLoop, Mcts.searchLoop]
    split <;> rfl
  | succ n ih =>
    let now : ℕ → Node V → ℕ → Option Text := fun _ node targetGoalId =>
      (agent.recommendTactic node targetGoalId).1
    rcases hstep : Mcts.searchStep (P.recommendBy now) maxTrialsPerGoal iStep s with
      ⟨m, s' | outcome⟩
    · obtain ⟨f, hf⟩ := ih (iStep + 1) (agent.answer P maxTrialsPerGoal iStep s).2 s'
      let both : ℕ → Node V → ℕ → Option Text := fun j => if j = iStep then now j else f j
      have hagent : Mcts.searchStep (P.recommending agent) maxTrialsPerGoal iStep s =
        (m, .continues s') := hstep
      have hnow : Mcts.searchStep (P.recommendBy both) maxTrialsPerGoal iStep s =
          (m, .continues s') :=
        (searchStep_recommendBy P maxTrialsPerGoal (if_pos rfl) s).trans hstep
      have hrest : ∀ j, iStep + 1 ≤ j → both j = f j := fun j hj => if_neg (by omega)
      refine ⟨both, ?_⟩
      rw [Mcts.searchLoop, hnow, searchLoop, step, hagent]
      dsimp only
      rw [searchLoop_recommendBy P maxTrialsPerGoal maxSteps n s' hrest, hf]
      cases m <;> rfl
    · have hagent : Mcts.searchStep (P.recommending agent) maxTrialsPerGoal iStep s =
        (m, .ends outcome) := hstep
      refine ⟨now, ?_⟩
      rw [Mcts.searchLoop, hstep, searchLoop, step, hagent]
      cases m <;> rfl

/-- A call under the agent is one under a policy. -/
theorem exists_recommendBy_proveTheorem (agent : SimpleTactics) (call : Call G V) :
    ∃ f, (Mcts.proveTheorem (call.policy.recommendBy f) call.maxTrialsPerGoal
        call.theoremStatement call.maxSteps call.gym).outcome = (agent.proveTheorem call).2.1 ∧
      (Mcts.proveTheorem (call.policy.recommendBy f) call.maxTrialsPerGoal
        call.theoremStatement call.maxSteps call.gym).executions =
          (agent.proveTheorem call).1.map Prod.fst := by
  have hopen : ∀ f, openProof (call.policy.recommendBy f) call.theoremStatement call.gym =
      openProof call.policy call.theoremStatement call.gym := fun _ => rfl
  simp only [← run_openProof, hopen]
  unfold proveTheorem
  cases openProof call.policy call.theoremStatement call.gym with
  | ends root takenOver outcome => exact ⟨fun _ _ _ => none, rfl, rfl⟩
  | starts root takenOver s =>
    obtain ⟨f, hf⟩ := exists_recommendBy_searchLoop call.policy call.maxTrialsPerGoal
      call.maxSteps call.maxSteps.toNat 0 agent s
    refine ⟨f, ?_, ?_⟩
    · exact congrArg Prod.snd hf
    · exact congrArg Prod.fst hf

end Policies

end SimpleTactics

end Runs

end Mcts
end IsabelleGym
