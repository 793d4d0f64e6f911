import IsabelleGym.MctsTree

/-!
# Trials of the active goal

No subgoal of a node is ever marked as solved, so the goal a node is tried at
never changes. Each execution of a tactic costs a trial of it, and the limit is
looked at before the trial is counted.
-/

namespace IsabelleGym
namespace Mcts

open GrowingTree

variable {G : Gym} {V : Type}

namespace Node

/-- The lists of a node run along its subgoals, and no subgoal is marked as solved. -/
structure Aligned (node : Node V) : Prop where
  priorities : node.priorities.length = node.subgoals.length
  solved : node.solved = List.replicate node.subgoals.length false
  trials : node.trials.length = node.subgoals.length

/-- What the goals of a node depend on. -/
def shape (node : Node V) : List Text × List V × List Bool × ℕ :=
  (node.subgoals, node.priorities, node.solved, node.trials.length)

theorem Aligned.of_shape_eq {node node' : Node V} (h : node.Aligned)
    (hshape : node'.shape = node.shape) : node'.Aligned := by
  obtain ⟨hsubgoals, hpriorities, hsolved, htrials⟩ := by simpa [shape] using hshape
  constructor
  · rw [hpriorities, hsubgoals, h.priorities]
  · rw [hsolved, hsubgoals, h.solved]
  · rw [htrials, hsubgoals, h.trials]

theorem make_aligned [Zero V] [One V] (subgoals : List Text) (priorities : List V)
    (currentTheorem : Text) (proofDepth : ℕ) (parent parentGoalId : Option ℕ) :
    (make subgoals priorities currentTheorem proofDepth parent parentGoalId).Aligned where
  priorities := by
    simp only [make]
    split_ifs with h
    · exact List.length_replicate
    · exact not_not.mp h
  solved := rfl
  trials := List.length_replicate

theorem aligned_of_map_shape {nodes nodes' : List (Node V)} (h : ∀ node ∈ nodes, node.Aligned)
    (hmap : nodes'.map shape = nodes.map shape) : ∀ node ∈ nodes', node.Aligned := by
  intro node hnode
  have hshape := List.mem_map_of_mem (f := shape) hnode
  rw [hmap] at hshape
  obtain ⟨old, hmem, heq⟩ := List.mem_map.mp hshape
  exact (h old hmem).of_shape_eq heq.symm

theorem aligned_modify {nodes : List (Node V)} (h : ∀ node ∈ nodes, node.Aligned)
    {f : Node V → Node V} (hf : ∀ node, (f node).shape = node.shape) (state : ℕ) :
    ∀ node ∈ nodes.modify state f, node.Aligned :=
  aligned_of_map_shape h (map_modify_of_eq hf nodes state)

@[simp] theorem shape_recordTrial (node : Node V) (targetGoalId : ℕ) (tactic : Text) :
    (node.recordTrial targetGoalId tactic).shape = node.shape := by
  simp [shape, recordTrial]

theorem Aligned.isComplete_iff {node : Node V} (h : node.Aligned) :
    node.isComplete = true ↔ node.subgoals = [] := by
  rw [isComplete, h.solved]
  cases hsubgoals : node.subgoals <;> simp [List.replicate_succ]

theorem Aligned.mem_unsolvedGoals {node : Node V} (h : node.Aligned) {goal : ℕ × V}
    (hgoal : goal ∈ node.unsolvedGoals) : goal.1 < node.subgoals.length := by
  simp only [unsolvedGoals, List.mem_map, List.mem_filter] at hgoal
  obtain ⟨p, ⟨hp, _⟩, rfl⟩ := hgoal
  have := List.mem_zipIdx' hp
  rw [← h.priorities]
  exact this.1

theorem Aligned.unsolvedGoals_ne_nil {node : Node V} (h : node.Aligned)
    (hsubgoals : node.subgoals ≠ []) : node.unsolvedGoals ≠ [] := by
  have hpos : 0 < node.subgoals.length := List.length_pos_iff.mpr hsubgoals
  have hpriorities : 0 < node.priorities.length := h.priorities ▸ hpos
  apply List.ne_nil_of_mem (a := (0, node.priorities[0]))
  simp only [unsolvedGoals, List.mem_map, List.mem_filter]
  refine ⟨(node.priorities[0], 0), ⟨?_, ?_⟩, rfl⟩
  · exact List.mem_zipIdx_iff_getElem?.mpr (List.getElem?_eq_getElem hpriorities)
  · simp [h.solved, hpos]

section Active

variable [LT V] [DecidableLT V]

theorem foldl_highest_some (goal : ℕ × V) (goals : List (ℕ × V)) :
    ∃ g ∈ goal :: goals, goals.foldl activeGoalId.highest (some goal) = some g := by
  induction goals generalizing goal with
  | nil => exact ⟨goal, List.mem_cons_self, rfl⟩
  | cons next goals ih =>
    rw [List.foldl_cons, activeGoalId.highest]
    split_ifs
    · obtain ⟨g, hg, heq⟩ := ih next
      exact ⟨g, List.mem_cons_of_mem goal hg, heq⟩
    · obtain ⟨g, hg, heq⟩ := ih goal
      rcases List.mem_cons.mp hg with rfl | hg
      · exact ⟨g, List.mem_cons_self, heq⟩
      · exact ⟨g, List.mem_cons_of_mem goal (List.mem_cons_of_mem next hg), heq⟩

/-- An active goal is one of the subgoals, and there is one unless the node is complete. -/
theorem Aligned.activeGoalId_cases {node : Node V} (h : node.Aligned) :
    (node.isComplete = true ∧ node.activeGoalId = none) ∨
      node.isComplete = false ∧
        ∃ g, node.activeGoalId = some g ∧ g < node.subgoals.length := by
  by_cases hsubgoals : node.subgoals = []
  · exact Or.inl ⟨h.isComplete_iff.mpr hsubgoals, by simp [activeGoalId, hsubgoals]⟩
  · refine Or.inr ⟨?_, ?_⟩
    · rw [← Bool.not_eq_true, h.isComplete_iff]
      exact hsubgoals
    · obtain ⟨goal, goals, hgoals⟩ := List.exists_cons_of_ne_nil (h.unsolvedGoals_ne_nil hsubgoals)
      obtain ⟨g, hg, hfold⟩ := foldl_highest_some goal goals
      refine ⟨g.1, ?_, h.mem_unsolvedGoals (hgoals ▸ hg)⟩
      rw [activeGoalId, if_neg (by simpa using hsubgoals), hgoals, List.foldl_cons,
        activeGoalId.highest, hfold]
      rfl

theorem activeGoalId_of_shape_eq {node node' : Node V} (h : node'.shape = node.shape) :
    node'.activeGoalId = node.activeGoalId := by
  obtain ⟨hsubgoals, hpriorities, hsolved, _⟩ := by simpa [shape] using h
  simp [activeGoalId, unsolvedGoals, hsubgoals, hpriorities, hsolved]

def tried (node : Node V) : ℕ := (node.activeGoalId.map fun g => node.trials.getD g 0).getD 0

theorem Aligned.tried_recordTrial {node : Node V} (h : node.Aligned) {targetGoalId : ℕ}
    (hgoal : node.activeGoalId = some targetGoalId) (tactic : Text) :
    (node.recordTrial targetGoalId tactic).tried = node.tried + 1 := by
  obtain ⟨_, hnone⟩ | ⟨_, g, hg, hlt⟩ := h.activeGoalId_cases
  · rw [hnone] at hgoal
    cases hgoal
  · obtain rfl := Option.some.inj (hg.symm.trans hgoal)
    have hlt : g < node.trials.length := h.trials ▸ hlt
    rw [tried, activeGoalId_of_shape_eq (shape_recordTrial node g tactic), tried, hg]
    simp [recordTrial, List.getD_eq_getElem?_getD, List.getElem?_modify, hlt]

end Active
end Node

/-- The trials of the active goal of a node, none for one that is yet to be made. -/
def triedAt [LT V] [DecidableLT V] (nodes : List (Node V)) (k : ℕ) : ℕ :=
  ((nodes.map Node.tried)[k]?).getD 0

section Active

variable [LT V] [DecidableLT V]

theorem triedAt_recordTrial {nodes : List (Node V)} {state : ℕ} {node : Node V}
    (hnode : nodes[state]? = some node) (haligned : node.Aligned) {targetGoalId : ℕ}
    (hgoal : node.activeGoalId = some targetGoalId) (tactic : Text) (k : ℕ) :
    triedAt (nodes.modify state (·.recordTrial targetGoalId tactic)) k =
      triedAt nodes k + if state = k then 1 else 0 := by
  rw [triedAt, triedAt, List.getElem?_map, List.getElem?_map, List.getElem?_modify]
  by_cases hk : state = k
  · subst hk
    simp [hnode, haligned.tried_recordTrial hgoal]
  · cases nodes[k]? <;> simp [hk]

theorem triedAt_of_map_eq {nodes nodes' : List (Node V)}
    (h : nodes'.map Node.tried = nodes.map Node.tried) (k : ℕ) :
    triedAt nodes' k = triedAt nodes k := by
  rw [triedAt, h, triedAt]

theorem triedAt_append (nodes : List (Node V)) (child : Node V) (k : ℕ) (h : child.tried = 0) :
    ((nodes.map Node.tried ++ [child.tried])[k]?).getD 0 = triedAt nodes k := by
  rw [triedAt, List.getElem?_append]
  split_ifs with hk
  · rfl
  · rw [List.getElem?_eq_none (Nat.le_of_not_lt hk), h]
    cases k - (nodes.map Node.tried).length <;> simp

end Active

section Steps

variable [Zero V] [One V]

theorem estimatedChild_aligned (state : ℕ) (newSubgoals : List Text) (priorities : List V)
    (script : Text) (depth targetGoalId : ℕ) (value : V) :
    (estimatedChild state newSubgoals priorities script depth targetGoalId value).Aligned :=
  (Node.make_aligned newSubgoals priorities script depth (some state)
    (some targetGoalId)).of_shape_eq rfl

theorem searchStart_aligned (theoremStatement : Text) (gym : G.State) (subgoals : List Text)
    (value : V) : ∀ node ∈ (searchStart theoremStatement gym subgoals value).nodes,
      node.Aligned := by
  intro node hnode
  rw [List.mem_singleton.mp hnode]
  exact (Node.make_aligned subgoals (List.replicate subgoals.length 0) theoremStatement 0 none
    none).of_shape_eq rfl

variable [LT V] [DecidableLT V]

theorem estimatedChild_tried (state : ℕ) (newSubgoals : List Text) (priorities : List V)
    (script : Text) (depth targetGoalId : ℕ) (value : V) :
    (estimatedChild state newSubgoals priorities script depth targetGoalId value).tried = 0 := by
  rw [Node.tried]
  cases (estimatedChild state newSubgoals priorities script depth targetGoalId value).activeGoalId
  · rfl
  · simp [estimatedChild, Node.make, List.getD_eq_getElem?_getD, List.getElem?_replicate]
    split_ifs <;> rfl

variable [Add V] {P : Policy V} {maxTrialsPerGoal : ℤ} {iStep : ℕ}

theorem Grown.aligned {s : SearchState G V} {searchTrajectory : List ℕ} {state : ℕ}
    {node : Node V} {m : Option (Moment G V)} {nodes' : List (Node V)}
    (h : Grown P maxTrialsPerGoal iStep s searchTrajectory state node m nodes')
    (hs : ∀ node ∈ s.nodes, node.Aligned) : ∀ node ∈ nodes', node.Aligned := by
  have hrecord : ∀ targetGoalId tactic,
      ∀ node ∈ s.nodes.modify state (·.recordTrial targetGoalId tactic), node.Aligned := fun _ _ =>
    Node.aligned_modify hs (fun node => node.shape_recordTrial _ _) state
  cases h with
  | noGoal _ => exact Node.aligned_modify hs (by intro; rfl) state
  | noTactic => exact Node.aligned_modify hs (by intro; rfl) state
  | failed feedback _ _ _ => exact Node.aligned_modify (hrecord _ _) (by intro; rfl) state
  | @made _ targetGoalId tactic newSubgoals priorities script depth value _ _ _ =>
    have hmap := map_addChild (g := Node.shape) (fun _ _ => rfl) (fun _ _ _ _ => rfl)
      (s.nodes.modify state (·.recordTrial targetGoalId tactic)) state
      (estimatedChild state newSubgoals priorities script depth targetGoalId value)
      searchTrajectory value
    rw [← List.map_singleton (f := Node.shape), ← List.map_append] at hmap
    refine Node.aligned_of_map_shape ?_ hmap
    intro node hnode
    rcases List.mem_append.mp hnode with hnode | hnode
    · exact hrecord _ _ node hnode
    · rw [List.mem_singleton.mp hnode]
      exact estimatedChild_aligned ..

/-- No step takes a trial back. One that executes a tactic finds the trials of the selected node
within the limit and counts one more. -/
theorem Grown.triedAt {s : SearchState G V} {searchTrajectory : List ℕ} {state : ℕ}
    {node : Node V} {m : Option (Moment G V)} {nodes' : List (Node V)}
    (h : Grown P maxTrialsPerGoal iStep s searchTrajectory state node m nodes')
    (hnode : s.nodes[state]? = some node) (haligned : node.Aligned) (k : ℕ) :
    Mcts.triedAt s.nodes k ≤ Mcts.triedAt nodes' k ∧
      ∀ moment, m = some moment → moment.selected = k →
        (Mcts.triedAt s.nodes k : ℤ) ≤ maxTrialsPerGoal ∧
        Mcts.triedAt nodes' k = Mcts.triedAt s.nodes k + 1 := by
  have hkept : ∀ f : Node V → Node V, (∀ node, (f node).tried = node.tried) →
      Mcts.triedAt (s.nodes.modify state f) k = Mcts.triedAt s.nodes k := fun f hf =>
    triedAt_of_map_eq (map_modify_of_eq hf _ _) k
  have htrial : ∀ {nodes' : List (Node V)} {targetGoalId : ℕ} {tactic : Text},
      node.activeGoalId = some targetGoalId →
      ((node.trials.getD targetGoalId 0 : ℕ) : ℤ) ≤ maxTrialsPerGoal →
      (∀ moment, m = some moment → moment.selected = state) →
      Mcts.triedAt nodes' k =
        Mcts.triedAt (s.nodes.modify state (·.recordTrial targetGoalId tactic)) k →
      Mcts.triedAt s.nodes k ≤ Mcts.triedAt nodes' k ∧
        ∀ moment, m = some moment → moment.selected = k →
          (Mcts.triedAt s.nodes k : ℤ) ≤ maxTrialsPerGoal ∧
          Mcts.triedAt nodes' k = Mcts.triedAt s.nodes k + 1 := by
    intro nodes' targetGoalId tactic hgoal hle hm heq
    rw [heq, triedAt_recordTrial hnode haligned hgoal]
    refine ⟨Nat.le_add_right _ _, ?_⟩
    intro moment hmoment hselected
    obtain rfl : state = k := (hm moment hmoment).symm.trans hselected
    refine ⟨?_, by rw [if_pos rfl]⟩
    simpa [Mcts.triedAt, hnode, Node.tried, hgoal] using hle
  cases h with
  | noGoal _ => exact ⟨(hkept _ (by intro; rfl)).ge, by simp⟩
  | noTactic => exact ⟨(hkept _ (by intro; rfl)).ge, by simp⟩
  | failed feedback hgoal htactic hm =>
    exact htrial hgoal (chooseTactic_eq_some htactic).1 hm
      (triedAt_of_map_eq (map_modify_of_eq (by intro; rfl) _ _) k)
  | @made _ targetGoalId tactic newSubgoals priorities script depth value hgoal htactic hm =>
    refine @htrial _ _ tactic hgoal (chooseTactic_eq_some htactic).1 hm ?_
    rw [Mcts.triedAt, map_addChild (fun _ _ => rfl) (fun _ _ _ _ => rfl)]
    exact triedAt_append _ _ k (estimatedChild_tried ..)

theorem searchStep_ends {s : SearchState G V} {iStep : ℕ} {m : Option (Moment G V)}
    {outcome : Outcome G V} (h : searchStep P maxTrialsPerGoal iStep s = (m, .ends outcome)) :
    m = none := by
  unfold searchStep at h
  split at h
  · exact (congrArg Prod.fst h).symm
  · split at h
    · exact (congrArg Prod.fst h).symm
    · dsimp only at h
      split_ifs at h
      · split at h <;> exact (congrArg Prod.fst h).symm
      · split at h
        · exact (congrArg Prod.fst h).symm
        · split at h
          · exact (congrArg Prod.fst h).symm
          · split_ifs at h
            · exact (congrArg Prod.fst h).symm
            · cases congrArg Prod.snd h

/-- What is left of the limit of a node bounds the tactics that are executed for it. -/
theorem countP_searchLoop_le (maxSteps : ℤ) (k n iStep : ℕ) {s : SearchState G V}
    (hs : ∀ node ∈ s.nodes, node.Aligned) :
    (searchLoop P maxTrialsPerGoal maxSteps n iStep s).1.countP (fun m => m.selected = k) ≤
      (maxTrialsPerGoal + 1).toNat - Mcts.triedAt s.nodes k := by
  induction n generalizing iStep s with
  | zero =>
    rw [searchLoop]
    split <;> exact Nat.zero_le _
  | succ n ih =>
    rw [searchLoop]
    split
    · rename_i hstep
      rw [searchStep_ends hstep]
      exact Nat.zero_le _
    · rename_i m s' hstep
      obtain ⟨_, state, _, _, _, hgrown⟩ := searchStep_grown hstep
      have hnode := List.getElem?_eq_getElem state.isLt
      have haligned := hs _ (List.getElem_mem state.isLt)
      obtain ⟨hle, hexecuted⟩ := hgrown.triedAt hnode haligned k
      have hrest := ih (iStep + 1) (hgrown.aligned hs)
      rw [List.countP_append]
      cases m with
      | none =>
        rw [Option.toList_none, List.countP_nil]
        omega
      | some moment =>
        by_cases hk : moment.selected = k
        · obtain ⟨hlimit, hone⟩ := hexecuted moment rfl hk
          rw [Option.toList_some, List.countP_singleton, if_pos (by simpa using hk)]
          omega
        · rw [Option.toList_some, List.countP_singleton, if_neg (by simpa using hk)]
          omega

theorem searchFrom_countP_le (theoremStatement : Text) (maxSteps : ℤ) (gym : G.State)
    (subgoals : List Text) (k : ℕ) :
    (searchFrom P maxTrialsPerGoal theoremStatement maxSteps gym subgoals).1.countP
      (fun m => m.selected = k) ≤ (maxTrialsPerGoal + 1).toNat := by
  unfold searchFrom
  dsimp only
  split
  · exact Nat.zero_le _
  · rename_i value _
    exact (countP_searchLoop_le maxSteps k _ 0
      (searchStart_aligned theoremStatement gym subgoals value)).trans (Nat.sub_le _ _)

/-- In a run of the prover, whatever the policy and the gym, at most `max_trials_per_goal + 1`
tactics are executed for a node. -/
theorem executions_countP_le (P : Policy V) (maxTrialsPerGoal : ℤ) (theoremStatement : Text)
    (maxSteps : ℤ) (gym : G.State) (k : ℕ) :
    (proveTheorem P maxTrialsPerGoal theoremStatement maxSteps gym).executions.countP
      (fun m => m.selected = k) ≤ (maxTrialsPerGoal + 1).toNat := by
  unfold proveTheorem
  split
  · exact Nat.zero_le _
  · split
    · exact Nat.zero_le _
    · split_ifs
      · unfold startTheorem
        split
        · exact Nat.zero_le _
        · split_ifs
          · split
            · exact Nat.zero_le _
            · split_ifs
              · exact Nat.zero_le _
              · exact searchFrom_countP_le theoremStatement maxSteps _ _ k
          · exact Nat.zero_le _
      · exact searchFrom_countP_le theoremStatement maxSteps _ _ k

end Steps

end Mcts
end IsabelleGym
