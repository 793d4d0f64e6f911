import IsabelleGym.LinearRuns

/-!
# The tactics of the simple linear agent

A step asks its agent for at most one tactic and gives the answer to the gym. The
counters of the simple agent are never reset, so a goal that comes back in another
call goes on where its tactics were left.
-/

namespace IsabelleGym
namespace LinearAgent

open Mcts List

variable {G : Gym} {V A : Type}

def Progress.state : Progress G V A → State G V A
  | .continues s => s
  | .ends s _ => s

/-- How a step consults its agent behind the priorities: not at all, without a tactic, or with
one that it gives to the gym. -/
inductive Consulted (M : Methods G V A) (gym : G.State) (before prioritised : A) :
    Option (Attempt G V) → A → Prop
  | early : Consulted M gym before prioritised none before
  | unasked : Consulted M gym before prioritised none prioritised
  | refused (context : ProofContext V) (targetGoalId : ℕ) :
    (∀ tactic, tactic ≠ [] →
      (M.recommendTactic gym prioritised context targetGoalId).2 ≠ .ok (some tactic)) →
    Consulted M gym before prioritised none
      (M.recommendTactic gym prioritised context targetGoalId).1
  | given (a : Attempt G V) :
    (M.recommendTactic gym prioritised a.context a.targetGoalId).2 = .ok (some a.tactic) →
    Consulted M gym before prioritised (some a)
      (M.recommendTactic gym prioritised a.context a.targetGoalId).1

section Steps

variable [One V]

theorem tryTactic_agent (s : State G V A) (targetGoalId : ℕ) (tactic : Text) :
    (tryTactic s targetGoalId tactic).state.agent = s.agent := by
  obtain ⟨_, tacticResult, gym', afterSubgoals, _, _, htry⟩ | ⟨_, _, _, htry⟩ :=
    tryTactic_cases s targetGoalId tactic
  · rw [htry]
    obtain ⟨_, heq⟩ | heq := recordTactic_cases (s.given gym' s.agent s.context.priorities 0
      (("Goal " ++ toString targetGoalId ++ ": ").toList ++ tactic)) tactic
      (isSyntaxSuccessful tacticResult) afterSubgoals
    · rw [Progress.state, heq]
      rfl
    · rw [Progress.state, heq]
      rfl
  · rw [htry]
    rfl

variable [LT V] [DecidableLT V] (M : Methods G V A) (limits : Limits)

theorem chooseTactic_consulted (step : ℕ) (before : A) (s : State G V A) :
    Consulted M s.gym before s.agent (chooseTactic M step s).1
      (chooseTactic M step s).2.state.agent := by
  unfold chooseTactic
  split
  · exact .unasked
  · rename_i targetGoalId _
    split
    · rename_i agent e hrecommend
      have hrefused : Consulted M s.gym before s.agent none
          (M.recommendTactic s.gym s.agent s.context targetGoalId).1 := by
        refine .refused s.context targetGoalId fun tactic _ => ?_
        rw [hrecommend]
        exact fun heq => nomatch heq
      rw [hrecommend] at hrefused
      exact hrefused
    · rename_i agent tactic hrecommend
      dsimp only
      split_ifs with hnone
      · have hrefused : Consulted M s.gym before s.agent none
            (M.recommendTactic s.gym s.agent s.context targetGoalId).1 := by
          refine .refused s.context targetGoalId fun tactic hne => ?_
          rw [hrecommend]
          rintro ⟨rfl⟩
          exact hne hnone
        rw [hrecommend] at hrefused
        exact hrefused
      · obtain ⟨tactic, rfl⟩ : ∃ t, tactic = some t := by
          cases tactic with
          | none => exact absurd rfl hnone
          | some t => exact ⟨t, rfl⟩
        rw [tryTactic_agent]
        have hgiven : Consulted M s.gym before s.agent
            (some ⟨s.gym, s.context, targetGoalId, tactic⟩)
            (M.recommendTactic s.gym s.agent s.context targetGoalId).1 :=
          .given ⟨s.gym, s.context, targetGoalId, tactic⟩ (by rw [hrecommend])
        rw [hrecommend] at hgiven
        exact hgiven

theorem proofStep_consulted (step : ℕ) (s : State G V A) :
    Consulted M s.gym s.agent (updatePriorities M s).1.agent (proofStep M limits step s).1
      (proofStep M limits step s).2.state.agent := by
  unfold proofStep
  split_ifs
  · exact .early
  · exact .early
  · exact .early
  · obtain ⟨agent, priorities, calls, _, hpriorities⟩ := updatePriorities_cases M s
    rcases hupdate : updatePriorities M s with ⟨s₁, e | _⟩
    · exact .unasked
    · rw [hupdate] at hpriorities
      have hgym : s₁.gym = s.gym := by
        rw [show s₁ = s.prioritised agent priorities calls from hpriorities]
        rfl
      rw [← hgym]
      exact chooseTactic_consulted M step s.agent s₁

end Steps

namespace SimpleIsabelleAgent

/-- What is left of the tactics of a goal among its open subgoals. -/
def remaining (agent : SimpleIsabelleAgent) (goal : List Text × ℕ) : List Text :=
  ((goal.1[goal.2]?.map tactics).getD []).drop (Cursors.position agent.goalTacticCounters goal)

/-- The counter of a goal is a cursor into its tactics, none of which is skipped. -/
theorem recommendTactic_eq_ask (agent : SimpleIsabelleAgent) (context : ProofContext V)
    (targetGoalId : ℕ) {targetSubgoal : Text}
    (h : context.subgoals[targetGoalId]? = some targetSubgoal) :
    agent.recommendTactic context targetGoalId =
      let r := Cursors.ask agent.goalTacticCounters (context.subgoals, targetGoalId)
        (fun _ => false) (tactics targetSubgoal)
      (⟨r.2⟩, r.1) := by
  unfold recommendTactic Cursors.ask
  rw [h]
  dsimp only
  rw [Cursors.next_keep, List.head?_drop]
  cases (tactics targetSubgoal)[Cursors.position agent.goalTacticCounters
    (context.subgoals, targetGoalId)]? <;> rfl

theorem recommendTactic_ne_nil {agent : SimpleIsabelleAgent} {context : ProofContext V}
    {targetGoalId : ℕ} {tactic : Text}
    (h : (agent.recommendTactic context targetGoalId).2 = some tactic) : tactic ≠ [] := by
  have hlists : ∀ targetSubgoal, [] ∉ tactics targetSubgoal := by
    intro targetSubgoal
    unfold tactics
    split_ifs <;> simp [introTactics, eliminationTactics, basicTactics]
  unfold recommendTactic at h
  split at h
  · cases h
  · dsimp only at h
    split at h
    · cases h
    · rename_i hget
      cases h
      rintro rfl
      exact hlists _ (List.mem_of_getElem? hget)

/-- A tactic is the first of those left for its goal, and one is given while any is left. -/
theorem remaining_recommendTactic (agent : SimpleIsabelleAgent) (context : ProofContext V)
    (targetGoalId : ℕ) :
    (agent.recommendTactic context targetGoalId).2.toList ++
        (agent.recommendTactic context targetGoalId).1.remaining (context.subgoals, targetGoalId) =
      agent.remaining (context.subgoals, targetGoalId) := by
  cases h : context.subgoals[targetGoalId]? with
  | none =>
    rw [recommendTactic, h]
    rfl
  | some targetSubgoal =>
    rw [recommendTactic_eq_ask agent context targetGoalId h, remaining, remaining, h]
    exact Cursors.ask_eq_of_keep _ _ _ (tactics targetSubgoal) fun _ => rfl

theorem remaining_recommendTactic_of_ne (agent : SimpleIsabelleAgent) (context : ProofContext V)
    (targetGoalId : ℕ) {goal : List Text × ℕ} (hne : goal ≠ (context.subgoals, targetGoalId)) :
    (agent.recommendTactic context targetGoalId).1.remaining goal = agent.remaining goal := by
  cases h : context.subgoals[targetGoalId]? with
  | none => rw [recommendTactic, h]
  | some targetSubgoal =>
    rw [recommendTactic_eq_ask agent context targetGoalId h, remaining,
      Cursors.position_ask_of_ne _ _ _ _ hne, remaining]

def givenFor (goal : List Text × ℕ) (attempts : List (Attempt G V)) : List Text :=
  (attempts.filter fun a => a.context.subgoals = goal.1 ∧ a.targetGoalId = goal.2).map
    Attempt.tactic

theorem givenFor_append (goal : List Text × ℕ) (a b : List (Attempt G V)) :
    givenFor goal (a ++ b) = givenFor goal a ++ givenFor goal b := by
  rw [givenFor, List.filter_append, List.map_append, givenFor, givenFor]

theorem updatePriorities_agent (s : State G ℚ SimpleIsabelleAgent) :
    (updatePriorities (methods G) s).1.agent = s.agent := by
  unfold updatePriorities
  split_ifs <;> rfl

theorem givenFor_proofStep (limits : Limits) (step : ℕ) (s : State G ℚ SimpleIsabelleAgent)
    (goal : List Text × ℕ) :
    givenFor goal (proofStep (methods G) limits step s).1.toList ++
        (proofStep (methods G) limits step s).2.state.agent.remaining goal =
      s.agent.remaining goal := by
  have hconsulted := proofStep_consulted (methods G) limits step s
  rw [updatePriorities_agent] at hconsulted
  generalize (proofStep (methods G) limits step s).1 = attempt at *
  generalize (proofStep (methods G) limits step s).2.state.agent = agent at *
  cases hconsulted with
  | early => rfl
  | unasked => rfl
  | refused context targetGoalId hrefused =>
    have hnone : (s.agent.recommendTactic context targetGoalId).2 = none := by
      cases htactic : (s.agent.recommendTactic context targetGoalId).2 with
      | none => rfl
      | some tactic =>
        exact absurd (congrArg Except.ok htactic)
          (hrefused tactic (recommendTactic_ne_nil htactic))
    by_cases hgoal : goal = (context.subgoals, targetGoalId)
    · subst hgoal
      have hleft := s.agent.remaining_recommendTactic context targetGoalId
      rw [hnone] at hleft
      exact hleft
    · exact s.agent.remaining_recommendTactic_of_ne context targetGoalId hgoal
  | given a hgiven =>
    have htactic : (s.agent.recommendTactic a.context a.targetGoalId).2 = some a.tactic :=
      Except.ok.inj hgiven
    by_cases hgoal : goal = (a.context.subgoals, a.targetGoalId)
    · subst hgoal
      have hleft := s.agent.remaining_recommendTactic a.context a.targetGoalId
      rw [htactic] at hleft
      rw [Option.toList_some, givenFor, List.filter_cons_of_pos (by simp)]
      exact hleft
    · have hother : ¬(a.context.subgoals = goal.1 ∧ a.targetGoalId = goal.2) := by
        rintro ⟨hfst, hsnd⟩
        exact hgoal (Prod.ext hfst.symm hsnd.symm)
      rw [Option.toList_some, givenFor, List.filter_cons_of_neg (by simpa using hother)]
      exact s.agent.remaining_recommendTactic_of_ne a.context a.targetGoalId hgoal

theorem givenFor_proofLoop (limits : Limits) (n step : ℕ) (s : State G ℚ SimpleIsabelleAgent)
    (goal : List Text × ℕ) :
    givenFor goal (proofLoop (methods G) limits n step s).1 ++
        (proofLoop (methods G) limits n step s).2.1.agent.remaining goal =
      s.agent.remaining goal := by
  induction n generalizing step s with
  | zero => rfl
  | succ n ih =>
    have hstep := givenFor_proofStep limits step s goal
    rw [proofLoop]
    split
    · rename_i heq
      rw [heq] at hstep
      exact hstep
    · rename_i attempt s' heq
      rw [heq] at hstep
      dsimp only
      rw [givenFor_append, List.append_assoc, ih (step + 1) s']
      exact hstep

theorem givenFor_proveTheorem (limits : Limits) (theoremStatement : Text) (gym : G.State)
    (agent : SimpleIsabelleAgent) (counters : Counters) (goal : List Text × ℕ) :
    givenFor goal (proveTheorem (methods G) limits theoremStatement gym agent counters).attempts ++
        (proveTheorem (methods G) limits theoremStatement gym agent counters).agent.remaining
          goal =
      agent.remaining goal := by
  unfold proveTheorem
  dsimp only
  split
  · rfl
  · split_ifs
    · split
      · rfl
      · split_ifs
        · rfl
        · exact givenFor_proofLoop ..
    · rfl

/-- Over all calls of an agent, whatever their statements, limits and gyms, the tactics given to
the gym for a goal are, in order and without a gap, the first of those left for it before. -/
theorem givenFor_proveAll (agent : SimpleIsabelleAgent) (counters : Counters)
    (calls : List (Call G)) (goal : List Text × ℕ) :
    givenFor goal ((proveAll (methods G) agent counters calls).1.flatMap Run.attempts) ++
        (proveAll (methods G) agent counters calls).2.1.remaining goal =
      agent.remaining goal := by
  induction calls generalizing agent counters with
  | nil => rfl
  | cons call calls ih =>
    rw [proveAll, List.flatMap_cons, givenFor_append, List.append_assoc]
    exact (congrArg _ (ih _ _)).trans (givenFor_proveTheorem ..)

end SimpleIsabelleAgent

end LinearAgent
end IsabelleGym
