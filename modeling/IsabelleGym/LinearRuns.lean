import IsabelleGym.LinearAgent
import IsabelleGym.MctsDocument

/-!
# Runs of the linear proving agent

A step that goes on has given one tactic to the gym and recorded it. What the
counters, the context and the document say of a run follows from that, and so
does what the result of a run reports.
-/

namespace IsabelleGym
namespace LinearAgent

open Mcts List

variable {G : Gym} {V A : Type}

def State.given (s : State G V A) (gym : G.State) (agent : A) (priorities : List V) (calls : ℕ)
    (entry : Text) : State G V A where
  gym := gym
  agent := agent
  counters := { s.counters with
    sessionPriorityCalls := s.counters.sessionPriorityCalls + calls
    sessionTacticHistory := s.counters.sessionTacticHistory ++ [entry] }
  context := { s.context with priorities }

section Steps

variable [One V]

structure Tried (s : State G V A) (attempt : Attempt G V) (s' : State G V A) : Prop where
  gym : attempt.gym = s.gym
  subgoals : attempt.context.subgoals = s.context.subgoals
  answered : ∃ gym tacticResult gym' afterSubgoals agent priorities calls entry,
    G.step attempt.tactic s.gym = (gym, .ok tacticResult) ∧
    G.openSubgoals gym = (gym', .ok afterSubgoals) ∧ calls ≤ 1 ∧
    s' = (s.given gym' agent priorities calls entry).recordTactic attempt.tactic
      (isSyntaxSuccessful tacticResult) afterSubgoals

/-- How a call ends: with a success for a complete context, or with a failure that reports no
more than the context has recorded. -/
inductive Ended (step : ℕ) (s s' : State G V A) : ProofResult → Prop
  | proved : s.context.isComplete = true →
    s' = { s with counters := { s.counters with
      totalProofsSucceeded := s.counters.totalProofsSucceeded + 1 } } →
    Ended step s s' (createSuccessResult s'.counters step s.context)
  | failed {result : ProofResult} : result.success = false →
    result.tacticAttempts ≤ s.context.attemptedTactics.length →
    result.successfulTactics ≤ s.context.successfulTactics.length →
    s'.counters.totalProofsAttempted = s.counters.totalProofsAttempted →
    s'.counters.totalProofsSucceeded = s.counters.totalProofsSucceeded →
    s'.counters.totalTacticsTried = s.counters.totalTacticsTried →
    s'.counters.totalTacticsSucceeded = s.counters.totalTacticsSucceeded →
    Ended step s s' result

variable {M : Methods G V A} {limits : Limits} {step : ℕ} {s s' : State G V A}
  {attempt : Option (Attempt G V)} {result : ProofResult}

omit [One V] in
theorem Ended.unexpected {gym : G.State} {agent : A} {priorities : List V} {calls : ℕ}
    {history : List Text} {e : Text} :
    Ended step s
      { gym, agent
        counters := { s.counters with
          sessionPriorityCalls := calls
          sessionTacticHistory := history }
        context := { s.context with priorities } }
      (unexpectedError { s.counters with
        sessionPriorityCalls := calls
        sessionTacticHistory := history } e) :=
  .failed rfl (Nat.zero_le _) (Nat.zero_le _) rfl rfl rfl rfl

theorem tryTactic_cases (s : State G V A) (targetGoalId : ℕ) (tactic : Text) :
    (∃ gym tacticResult gym' afterSubgoals, G.step tactic s.gym = (gym, .ok tacticResult) ∧
      G.openSubgoals gym = (gym', .ok afterSubgoals) ∧
      tryTactic s targetGoalId tactic = .continues
        ((s.given gym' s.agent s.context.priorities 0
          (("Goal " ++ toString targetGoalId ++ ": ").toList ++ tactic)).recordTactic tactic
            (isSyntaxSuccessful tacticResult) afterSubgoals)) ∨
      ∃ gym history e,
        let counters := { s.counters with sessionTacticHistory := history }
        tryTactic s targetGoalId tactic =
          .ends { s with gym, counters } (unexpectedError counters e) := by
  unfold tryTactic
  rcases hstep : G.step tactic s.gym with ⟨gym, e | tacticResult⟩
  · right
    dsimp only
    rw [hstep]
    exact ⟨_, _, _, rfl⟩
  · rcases hopen : G.openSubgoals gym with ⟨gym', e | afterSubgoals⟩
    · right
      dsimp only
      rw [hstep]
      dsimp only
      rw [hopen]
      exact ⟨_, _, _, rfl⟩
    · left
      refine ⟨gym, tacticResult, gym', afterSubgoals, rfl, hopen, ?_⟩
      dsimp only
      rw [hstep]
      dsimp only
      rw [hopen]
      rfl

def State.prioritised (s : State G V A) (agent : A) (priorities : List V) (calls : ℕ) :
    State G V A :=
  { s with
    agent
    counters := { s.counters with
      sessionPriorityCalls := s.counters.sessionPriorityCalls + calls }
    context := { s.context with priorities } }

omit [One V] in
theorem updatePriorities_cases (M : Methods G V A) (s : State G V A) :
    ∃ agent priorities calls, calls ≤ 1 ∧
      (updatePriorities M s).1 = s.prioritised agent priorities calls := by
  unfold updatePriorities
  split_ifs
  · split
    · rename_i agent _ _
      exact ⟨agent, s.context.priorities, 0, Nat.zero_le 1, rfl⟩
    · rename_i agent priorities _
      exact ⟨agent, priorities, 1, le_rfl, rfl⟩
  · exact ⟨s.agent, s.context.priorities, 0, Nat.zero_le 1, rfl⟩

variable [LT V] [DecidableLT V]

/-- A step that goes on has tried a tactic for an open context within the depth. -/
theorem proofStep_continues (h : proofStep M limits step s = (attempt, .continues s')) :
    s.context.isComplete = false ∧ (s.context.proofDepth : ℤ) < limits.maxDepth ∧
      ∃ a, attempt = some a ∧ Tried s a s' := by
  unfold proofStep at h
  split_ifs at h with htime hcomplete hdepth
  · cases h
  · cases h
  · cases h
  · obtain ⟨agent, priorities, calls, hcalls, hpriorities⟩ := updatePriorities_cases M s
    refine ⟨by simpa using hcomplete, Int.not_le.mp hdepth, ?_⟩
    split at h
    · cases h
    · rename_i s₁ hupdate
      rw [hupdate] at hpriorities
      obtain rfl : s₁ = s.prioritised agent priorities calls := hpriorities
      unfold chooseTactic at h
      split at h
      · cases h
      · split at h
        · cases h
        · rename_i targetGoalId _ _ agent' tactic hrecommend
          dsimp only at h
          split_ifs at h with hnone
          · cases h
          · obtain ⟨gym, tacticResult, gym', afterSubgoals, hstep, hopen, htry⟩ | ⟨_, _, _, htry⟩ :=
              tryTactic_cases { s.prioritised agent priorities calls with agent := agent' }
                targetGoalId (tactic.getD [])
            · rw [htry] at h
              cases h
              exact ⟨_, rfl, rfl, rfl, gym, tacticResult, gym', afterSubgoals, agent',
                priorities, calls, _, hstep, hopen, hcalls, rfl⟩
            · rw [htry] at h
              cases h

theorem proofStep_ends (h : proofStep M limits step s = (attempt, .ends s' result)) :
    Ended step s s' result := by
  unfold proofStep at h
  split_ifs at h with htime hcomplete hdepth
  · cases h
    exact .failed rfl le_rfl le_rfl rfl rfl rfl rfl
  · cases h
    exact .proved hcomplete rfl
  · cases h
    exact .failed rfl (Nat.zero_le _) (Nat.zero_le _) rfl rfl rfl rfl
  · obtain ⟨agent, priorities, calls, hcalls, hpriorities⟩ := updatePriorities_cases M s
    split at h
    · rename_i s₁ e hupdate
      rw [hupdate] at hpriorities
      obtain rfl : s₁ = s.prioritised agent priorities calls := hpriorities
      cases h
      exact .unexpected
    · rename_i s₁ hupdate
      rw [hupdate] at hpriorities
      obtain rfl : s₁ = s.prioritised agent priorities calls := hpriorities
      unfold chooseTactic at h
      split at h
      · cases h
        exact .failed rfl (Nat.zero_le _) (Nat.zero_le _) rfl rfl rfl rfl
      · split at h
        · cases h
          exact .unexpected
        · rename_i targetGoalId _ _ agent' tactic hrecommend
          dsimp only at h
          split_ifs at h with hnone
          · cases h
            exact .failed rfl (Nat.zero_le _) (Nat.zero_le _) rfl rfl rfl rfl
          · obtain ⟨_, _, _, _, _, _, htry⟩ | ⟨gym, history, e, htry⟩ :=
              tryTactic_cases { s.prioritised agent priorities calls with agent := agent' }
                targetGoalId (tactic.getD [])
            · rw [htry] at h
              cases h
            · rw [htry] at h
              cases h
              exact .unexpected

end Steps

structure Counted (start : Counters) (n : ℕ) (s : State G V A) : Prop where
  attempted : s.context.attemptedTactics.length = n
  successful : s.context.successfulTactics.length = s.context.proofDepth
  sublist : s.context.successfulTactics <+ s.context.attemptedTactics
  solved : s.context.solved = List.replicate s.context.subgoals.length false
  stepCount : s.counters.sessionStepCount = n
  history : s.counters.sessionTacticHistory.length = n + s.context.proofDepth
  priorityCalls : s.counters.sessionPriorityCalls ≤ n
  proofsAttempted : s.counters.totalProofsAttempted = start.totalProofsAttempted
  proofsSucceeded : s.counters.totalProofsSucceeded = start.totalProofsSucceeded
  tried : s.counters.totalTacticsTried = start.totalTacticsTried + n
  succeeded :
    s.counters.totalTacticsSucceeded = start.totalTacticsSucceeded + s.context.proofDepth

/-- The gym accepts the tactic of the attempt, and has no open subgoals then. -/
def Attempt.Proves (a : Attempt G V) (gym : G.State) : Prop :=
  ∃ tacticResult, (G.step a.tactic a.gym).2 = .ok tacticResult ∧
    isSyntaxSuccessful tacticResult = true ∧
    G.openSubgoals (G.step a.tactic a.gym).1 = (gym, .ok [])

/-- The context against the document and the last attempt, in a call that started with some
texts. -/
structure Reached (limits : Limits) (texts : List Text) (theoremStatement : Text)
    (previous : Option (Attempt G V)) (s : State G V A) : Prop where
  depth : s.context.proofDepth = 0 ∨ (s.context.proofDepth : ℤ) ≤ limits.maxDepth
  start : s.context.proofDepth = 0 → s.context.subgoals ≠ []
  proves : s.context.subgoals = [] → ∃ a, previous = some a ∧ a.Proves s.gym
  document : ∃ added, G.texts s.gym = texts ++ theoremStatement :: added ∧
    s.context.successfulTactics <+ added

section Invariants

variable {start : Counters} {limits : Limits} {texts : List Text} {theoremStatement : Text}
  {n : ℕ} {s s' : State G V A} {a : Attempt G V}

theorem Counted.isComplete_iff (h : Counted start n s) :
    s.context.isComplete = true ↔ s.context.subgoals = [] := by
  rw [ProofContext.isComplete, h.solved]
  cases s.context.subgoals with
  | nil => simp
  | cons _ _ => simp [List.replicate_succ]

variable [One V]

/-- A recorded tactic either succeeds, with the subgoals behind it, or leaves all but the
attempts. -/
theorem recordTactic_cases (s : State G V A) (tactic : Text) (syntaxSuccess : Bool)
    (afterSubgoals : List Text) :
    (syntaxSuccess = true ∧
      s.recordTactic tactic syntaxSuccess afterSubgoals =
        { s with
          counters := { s.counters with
            totalTacticsTried := s.counters.totalTacticsTried + 1
            sessionStepCount := s.counters.sessionStepCount + 1
            totalTacticsSucceeded := s.counters.totalTacticsSucceeded + 1
            sessionTacticHistory := s.counters.sessionTacticHistory ++ [tactic] }
          context := { (s.context.recordTacticAttempt tactic true).updateSubgoals
            afterSubgoals with proofDepth := s.context.proofDepth + 1 } }) ∨
      s.recordTactic tactic syntaxSuccess afterSubgoals =
        { s with
          counters := { s.counters with
            totalTacticsTried := s.counters.totalTacticsTried + 1
            sessionStepCount := s.counters.sessionStepCount + 1 }
          context := s.context.recordTacticAttempt tactic false } := by
  unfold State.recordTactic
  dsimp only
  split_ifs with hsuccess
  · left
    refine ⟨(Bool.and_eq_true _ _ ▸ hsuccess).1, ?_⟩
    rw [hsuccess]
    rfl
  · right
    rw [Bool.eq_false_iff.mpr hsuccess]

theorem Tried.attempted (h : Tried s a s') :
    s'.context.attemptedTactics = s.context.attemptedTactics ++ [a.tactic] := by
  obtain ⟨_, _, gym, tacticResult, gym', afterSubgoals, agent, priorities, calls, entry, _, _,
    _, rfl⟩ := h
  obtain ⟨_, heq⟩ | heq := recordTactic_cases (s.given gym' agent priorities calls entry) a.tactic
    (isSyntaxSuccessful tacticResult) afterSubgoals
  · rw [heq]
    rfl
  · rw [heq]
    rfl

theorem Tried.counted (h : Tried s a s') (hs : Counted start n s) : Counted start (n + 1) s' := by
  obtain ⟨_, _, gym, tacticResult, gym', afterSubgoals, agent, priorities, calls, entry, _, _,
    hcalls, rfl⟩ := h
  obtain ⟨_, heq⟩ | heq := recordTactic_cases (s.given gym' agent priorities calls entry) a.tactic
    (isSyntaxSuccessful tacticResult) afterSubgoals
  · rw [heq]
    constructor
    · simp [State.given, ProofContext.recordTacticAttempt, ProofContext.updateSubgoals,
        hs.attempted]
    · simp [State.given, ProofContext.recordTacticAttempt, ProofContext.updateSubgoals,
        hs.successful]
    · exact hs.sublist.append_right [a.tactic]
    · rfl
    · exact congrArg (· + 1) hs.stepCount
    · simp [State.given, hs.history]
      omega
    · exact Nat.add_le_add hs.priorityCalls hcalls
    · exact hs.proofsAttempted
    · exact hs.proofsSucceeded
    · exact congrArg (· + 1) hs.tried
    · exact congrArg (· + 1) hs.succeeded
  · rw [heq]
    constructor
    · simp [State.given, ProofContext.recordTacticAttempt, hs.attempted]
    · exact hs.successful
    · exact hs.sublist.trans (List.sublist_append_left _ _)
    · exact hs.solved
    · exact congrArg (· + 1) hs.stepCount
    · simp [State.given, hs.history, ProofContext.recordTacticAttempt]
      omega
    · exact Nat.add_le_add hs.priorityCalls hcalls
    · exact hs.proofsAttempted
    · exact hs.proofsSucceeded
    · exact congrArg (· + 1) hs.tried
    · exact hs.succeeded

/-- The texts of the gym go on behind a tactic that is tried, with the tactic if it was
accepted. -/
theorem texts_try {gym₀ gym gym' : G.State} {tactic : Text} {tacticResult : StepResult}
    {afterSubgoals : List Text} (hstep : G.step tactic gym₀ = (gym, .ok tacticResult))
    (hopen : G.openSubgoals gym = (gym', .ok afterSubgoals)) :
    ∃ added, G.texts gym' = G.texts gym₀ ++ added ∧
      (isSyntaxSuccessful tacticResult = true → [tactic] <+ added) := by
  obtain ⟨own, hown⟩ := G.texts_openSubgoals gym
  rw [hopen] at hown
  by_cases haccepted : isSyntaxSuccessful tacticResult = true
  · have htexts := G.texts_accepted tactic gym₀ tacticResult (by rw [hstep]) haccepted
    rw [hstep] at htexts
    refine ⟨tactic :: own, ?_, fun _ => List.sublist_append_left [tactic] own⟩
    rw [← hown, htexts, List.append_assoc]
    rfl
  · obtain htexts | htexts := G.texts_step tactic gym₀
    · rw [hstep] at htexts
      exact ⟨own, by rw [← hown, htexts], fun h => absurd h haccepted⟩
    · rw [hstep] at htexts
      refine ⟨tactic :: own, ?_, fun h => absurd h haccepted⟩
      rw [← hown, htexts, List.append_assoc]
      rfl

theorem Tried.reached {previous : Option (Attempt G V)} (h : Tried s a s')
    (hs : Reached limits texts theoremStatement previous s)
    (hopen : s.context.subgoals ≠ []) (hdepth : (s.context.proofDepth : ℤ) < limits.maxDepth) :
    Reached limits texts theoremStatement (some a) s' := by
  obtain ⟨hgym, _, gym, tacticResult, gym', afterSubgoals, agent, priorities, calls, entry, hstep,
    hsubgoals, _, rfl⟩ := h
  obtain ⟨added, hadded, hsublist⟩ := hs.document
  obtain ⟨more, hmore, haccepted⟩ := texts_try hstep hsubgoals
  have htexts : G.texts gym' = texts ++ theoremStatement :: (added ++ more) := by
    rw [hmore, hadded, List.append_assoc]
    rfl
  obtain ⟨hsuccess, heq⟩ | heq := recordTactic_cases (s.given gym' agent priorities calls entry)
    a.tactic (isSyntaxSuccessful tacticResult) afterSubgoals
  · rw [heq]
    constructor
    · exact Or.inr (Int.add_one_le_of_lt hdepth)
    · exact fun hzero => absurd hzero (Nat.succ_ne_zero _)
    · rintro rfl
      refine ⟨a, rfl, tacticResult, ?_, hsuccess, ?_⟩
      · rw [hgym, hstep]
      · rw [hgym, hstep]
        exact hsubgoals
    · exact ⟨added ++ more, htexts, hsublist.append (haccepted hsuccess)⟩
  · rw [heq]
    constructor
    · exact hs.depth
    · exact hs.start
    · exact fun hnil => absurd hnil hopen
    · exact ⟨added ++ more, htexts, hsublist.trans (List.sublist_append_left _ _)⟩

end Invariants

section Loop

variable [One V] [LT V] [DecidableLT V]
variable {M : Methods G V A} {limits : Limits} {start : Counters} {texts : List Text}
  {theoremStatement : Text}

theorem proofStep_proved {step : ℕ} {s s' : State G V A} {attempt : Option (Attempt G V)}
    {result : ProofResult} (h : proofStep M limits step s = (attempt, .ends s' result))
    (hsuccess : result.success = true) : attempt = none := by
  unfold proofStep chooseTactic at h
  split_ifs at h
  · exact (congrArg Prod.fst h).symm
  · exact (congrArg Prod.fst h).symm
  · exact (congrArg Prod.fst h).symm
  · split at h
    · exact (congrArg Prod.fst h).symm
    · rename_i s₁ _
      split at h
      · exact (congrArg Prod.fst h).symm
      · split at h
        · exact (congrArg Prod.fst h).symm
        · rename_i targetGoalId _ _ agent tactic _
          dsimp only at h
          split_ifs at h
          · exact (congrArg Prod.fst h).symm
          · obtain ⟨_, _, _, _, _, _, htry⟩ | ⟨_, _, _, htry⟩ :=
              tryTactic_cases { s₁ with agent } targetGoalId (tactic.getD [])
            · rw [htry] at h
              cases h
            · rw [htry] at h
              cases h
              cases hsuccess

structure LoopEnded (limits : Limits) (start : Counters) (texts : List Text)
    (theoremStatement : Text) (first n : ℕ) (before : List Text)
    (previous : Option (Attempt G V)) (attempts : List (Attempt G V)) (s' : State G V A)
    (result : ProofResult) (last : ℕ) (s : State G V A) : Prop where
  counted : Counted start last s
  ended : Ended last s s' result
  within : attempts.length ≤ n
  tried : last ≤ first + attempts.length
  proved : result.success = true → last = first + attempts.length ∧ last < first + n ∧
    s.context.attemptedTactics = before ++ attempts.map Attempt.tactic ∧
    Reached limits texts theoremStatement (attempts.getLast?.or previous) s

theorem proofLoop_ended (n step : ℕ) {s : State G V A} {previous : Option (Attempt G V)}
    (hcounted : Counted start step s)
    (hreached : Reached limits texts theoremStatement previous s) :
    ∃ last s₁, LoopEnded limits start texts theoremStatement step n s.context.attemptedTactics
      previous (proofLoop M limits n step s).1 (proofLoop M limits n step s).2.1
      (proofLoop M limits n step s).2.2 last s₁ := by
  induction n generalizing step s previous with
  | zero =>
    have hended : Ended step s s (createFailureResult s.counters
        ("Maximum steps " ++ toString limits.maxSteps ++ " reached").toList limits.maxSteps
        s.context.proofDepth) := .failed rfl (Nat.zero_le _) (Nat.zero_le _) rfl rfl rfl rfl
    exact ⟨step, s, hcounted, hended, le_rfl, le_rfl, fun hsuccess => by cases hsuccess⟩
  | succ n ih =>
    rw [proofLoop]
    split
    · rename_i attempt s' result hstep
      refine ⟨step, s, hcounted, proofStep_ends hstep, ?_, Nat.le_add_right _ _, ?_⟩
      · cases attempt with
        | none => exact Nat.zero_le _
        | some _ => exact Nat.succ_le_succ (Nat.zero_le n)
      · intro hsuccess
        rw [proofStep_proved hstep hsuccess]
        exact ⟨rfl, Nat.lt_add_of_pos_right (Nat.succ_pos n), (List.append_nil _).symm, hreached⟩
    · rename_i attempt s' hstep
      obtain ⟨hopen, hdepth, a, rfl, htried⟩ := proofStep_continues hstep
      have hsubgoals : s.context.subgoals ≠ [] := by
        intro hnil
        rw [hcounted.isComplete_iff.mpr hnil] at hopen
        cases hopen
      obtain ⟨last, s₁, hlast⟩ := ih (step + 1) (htried.counted hcounted)
        (htried.reached hreached hsubgoals hdepth)
      refine ⟨last, s₁, hlast.counted, hlast.ended, ?_, ?_, ?_⟩
      · have hwithin := hlast.within
        simp only [Option.toList_some, List.singleton_append, List.length_cons]
        omega
      · have hbound := hlast.tried
        simp only [Option.toList_some, List.singleton_append, List.length_cons]
        omega
      · intro hsuccess
        obtain ⟨heq, hlt, htactics, hproved⟩ := hlast.proved hsuccess
        simp only [Option.toList_some, List.singleton_append, List.length_cons]
        refine ⟨by omega, by omega, ?_, ?_⟩
        · rw [htactics, htried.attempted, List.append_assoc]
          rfl
        · simpa [List.getLast?_cons, Option.or_some] using hproved

end Loop

def Counters.started (c : Counters) : Counters :=
  { c.resetSession with totalProofsAttempted := c.totalProofsAttempted + 1 }

section Runs

variable [One V] [LT V] [DecidableLT V]
variable (M : Methods G V A) (limits : Limits) (theoremStatement : Text) (gym : G.State)
  (agent : A) (counters : Counters)

omit [LT V] [DecidableLT V] in
theorem start_counted (subgoals : List Text) :
    Counted counters.started 0
      { gym, agent, counters := counters.started
        context := (ProofContext.make subgoals theoremStatement : ProofContext V) : State G V A } :=
  ⟨rfl, rfl, List.Sublist.refl _, rfl, rfl, rfl, le_rfl, rfl, rfl, rfl, rfl⟩

/-- A call that starts no proof has tried nothing. -/
structure NotStarted (r : Run G V A) : Prop where
  attempts : r.attempts = []
  counters : r.counters = counters.started
  success : r.result.success = false
  tacticAttempts : r.result.tacticAttempts = 0
  successfulTactics : r.result.successfulTactics = 0

theorem proveTheorem_cases :
    NotStarted counters (proveTheorem M limits theoremStatement gym agent counters) ∨
      ∃ (last : ℕ) (s s' : State G V A),
        (proveTheorem M limits theoremStatement gym agent counters).counters = s'.counters ∧
        (proveTheorem M limits theoremStatement gym agent counters).gym = s'.gym ∧
        LoopEnded limits counters.started (G.texts gym) theoremStatement 0 limits.maxSteps.toNat []
          none (proveTheorem M limits theoremStatement gym agent counters).attempts s'
          (proveTheorem M limits theoremStatement gym agent counters).result last s := by
  unfold proveTheorem
  dsimp only
  split
  · exact Or.inl ⟨rfl, rfl, rfl, rfl, rfl⟩
  · rename_i gym₁ initialResult hstep
    split_ifs with haccepted
    · split
      · exact Or.inl ⟨rfl, rfl, rfl, rfl, rfl⟩
      · rename_i gym₂ initialSubgoals hopen
        split_ifs with hempty
        · exact Or.inl ⟨rfl, rfl, rfl, rfl, rfl⟩
        · right
          obtain ⟨own, hown, _⟩ := texts_try hstep hopen
          have htexts := G.texts_accepted theoremStatement gym initialResult (by rw [hstep])
            haccepted
          rw [hstep] at htexts
          obtain ⟨more, hmore⟩ := G.texts_openSubgoals gym₁
          rw [hopen, htexts] at hmore
          have hsubgoals : initialSubgoals ≠ [] := by simpa using hempty
          have hreached : Reached limits (G.texts gym) theoremStatement none
              { gym := gym₂, agent, counters := counters.started
                context := (ProofContext.make initialSubgoals theoremStatement :
                  ProofContext V) : State G V A } := by
            constructor
            · exact Or.inl rfl
            · exact fun _ => hsubgoals
            · exact fun hnil => absurd hnil hsubgoals
            · refine ⟨more, ?_, List.nil_sublist _⟩
              rw [← hmore, List.append_assoc]
              rfl
          obtain ⟨last, s, hlast⟩ := proofLoop_ended (M := M) limits.maxSteps.toNat 0
            (start_counted theoremStatement gym₂ agent counters initialSubgoals) hreached
          exact ⟨last, s, _, rfl, rfl, hlast⟩
    · exact Or.inl ⟨rfl, rfl, rfl, rfl, rfl⟩

/-- What a success reports of the run, and what it says of the gym. -/
structure Run.Proved (r : Run G V A) : Prop where
  steps : r.result.proofSteps = r.attempts.length
  attempts : r.result.tacticAttempts = r.attempts.length
  within : (r.attempts.length : ℤ) < limits.maxSteps
  length : r.result.finalProofLength = r.result.successfulTactics
  positive : 0 < r.result.finalProofLength
  depth : (r.result.finalProofLength : ℤ) ≤ limits.maxDepth
  failed : r.result.failedTactics = r.attempts.length - r.result.finalProofLength
  history :
    r.result.tacticRecommendations.length = r.attempts.length + r.result.finalProofLength
  guidance : r.result.guidanceCalls ≤ r.attempts.length
  proves : ∃ a, r.attempts.getLast? = some a ∧ a.Proves r.gym
  script : ∃ script added, script.length = r.result.finalProofLength ∧
    script <+ r.attempts.map Attempt.tactic ∧ script <+ added ∧
    G.texts r.gym = G.texts gym ++ theoremStatement :: added

variable {M limits theoremStatement gym agent counters}

/-- A success is reported behind an accepted tactic that leaves no open subgoals, with a script
of tried tactics that is in the document behind the statement. -/
theorem proveTheorem_proved
    (h : (proveTheorem M limits theoremStatement gym agent counters).result.success = true) :
    (proveTheorem M limits theoremStatement gym agent counters).Proved limits theoremStatement
      gym := by
  obtain hnone | ⟨last, s, s', hcounters, hgym, hended⟩ :=
    proveTheorem_cases M limits theoremStatement gym agent counters
  · rw [hnone.success] at h
    cases h
  · obtain ⟨hlast, hwithin, htactics, hreached⟩ := hended.proved h
    rw [Option.or_none] at hreached
    have hcounted := hended.counted
    have hends := hended.ended
    generalize proveTheorem M limits theoremStatement gym agent counters = r at *
    obtain ⟨attempts, gym', agent', counters', result⟩ := r
    dsimp only at *
    cases hends with
    | failed hfalse _ _ _ _ _ _ =>
      rw [hfalse] at h
      cases h
    | proved hcomplete heq =>
      subst heq hgym
      have hlast : last = attempts.length := by omega
      have hnil := hcounted.isComplete_iff.mp hcomplete
      have hpositive : 0 < s.context.proofDepth :=
        Nat.pos_of_ne_zero fun hzero => hreached.start hzero hnil
      obtain ⟨added, hadded, hscript⟩ := hreached.document
      constructor
      · exact congrArg Nat.cast hlast
      · exact hcounted.attempted.trans hlast
      · show (attempts.length : ℤ) < limits.maxSteps
        omega
      · exact hcounted.successful.symm
      · exact hpositive
      · exact hreached.depth.resolve_left hpositive.ne'
      · show (s.context.attemptedTactics.length : ℤ) - s.context.successfulTactics.length =
          attempts.length - s.context.proofDepth
        rw [hcounted.attempted, hcounted.successful, hlast]
      · exact hcounted.history.trans (by rw [hlast]; rfl)
      · exact hcounted.priorityCalls.trans hlast.le
      · exact hreached.proves hnil
      · refine ⟨s.context.successfulTactics, added, hcounted.successful, ?_, hscript, hadded⟩
        show s.context.successfulTactics <+ attempts.map Attempt.tactic
        rw [List.nil_append] at htactics
        rw [← htactics]
        exact hcounted.sublist

end Runs

/-- A rejected tactic and one that closes the goal. -/
theorem proved_rev :
    (proveTheorem (SimpleIsabelleAgent.methods revGym) {} "lemma \"rev (rev xs) = xs\"".toList []
      {} {}).Proved {} "lemma \"rev (rev xs) = xs\"".toList [] ∧
    (proveTheorem (SimpleIsabelleAgent.methods revGym) {} "lemma \"rev (rev xs) = xs\"".toList []
      {} {}).attempts.length = 2 :=
  ⟨proveTheorem_proved (by decide +kernel), by decide +kernel⟩

structure Totals (before : Counters) (runs : List (Run G V A)) (after : Counters) : Prop where
  attempted : after.totalProofsAttempted = before.totalProofsAttempted + runs.length
  succeeded : after.totalProofsSucceeded =
    before.totalProofsSucceeded + runs.countP fun r => r.result.success
  reported : before.totalTacticsTried + (runs.map fun r => r.result.tacticAttempts).sum ≤
    after.totalTacticsTried
  given : after.totalTacticsTried ≤
    before.totalTacticsTried + (runs.map fun r => r.attempts.length).sum
  reportedSuccesses : before.totalTacticsSucceeded +
    (runs.map fun r => r.result.successfulTactics).sum ≤ after.totalTacticsSucceeded
  successes : after.totalTacticsSucceeded + before.totalTacticsTried ≤
    after.totalTacticsTried + before.totalTacticsSucceeded

theorem Totals.refl (c : Counters) : Totals c ([] : List (Run G V A)) c :=
  ⟨rfl, rfl, le_rfl, le_rfl, le_rfl, (Nat.add_comm _ _).le⟩

theorem Totals.single {before after : Counters} {r : Run G V A}
    (hattempted : after.totalProofsAttempted = before.totalProofsAttempted + 1)
    (hsucceeded : after.totalProofsSucceeded =
      before.totalProofsSucceeded + if r.result.success then 1 else 0)
    (hreported : before.totalTacticsTried + r.result.tacticAttempts ≤ after.totalTacticsTried)
    (hgiven : after.totalTacticsTried ≤ before.totalTacticsTried + r.attempts.length)
    (hreportedSuccesses :
      before.totalTacticsSucceeded + r.result.successfulTactics ≤ after.totalTacticsSucceeded)
    (hsuccesses : after.totalTacticsSucceeded + before.totalTacticsTried ≤
      after.totalTacticsTried + before.totalTacticsSucceeded) :
    Totals before [r] after := by
  refine ⟨hattempted, ?_, ?_, ?_, ?_, hsuccesses⟩
  · rw [List.countP_singleton]
    exact hsucceeded
  · rw [List.map_singleton, List.sum_singleton]
    exact hreported
  · rw [List.map_singleton, List.sum_singleton]
    exact hgiven
  · rw [List.map_singleton, List.sum_singleton]
    exact hreportedSuccesses

theorem Totals.cons {before between after : Counters} {r : Run G V A} {runs : List (Run G V A)}
    (hr : Totals before [r] between) (hruns : Totals between runs after) :
    Totals before (r :: runs) after := by
  obtain ⟨hattempted, hsucceeded, hreported, hgiven, hreportedSuccesses, hsuccesses⟩ := hr
  obtain ⟨hattempted', hsucceeded', hreported', hgiven', hreportedSuccesses', hsuccesses'⟩ := hruns
  simp only [List.countP_cons, List.countP_nil, List.map_cons, List.map_nil, List.sum_cons,
    List.sum_nil, List.length_cons, List.length_nil] at *
  refine ⟨?_, ?_, ?_, ?_, ?_, by omega⟩
  · rw [List.length_cons]
    omega
  · rw [List.countP_cons]
    omega
  · rw [List.map_cons, List.sum_cons]
    omega
  · rw [List.map_cons, List.sum_cons]
    omega
  · rw [List.map_cons, List.sum_cons]
    omega

section Totals

variable [One V] [LT V] [DecidableLT V] (M : Methods G V A)

theorem proveTheorem_totals (limits : Limits) (theoremStatement : Text) (gym : G.State)
    (agent : A) (counters : Counters) :
    Totals counters [proveTheorem M limits theoremStatement gym agent counters]
      (proveTheorem M limits theoremStatement gym agent counters).counters := by
  obtain hnone | ⟨last, s, s', hcounters, _, hended⟩ :=
    proveTheorem_cases M limits theoremStatement gym agent counters
  · apply Totals.single <;> rw [hnone.counters]
    · rfl
    · rw [hnone.success]
      rfl
    · rw [hnone.tacticAttempts]
      rfl
    · rw [hnone.attempts]
      rfl
    · rw [hnone.successfulTactics]
      rfl
    · exact (Nat.add_comm _ _).le
  · have hcounted := hended.counted
    have hends := hended.ended
    have htried := hended.tried
    generalize proveTheorem M limits theoremStatement gym agent counters = r at *
    obtain ⟨attempts, gym', agent', counters', result⟩ := r
    dsimp only at *
    have hstarted : counters.started.totalProofsAttempted = counters.totalProofsAttempted + 1 ∧
        counters.started.totalProofsSucceeded = counters.totalProofsSucceeded ∧
        counters.started.totalTacticsTried = counters.totalTacticsTried ∧
        counters.started.totalTacticsSucceeded = counters.totalTacticsSucceeded :=
      ⟨rfl, rfl, rfl, rfl⟩
    have hdepth : s.context.proofDepth ≤ last := by
      rw [← hcounted.successful, ← hcounted.attempted]
      exact hcounted.sublist.length_le
    have hattempted := hcounted.attempted
    have hsuccessful := hcounted.successful
    have hproofs := hcounted.proofsAttempted
    have hproved := hcounted.proofsSucceeded
    have htotal := hcounted.tried
    have hsucceeded := hcounted.succeeded
    cases hends with
    | proved hcomplete heq =>
      subst heq hcounters
      apply Totals.single <;> simp only [createSuccessResult, if_true] <;> omega
    | failed hfalse hreported hreportedSuccesses hproofs' hproved' htotal' hsucceeded' =>
      subst hcounters
      apply Totals.single
      · omega
      · rw [hfalse, if_neg Bool.false_ne_true]
        omega
      · show counters.totalTacticsTried + result.tacticAttempts ≤ _
        omega
      · show _ ≤ counters.totalTacticsTried + attempts.length
        omega
      · show counters.totalTacticsSucceeded + result.successfulTactics ≤ _
        omega
      · omega

/-- Over all calls of an agent the totals count the proofs and the successes, no result reports
more than they do, and no more is tried than given to the gym or succeeds than is tried. -/
theorem proveAll_totals (agent : A) (counters : Counters) (calls : List (Call G)) :
    Totals counters (proveAll M agent counters calls).1
      (proveAll M agent counters calls).2.2 := by
  induction calls generalizing agent counters with
  | nil => exact Totals.refl counters
  | cons call calls ih => exact (proveTheorem_totals M ..).cons (ih _ _)

end Totals

end LinearAgent
end IsabelleGym
