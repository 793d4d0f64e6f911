import Mathlib.Data.List.Forall2
import IsabelleGym.TrainingData

/-!
# What the collector has of a run

Each call leaves one session, or two equal ones where its file could not be
written. The records of a session follow each other: the subgoals before a tactic
are those after the last success. So the records that are picked for training are
complete paths from the first subgoals of a proof to none.
-/

namespace IsabelleGym
namespace TrainingData

open LinearAgent (Limits Methods ProofContext ProofResult)
open Mcts (Gym)
open List (Forall₂)

variable {G : Gym} {V A : Type}

/-- Numbered records that lead from some subgoals to others. A failure leaves them as they are, a
success changes them. -/
def Chain : ℕ → List Text → List TacticInvocation → List Text → Prop
  | _, start, [], final => start = final
  | n, start, i :: is, final => i.proofStep = n ∧ i.subgoalsBefore = start ∧
    (i.success = true → i.subgoalsAfter ≠ start) ∧
    Chain (n + 1) (if i.success then i.subgoalsAfter else start) is final

def Path : List Text → List TacticInvocation → List Text → Prop
  | start, [], final => start = final
  | start, i :: is, final => i.success = true ∧ i.subgoalsBefore = start ∧
    i.subgoalsAfter ≠ start ∧ Path i.subgoalsAfter is final

theorem Chain.append {n : ℕ} {start final : List Text} {is : List TacticInvocation}
    (h : Chain n start is final) {i : TacticInvocation} (hstep : i.proofStep = n + is.length)
    (hbefore : i.subgoalsBefore = final) (hafter : i.success = true → i.subgoalsAfter ≠ final) :
    Chain n start (is ++ [i]) (if i.success then i.subgoalsAfter else final) := by
  induction is generalizing n start with
  | nil =>
    cases h
    exact ⟨hstep, hbefore, hafter, rfl⟩
  | cons j is ih =>
    obtain ⟨hj, hjbefore, hjafter, hrest⟩ := h
    refine ⟨hj, hjbefore, hjafter, ih hrest ?_⟩
    rw [hstep, List.length_cons]
    omega

theorem Chain.path {n : ℕ} {start final : List Text} {is : List TacticInvocation}
    (h : Chain n start is final) : Path start (is.filter (·.success)) final := by
  induction is generalizing n start with
  | nil => exact h
  | cons i is ih =>
    obtain ⟨_, hbefore, hafter, hrest⟩ := h
    cases hsuccess : i.success with
    | true =>
      rw [List.filter_cons_of_pos hsuccess]
      rw [hsuccess, if_pos rfl] at hrest
      exact ⟨hsuccess, hbefore, hafter hsuccess, ih hrest⟩
    | false =>
      rw [List.filter_cons_of_neg (by simp [hsuccess])]
      rw [hsuccess, if_neg Bool.false_ne_true] at hrest
      exact ih hrest

/-- The subgoals that the gym shows behind the statement of a call. -/
def Call.Opens (call : Call G) (start : List Text) : Prop :=
  ∃ gym result gym', G.step call.theoremStatement call.gym = (gym, .ok result) ∧
    Mcts.isSyntaxSuccessful result = true ∧ G.openSubgoals gym = (gym', .ok start)

namespace ProofSession

structure Counted (session : ProofSession) : Prop where
  steps : session.totalSteps = session.tacticInvocations.length
  successes : session.successfulTactics = session.tacticInvocations.countP (·.success)
  failures : session.failedTactics = session.tacticInvocations.countP (!·.success)
  unique : ∀ tactic, tactic ∈ session.uniqueTacticsUsed ↔
    ∃ i ∈ session.tacticInvocations, i.tactic = tactic

variable {session : ProofSession}

theorem Counted.addTacticInvocation (h : session.Counted) (i : TacticInvocation) :
    (session.addTacticInvocation i).Counted where
  steps := by
    rw [ProofSession.addTacticInvocation, List.length_append, ← h.steps]
    rfl
  successes := by
    rw [ProofSession.addTacticInvocation, List.countP_append, ← h.successes,
      List.countP_singleton]
  failures := by
    rw [ProofSession.addTacticInvocation, List.countP_append, ← h.failures,
      List.countP_singleton]
    cases i.success <;> rfl
  unique tactic := by
    simp only [ProofSession.addTacticInvocation, List.mem_insert_iff, h.unique,
      List.mem_append, List.mem_singleton]
    constructor
    · rintro (rfl | ⟨j, hj, rfl⟩)
      · exact ⟨i, Or.inr rfl, rfl⟩
      · exact ⟨j, Or.inl hj, rfl⟩
    · rintro ⟨j, hj | rfl, rfl⟩
      · exact Or.inr ⟨j, hj, rfl⟩
      · exact Or.inl rfl

/-- What the session collected of a call says of its proof. -/
structure Sound (call : Call G) (session : ProofSession) : Prop where
  counted : session.Counted
  chain : ∃ start final, Chain 0 start session.tacticInvocations final ∧
    (session.success = true → call.Opens start ∧ start ≠ [] ∧ final = [])

theorem Counted.finished (h : session.Counted) (result : ProofResult) :
    (session.finished result).Counted := ⟨h.steps, h.successes, h.failures, h.unique⟩

end ProofSession

/-- The collector while it records a session, against the one before. -/
structure Records (c c' : TrainingDataCollector) (session : ProofSession) : Prop where
  current : c'.currentSession = some session
  others : c'.others = c.collectedSessions
  entries : c'.entries = 0
  total : c'.totalInvocations = c.totalInvocations + session.tacticInvocations.length
  successes : c'.totalSuccessfulInvocations =
    c.totalSuccessfulInvocations + session.successfulTactics
  counted : session.Counted

structure Collects (call : Call G) (c c' : TrainingDataCollector) (session : ProofSession)
    (n : ℕ) : Prop where
  sessions : c'.collectedSessions = c.collectedSessions ++ List.replicate n session
  total : c'.totalInvocations = c.totalInvocations + session.tacticInvocations.length
  successes : c'.totalSuccessfulInvocations =
    c.totalSuccessfulInvocations + session.successfulTactics
  sound : session.Sound call

theorem Records.recordTacticInvocation {c c' : TrainingDataCollector} {session : ProofSession}
    (h : Records c c' session) (beforeState afterState : ProofContext V) (tactic : Text)
    (goalId : ℕ) (success : Bool) :
    ∃ c'', c'.recordTacticInvocation beforeState afterState tactic goalId success = .ok c'' ∧
      Records c c'' (session.addTacticInvocation
        (session.invocation beforeState afterState tactic goalId success)) := by
  unfold TrainingDataCollector.recordTacticInvocation
  rw [h.current]
  refine ⟨_, rfl, rfl, h.others, h.entries, ?_, ?_, h.counted.addTacticInvocation _⟩
  · rw [ProofSession.addTacticInvocation, List.length_append, ← Nat.add_assoc, ← h.total]
    rfl
  · rw [ProofSession.addTacticInvocation, ← Nat.add_assoc, ← h.successes]
    rfl

theorem collectedSessions_endSession {c : TrainingDataCollector} {session : ProofSession}
    (h : c.currentSession = some session) (result : ProofResult) (saved : Except Text Unit) :
    (c.endSession result saved).1.collectedSessions =
      c.others ++ List.replicate (c.entries + 1) (session.finished result) := by
  unfold TrainingDataCollector.endSession
  rw [h]
  cases saved with
  | error e => rfl
  | ok _ => exact List.append_nil _

theorem totals_endSession (c : TrainingDataCollector) (result : ProofResult)
    (saved : Except Text Unit) :
    (c.endSession result saved).1.totalInvocations = c.totalInvocations ∧
      (c.endSession result saved).1.totalSuccessfulInvocations =
        c.totalSuccessfulInvocations := by
  unfold TrainingDataCollector.endSession
  cases c.currentSession with
  | none => exact ⟨rfl, rfl⟩
  | some session => cases saved <;> exact ⟨rfl, rfl⟩

section Search

variable {c : TrainingDataCollector} {start : List Text} {s : Search G V A}
variable {M : Methods G V A}

structure Recording (c : TrainingDataCollector) (start : List Text) (s : Search G V A) : Prop where
  records : ∃ session, Records c s.collector session ∧
    Chain 0 start session.tacticInvocations s.context.subgoals
  solved : s.context.solved = List.replicate s.context.subgoals.length false

/-- What is recorded wherever the search goes on or ends; it ends with a proof where no subgoals
are left. -/
def Progress.Keeps (c : TrainingDataCollector) (start : List Text) : Progress G V A → Prop
  | .continues s => Recording c start s
  | .ends s outcome => Recording c start s ∧
    ∀ result, outcome = .ok result → result.success = true → s.context.subgoals = []

theorem success_of_finish {success : Bool} {proofSteps : ℤ} {errorMessage : Option Text}
    {result : ProofResult} (h : s.finish success proofSteps errorMessage = .ok result) :
    result.success = success := by
  unfold Search.finish at h
  cases hsource : G.getSource s.gym with
  | error e =>
    rw [hsource] at h
    cases h
  | ok source =>
    rw [hsource] at h
    cases h
    rfl

theorem keeps_finish (h : Recording c start s) {success : Bool}
    (hproved : success = true → s.context.subgoals = []) (proofSteps : ℤ)
    (errorMessage : Option Text) :
    (Progress.ends s (s.finish success proofSteps errorMessage)).Keeps c start :=
  ⟨h, fun _ hresult hsuccess => hproved ((success_of_finish hresult).symm.trans hsuccess)⟩

theorem keeps_error (h : Recording c start s) (e : Text) :
    (Progress.ends s (.error e)).Keeps c start :=
  ⟨h, fun _ hresult => nomatch hresult⟩

theorem updatePriorities_recording (h : Recording c start s) :
    Recording c start (updatePriorities M s).1 := by
  unfold updatePriorities
  split
  · split <;> exact ⟨h.records, h.solved⟩
  · exact h

theorem subgoals_eq_nil (h : Recording c start s) (hcomplete : s.context.isComplete = true) :
    s.context.subgoals = [] := by
  rw [ProofContext.isComplete, h.solved] at hcomplete
  cases hsubgoals : s.context.subgoals with
  | nil => rfl
  | cons goal goals =>
    rw [hsubgoals] at hcomplete
    simp [List.replicate_succ] at hcomplete

variable [Zero V] [One V]

theorem tryTactic_keeps (h : Recording c start s) (goalId : ℕ) (tactic : Text) :
    (tryTactic s goalId tactic).Keeps c start := by
  have hgym : ∀ gym : G.State, Recording c start { s with gym } := fun _ => ⟨h.records, h.solved⟩
  unfold tryTactic
  split
  · exact keeps_error (hgym _) _
  · split
    · exact keeps_error (hgym _) _
    · rename_i tacticResult _ _ gym afterSubgoals _
      dsimp only
      generalize hsuccess : (Mcts.isSyntaxSuccessful tacticResult &&
        decide (afterSubgoals.length ≠ s.context.subgoals.length ∨
          afterSubgoals ≠ s.context.subgoals)) = success
      generalize hafter : (searchContext afterSubgoals _ _ : ProofContext V) = afterState
      have hsubgoals : afterState.subgoals = afterSubgoals := by
        rw [← hafter]
        rfl
      have hsolved : afterState.solved = List.replicate afterState.subgoals.length false := by
        rw [← hafter]
        rfl
      have hchanged : success = true → afterState.subgoals ≠ s.context.subgoals := by
        intro htrue heq
        rw [htrue, ← hsubgoals, heq] at hsuccess
        simp at hsuccess
      obtain ⟨session, hrecords, hchain⟩ := h.records
      obtain ⟨c', hc', hrecords'⟩ :=
        hrecords.recordTacticInvocation s.context afterState tactic goalId success
      let i := session.invocation s.context afterState tactic goalId success
      have hi : i.success = true → i.subgoalsAfter ≠ s.context.subgoals := hchanged
      have happend := hchain.append (Nat.zero_add _).symm rfl hi
      rw [hc']
      cases success with
      | true => exact ⟨⟨_, hrecords', happend⟩, hsolved⟩
      | false => exact ⟨⟨_, hrecords', happend⟩, h.solved⟩

variable (limits : Limits) [LT V] [DecidableLT V]

theorem chooseTactic_keeps (h : Recording c start s) (step : ℕ) :
    (chooseTactic M step s).Keeps c start := by
  have hagent : ∀ agent : A, Recording c start { s with agent } := fun _ => ⟨h.records, h.solved⟩
  unfold chooseTactic
  split
  · exact keeps_finish h (fun h => absurd h Bool.false_ne_true) _ _
  · split
    · exact keeps_error (hagent _) _
    · dsimp only
      split
      · exact keeps_finish (hagent _) (fun h => absurd h Bool.false_ne_true) _ _
      · exact tryTactic_keeps (hagent _) _ _

theorem searchStep_keeps (h : Recording c start s) (step : ℕ) :
    (searchStep M limits step s).Keeps c start := by
  unfold searchStep
  split_ifs with htimeout hcomplete hdepth
  · exact keeps_finish h (fun h => absurd h Bool.false_ne_true) _ _
  · exact keeps_finish h (fun _ => subgoals_eq_nil h hcomplete) _ _
  · exact keeps_finish h (fun h => absurd h Bool.false_ne_true) _ _
  · have hpriorities := updatePriorities_recording (M := M) h
    split
    · rename_i heq
      rw [heq] at hpriorities
      exact keeps_error hpriorities _
    · rename_i heq
      rw [heq] at hpriorities
      exact chooseTactic_keeps hpriorities step

theorem searchLoop_keeps (h : Recording c start s) (n step : ℕ) :
    (Progress.ends (searchLoop M limits n step s).1 (searchLoop M limits n step s).2).Keeps
      c start := by
  induction n generalizing step s with
  | zero => exact keeps_finish h (fun h => absurd h Bool.false_ne_true) _ _
  | succ n ih =>
    have hstep := searchStep_keeps (M := M) limits h step
    rw [searchLoop]
    split
    · rename_i heq
      rw [heq] at hstep
      exact hstep
    · rename_i heq
      rw [heq] at hstep
      exact ih hstep (step + 1)

theorem startSession_records (c : TrainingDataCollector) (theoremStatement agentName : Text) :
    Records c (c.startSession theoremStatement agentName) { theoremStatement, agentName } :=
  ⟨rfl, rfl, rfl, rfl, rfl, ⟨rfl, rfl, rfl, by simp⟩⟩

theorem search_records (agentName : Text) (call : Call G) (agent : A)
    (c : TrainingDataCollector) :
    ∃ session start final,
      Records c (searchWithDataCollection M call.limits call.theoremStatement call.gym agent
        (c.startSession call.theoremStatement agentName)).2.1 session ∧
      Chain 0 start session.tacticInvocations final ∧
      ∀ result, (searchWithDataCollection M call.limits call.theoremStatement call.gym agent
        (c.startSession call.theoremStatement agentName)).2.2 = .ok result →
          result.success = true → call.Opens start ∧ start ≠ [] ∧ final = [] := by
  have hstart := startSession_records c call.theoremStatement agentName
  have hfailed : ∀ e : Text, ∀ result, (Except.ok (searchResult false 0 0 [] (some e)) :
      Except Text ProofResult) = .ok result → result.success = true →
      call.Opens [] ∧ ([] : List Text) ≠ [] ∧ ([] : List Text) = [] := by
    rintro e _ ⟨⟩ hsuccess
    cases hsuccess
  unfold searchWithDataCollection
  dsimp only
  split
  · exact ⟨_, [], [], hstart, rfl, hfailed _⟩
  · rename_i hstep
    split_ifs with haccepted
    · split
      · exact ⟨_, [], [], hstart, rfl, fun _ hresult => nomatch hresult⟩
      · rename_i gym initialSubgoals hopen
        split_ifs with hempty
        · exact ⟨_, [], [], hstart, rfl, hfailed _⟩
        · dsimp only
          let s : Search G V A :=
            { gym, agent, collector := c.startSession call.theoremStatement agentName,
              context := searchContext initialSubgoals call.theoremStatement 0 }
          have hbegin : Recording c initialSubgoals s := ⟨⟨_, hstart, rfl⟩, rfl⟩
          obtain ⟨hrecording, hproved⟩ :=
            searchLoop_keeps (M := M) call.limits hbegin call.limits.maxSteps.toNat 0
          obtain ⟨session, hrecords, hchain⟩ := hrecording.records
          refine ⟨session, initialSubgoals, _, hrecords, hchain, fun result hresult hsuccess => ?_⟩
          refine ⟨⟨_, _, _, hstep, haccepted, hopen⟩, ?_, hproved result hresult hsuccess⟩
          exact fun hnil => hempty (List.isEmpty_iff.mpr hnil)
    · exact ⟨_, [], [], hstart, rfl, hfailed _⟩

end Search

section Calls

variable {c c' : TrainingDataCollector} {session : ProofSession} {result again : ProofResult}
  {call : Call G}

theorem Records.collects (h : Records c c' session)
    (hsound : (session.finished result).Sound call) (saved : Except Text Unit) :
    Collects call c (c'.endSession result saved).1 (session.finished result) 1 := by
  obtain ⟨htotal, hsuccesses⟩ := totals_endSession c' result saved
  refine ⟨?_, htotal.trans h.total, hsuccesses.trans h.successes, hsound⟩
  rw [collectedSessions_endSession h.current, h.others, h.entries]

/-- A session whose file was not written is collected a second time, and both are the one object
that the second end writes to. -/
theorem Records.collects_again (h : Records c c' session)
    (hsound : ((session.finished result).finished again).Sound call) (e : Text)
    (saved : Except Text Unit) :
    Collects call c ((c'.endSession result (.error e)).1.endSession again saved).1
      ((session.finished result).finished again) 2 := by
  obtain ⟨htotal, hsuccesses⟩ := totals_endSession c' result (.error e)
  obtain ⟨htotal', hsuccesses'⟩ :=
    totals_endSession (c'.endSession result (.error e)).1 again saved
  refine ⟨?_, (htotal'.trans htotal).trans h.total, (hsuccesses'.trans hsuccesses).trans
    h.successes, hsound⟩
  have hend : (c'.endSession result (.error e)).1 =
      { c' with currentSession := some (session.finished result), entries := c'.entries + 1 } := by
    rw [TrainingDataCollector.endSession, h.current]
  rw [hend, collectedSessions_endSession rfl]
  dsimp only
  rw [h.others, h.entries]

variable [Zero V] [One V] [LT V] [DecidableLT V]
variable (M : Methods G V A) (agentName : Text)

theorem proveTheorem_collects (call : Call G) (agent : A) (c : TrainingDataCollector) :
    ∃ session n, Collects call c (proveTheorem M agentName call agent c).2 session n ∧
      (n = 1 ∨ n = 2 ∧ session.success = false ∧ call.saved ≠ .ok ()) := by
  obtain ⟨session, start, final, hrecords, hchain, hproved⟩ :=
    search_records (M := M) agentName call agent c
  have hsound : ∀ result : ProofResult,
      (result.success = true → call.Opens start ∧ start ≠ [] ∧ final = []) →
        (session.finished result).Sound call :=
    fun result h => ⟨hrecords.counted.finished result, start, final, hchain, h⟩
  unfold proveTheorem
  dsimp only
  split
  · rename_i e _
    refine ⟨_, 1, hrecords.collects (hsound _ fun h => ?_) call.saved, Or.inl rfl⟩
    cases h
  · rename_i result hresult
    cases hsaved : call.saved with
    | ok _ =>
      have hcollects := hrecords.collects (hsound result (hproved result hresult)) (.ok ())
      split
      · rename_i heq
        rw [heq] at hcollects
        exact ⟨_, 1, hcollects, Or.inl rfl⟩
      · rename_i heq
        rw [TrainingDataCollector.endSession, hrecords.current] at heq
        cases congrArg Prod.snd heq
    | error e =>
      have hagain : ∀ again : ProofResult, again.success = false →
          ((session.finished result).finished again).Sound call := fun again hfalse =>
        ⟨(hrecords.counted.finished result).finished again, start, final, hchain,
          fun h => absurd (hfalse.symm.trans h) Bool.false_ne_true⟩
      split
      · rename_i heq
        rw [TrainingDataCollector.endSession, hrecords.current] at heq
        cases congrArg Prod.snd heq
      · rename_i e' heq
        have hcollects := hrecords.collects_again
          (hagain (searchResult false 0 0 [] (some e')) rfl) e call.savedAgain
        rw [heq] at hcollects
        exact ⟨_, 2, hcollects, Or.inr ⟨rfl, rfl, fun h => nomatch h⟩⟩

/-- Over all calls the collector gets one session for each, or two equal ones of a failure where a
file could not be written. The totals are those of the sessions, one for each call. -/
theorem proveAll_collects (calls : List (Call G)) (agent : A) (c : TrainingDataCollector) :
    ∃ sessions : List (ProofSession × ℕ),
      Forall₂ (fun call r => r.1.Sound call ∧
        (r.2 = 1 ∨ r.2 = 2 ∧ r.1.success = false ∧ call.saved ≠ .ok ())) calls sessions ∧
      (proveAll M agentName calls agent c).2.collectedSessions =
        c.collectedSessions ++ sessions.flatMap (fun r => List.replicate r.2 r.1) ∧
      (proveAll M agentName calls agent c).2.totalInvocations =
        c.totalInvocations + (sessions.map fun r => r.1.tacticInvocations.length).sum ∧
      (proveAll M agentName calls agent c).2.totalSuccessfulInvocations =
        c.totalSuccessfulInvocations + (sessions.map fun r => r.1.successfulTactics).sum := by
  induction calls generalizing agent c with
  | nil => exact ⟨[], .nil, (List.append_nil _).symm, rfl, rfl⟩
  | cons call calls ih =>
    obtain ⟨session, n, hcollects, hn⟩ := proveTheorem_collects M agentName call agent c
    obtain ⟨sessions, hall, hsessions, htotal, hsuccesses⟩ :=
      ih (proveTheorem M agentName call agent c).1 (proveTheorem M agentName call agent c).2
    refine ⟨(session, n) :: sessions, .cons ⟨hcollects.sound, hn⟩ hall, ?_, ?_, ?_⟩
    · rw [List.flatMap_cons, ← List.append_assoc, ← hcollects.sessions]
      exact hsessions
    · rw [List.map_cons, List.sum_cons, ← Nat.add_assoc, ← hcollects.total]
      exact htotal
    · rw [List.map_cons, List.sum_cons, ← Nat.add_assoc, ← hcollects.successes]
      exact hsuccesses

theorem sound_proveAll (calls : List (Call G)) (agent : A) {c : TrainingDataCollector}
    {session : ProofSession}
    (h : session ∈ (proveAll M agentName calls agent c).2.collectedSessions) :
    session ∈ c.collectedSessions ∨ ∃ call ∈ calls, session.Sound call := by
  induction calls generalizing agent c with
  | nil => exact Or.inl h
  | cons call calls ih =>
    obtain ⟨own, n, hcollects, _⟩ := proveTheorem_collects M agentName call agent c
    obtain hmem | ⟨later, hlater, hsound⟩ := ih (proveTheorem M agentName call agent c).1 h
    · have hmem : session ∈ (proveTheorem M agentName call agent c).2.collectedSessions := hmem
      rw [hcollects.sessions] at hmem
      rcases List.mem_append.mp hmem with hmem | hmem
      · exact Or.inl hmem
      · rw [List.eq_of_mem_replicate hmem]
        exact Or.inr ⟨call, List.mem_cons_self, hcollects.sound⟩
    · exact Or.inr ⟨later, List.mem_cons_of_mem call hlater, hsound⟩

/-- What is picked from the successful sessions are complete proofs one after the other, each a
path of successes from the subgoals of a statement to none. -/
theorem dataset_paths (calls : List (Call G)) (agent : A) :
    ∃ proofs : List (List TacticInvocation),
      (proveAll M agentName calls agent {}).2.getTrainingDataset true true = proofs.flatten ∧
        ∀ proof ∈ proofs, ∃ call ∈ calls, ∃ start, call.Opens start ∧ start ≠ [] ∧
          Path start proof [] := by
  refine ⟨((proveAll M agentName calls agent {}).2.collectedSessions.filter (·.success)).map
    fun session => session.tacticInvocations.filter (·.success), ?_, ?_⟩
  · simp [TrainingDataCollector.getTrainingDataset, List.flatMap_def]
  · intro proof hproof
    obtain ⟨session, hsession, rfl⟩ := List.mem_map.mp hproof
    obtain ⟨hmem, hsuccess⟩ := List.mem_filter.mp hsession
    obtain hnone | ⟨call, hcall, hsound⟩ := sound_proveAll M agentName calls agent hmem
    · cases hnone
    · obtain ⟨start, final, hchain, hproved⟩ := hsound.chain
      obtain ⟨hopens, hstart, rfl⟩ := hproved hsuccess
      exact ⟨call, hcall, start, hopens, hstart, hchain.path⟩

end Calls

end TrainingData
end IsabelleGym
