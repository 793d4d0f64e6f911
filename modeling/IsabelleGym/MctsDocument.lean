import IsabelleGym.MctsScripts
import Mathlib.Algebra.GroupWithZero.Nat

/-!
# The document while the agent searches

Every tactic is executed, and every proof returned, on the document of the
selected node's own script exactly in the runs that always select the node made
last and in which every text inserted has made a node. The agent itself takes
care of neither: it saves no state and restores none.
-/

namespace IsabelleGym
namespace Mcts

variable {G : Gym} {V : Type}

def Run.moments (run : Run G V) : List (Moment G V) :=
  run.executions ++ run.outcome.moment.toList

/-- Tactics are executed on the documents of their nodes, and a success is returned for a
complete node on the document of its script. -/
structure Run.InState (theoremStatement : Text) (run : Run G V) : Prop where
  executed : ∀ m ∈ run.executions, m.OwnDocument theoremStatement run.root
  returned : ∀ result, run.outcome.result = some result → result.success = true →
    ∃ m, run.outcome.moment = some m ∧ m.node.isComplete = true ∧
      m.OwnDocument theoremStatement run.root

/-- A success is returned with its moment, for a complete node. -/
def Outcome.Marked (outcome : Outcome G V) : Prop :=
  (∀ result, outcome.result = some result → result.success = true →
    ∃ m, outcome.moment = some m) ∧
  ∀ m, outcome.moment = some m → m.node.isComplete = true ∧
    ∃ result, outcome.result = some result ∧ result.success = true

theorem Outcome.marked_raised (message : Text) : (Outcome.raised message : Outcome G V).Marked :=
  ⟨by simp [result], by simp [moment]⟩

theorem Outcome.marked_failed {r : ProofResult} (h : r.success = false) :
    (Outcome.failed r : Outcome G V).Marked :=
  ⟨by simp [result, h], by simp [moment]⟩

theorem Run.inState_iff {theoremStatement : Text} {run : Run G V} (h : run.outcome.Marked) :
    run.InState theoremStatement ↔ ∀ m ∈ run.moments, m.OwnDocument theoremStatement run.root := by
  constructor
  · rintro ⟨hexecuted, hreturned⟩ m hm
    rcases List.mem_append.mp hm with hexec | hret
    · exact hexecuted m hexec
    · have hmoment : run.outcome.moment = some m := Option.mem_toList.mp hret
      obtain ⟨_, result, hresult, hsuccess⟩ := h.2 m hmoment
      obtain ⟨m', hm', _, hown⟩ := hreturned result hresult hsuccess
      rw [hmoment] at hm'
      exact Option.some.inj hm' ▸ hown
  · intro hall
    refine ⟨fun m hm => hall m (List.mem_append_left _ hm), fun result hresult hsuccess => ?_⟩
    obtain ⟨m, hm⟩ := h.1 result hresult hsuccess
    exact ⟨m, hm, (h.2 m hm).1,
      hall m (List.mem_append_right _ (Option.mem_toList.mpr hm))⟩

section Search

variable [Zero V] [One V] [Add V] [LT V] [DecidableLT V]
variable (P : Policy V) (maxTrialsPerGoal : ℤ)

theorem searchLoop_marked (maxSteps : ℤ) (n iStep : ℕ) (s : SearchState G V) :
    (searchLoop P maxTrialsPerGoal maxSteps n iStep s).2.Marked := by
  induction n generalizing iStep s with
  | zero =>
    rw [searchLoop]
    split
    · exact Outcome.marked_raised _
    · exact Outcome.marked_failed rfl
  | succ n ih =>
    have hstep := searchStep_cases P maxTrialsPerGoal iStep s
    rw [searchLoop]
    generalize searchStep P maxTrialsPerGoal iStep s = r at hstep
    cases hstep with
    | raised e => exact Outcome.marked_raised e
    | @proved m result _ complete success =>
      exact ⟨fun _ _ _ => ⟨m, rfl⟩, by
        rintro m' ⟨⟩
        exact ⟨complete, result, rfl, success⟩⟩
    | continues _ => exact ih _ _

/-- The moments of the rest of a search that has made no branch so far. -/
theorem searchLoop_ownDocument_iff {theoremStatement base : Text} {root : G.State}
    (hbase : G.document root = base ++ theoremStatement ++ ['\n']) (maxSteps : ℤ) (n iStep : ℕ)
    {s : SearchState G V}
    (h : Tracks theoremStatement (G.texts root) (G.texts s.gym) (scripts s.nodes))
    (hstraight : Straight (scripts s.nodes)) :
    let r := searchLoop P maxTrialsPerGoal maxSteps n iStep s
    (∀ m ∈ r.1 ++ r.2.moment.toList, m.OwnDocument theoremStatement root) ↔
      ∀ m ∈ r.1 ++ r.2.moment.toList, m.SelectsNewest ∧ m.EveryTextMadeNode root := by
  induction n generalizing iStep s with
  | zero =>
    rw [searchLoop]
    split <;> simp [Outcome.moment]
  | succ n ih =>
    have hstep := searchStep_cases P maxTrialsPerGoal iStep s
    rw [searchLoop]
    generalize searchStep P maxTrialsPerGoal iStep s = r at hstep
    cases hstep with
    | raised e => simp [Outcome.moment]
    | @proved m result moment complete success =>
      simpa [Outcome.moment] using moment.ownDocument_iff h hstraight hbase
    | @continues m s' expanded =>
      have hrest := ih (iStep + 1) (expanded.tracks h)
      cases m with
      | none =>
        simpa using hrest (expanded.straight hstraight (by simp))
      | some m =>
        have hm := expanded.moment.ownDocument_iff h hstraight hbase
        simp only [Option.toList_some, List.cons_append, List.nil_append, List.forall_mem_cons]
        constructor
        · rintro ⟨hown, hothers⟩
          have hnewest := hm.mp hown
          refine ⟨hnewest, (hrest (expanded.straight hstraight ?_)).mp hothers⟩
          rintro _ ⟨⟩
          exact hnewest.1
        · rintro ⟨hnewest, hothers⟩
          refine ⟨hm.mpr hnewest, (hrest (expanded.straight hstraight ?_)).mpr hothers⟩
          rintro _ ⟨⟩
          exact hnewest.1

theorem searchFrom_marked (theoremStatement : Text) (maxSteps : ℤ) (gym : G.State)
    (subgoals : List Text) :
    (searchFrom P maxTrialsPerGoal theoremStatement maxSteps gym subgoals).2.Marked := by
  unfold searchFrom
  dsimp only
  split
  · exact Outcome.marked_raised _
  · exact searchLoop_marked P maxTrialsPerGoal maxSteps _ _ _

theorem searchFrom_ownDocument_iff {theoremStatement base : Text} {root gym : G.State}
    (hbase : G.document root = base ++ theoremStatement ++ ['\n'])
    (hgym : G.texts root <+: G.texts gym) (maxSteps : ℤ) (subgoals : List Text) :
    let r := searchFrom P maxTrialsPerGoal theoremStatement maxSteps gym subgoals
    (∀ m ∈ r.1 ++ r.2.moment.toList, m.OwnDocument theoremStatement root) ↔
      ∀ m ∈ r.1 ++ r.2.moment.toList, m.SelectsNewest ∧ m.EveryTextMadeNode root := by
  unfold searchFrom
  dsimp only
  split
  · simp [Outcome.moment]
  · refine searchLoop_ownDocument_iff P maxTrialsPerGoal hbase maxSteps _ _ (.start hgym) ?_
    intro k script depth hk
    obtain ⟨hlt, heq⟩ := List.getElem?_eq_some_iff.mp hk
    have hk0 : k = 0 := by simpa [scripts] using hlt
    subst hk0
    exact (congrArg Prod.snd heq).symm

variable (theoremStatement : Text) (maxSteps : ℤ) (gym : G.State)

theorem proveTheorem_marked :
    (proveTheorem P maxTrialsPerGoal theoremStatement maxSteps gym).outcome.Marked := by
  unfold proveTheorem
  split
  · exact Outcome.marked_raised _
  · split
    · exact Outcome.marked_raised _
    · split
      · unfold startTheorem
        split
        · exact Outcome.marked_raised _
        · split
          · split
            · exact Outcome.marked_raised _
            · split
              · exact Outcome.marked_failed rfl
              · exact searchFrom_marked P maxTrialsPerGoal theoremStatement maxSteps _ _
          · exact Outcome.marked_failed rfl
      · exact searchFrom_marked P maxTrialsPerGoal theoremStatement maxSteps _ _

/-- A theorem started by its statement has the statement at the end of the root's document. -/
theorem startTheorem_ownDocument_iff :
    let run := startTheorem P maxTrialsPerGoal theoremStatement maxSteps gym
    (∀ m ∈ run.moments, m.OwnDocument theoremStatement run.root) ↔
      ∀ m ∈ run.moments, m.SelectsNewest ∧ m.EveryTextMadeNode run.root := by
  unfold startTheorem
  dsimp only
  split
  · simp [Run.moments, Outcome.moment]
  · rename_i gym' result hresult
    split
    · rename_i haccepted
      have htexts := G.texts_accepted theoremStatement gym result (by rw [hresult]) haccepted
      rw [hresult] at htexts
      have hbase : G.document gym' = G.document gym ++ theoremStatement ++ ['\n'] := by
        rw [Gym.document, htexts, lines_append, lines_singleton, ← List.append_assoc]
        rfl
      have hopen := G.texts_openSubgoals gym'
      split
      · simp [Run.moments, Outcome.moment]
      · rename_i gym'' subgoals hsubgoals
        rw [hsubgoals] at hopen
        split
        · simp [Run.moments, Outcome.moment, failedStart]
        · exact searchFrom_ownDocument_iff P maxTrialsPerGoal hbase hopen maxSteps subgoals
    · simp [Run.moments, Outcome.moment, failedStart]

theorem startTheorem_takenOver :
    (startTheorem P maxTrialsPerGoal theoremStatement maxSteps gym).takenOver = false := by
  unfold startTheorem
  split
  · rfl
  · split
    · split
      · rfl
      · split <;> rfl
    · rfl

/-- In a proof taken over the statement has to stand at the end of the document. -/
theorem searchFrom_ownDocument_iff_base (subgoals : List Text) :
    let r := searchFrom P maxTrialsPerGoal theoremStatement maxSteps gym subgoals
    (∀ m ∈ r.1 ++ r.2.moment.toList, m.OwnDocument theoremStatement gym) ↔
      (r.1 ++ r.2.moment.toList ≠ [] →
        ∃ base, G.document gym = base ++ theoremStatement ++ ['\n']) ∧
      ∀ m ∈ r.1 ++ r.2.moment.toList, m.SelectsNewest ∧ m.EveryTextMadeNode gym := by
  intro r
  rcases List.eq_nil_or_concat (r.1 ++ r.2.moment.toList) with hnil | ⟨before, m, hlast⟩
  · simp [hnil]
  · have hm : m ∈ r.1 ++ r.2.moment.toList := by simp [hlast]
    have hiff : ∀ base, G.document gym = base ++ theoremStatement ++ ['\n'] → _ := fun base hbase =>
      searchFrom_ownDocument_iff P maxTrialsPerGoal hbase (List.prefix_refl _) maxSteps subgoals
    constructor
    · intro hown
      obtain ⟨base, hbase, _⟩ := hown m hm
      exact ⟨fun _ => ⟨base, hbase⟩, (hiff base hbase).mp hown⟩
    · rintro ⟨hends, hnewest⟩
      obtain ⟨base, hbase⟩ := hends (List.ne_nil_of_mem hm)
      exact (hiff base hbase).mpr hnewest

/-- The search keeps the tree and the document in step in exactly the runs that select the node
made last at every moment and have made a node by every text inserted; in a proof taken over, the
document has to end with the statement. -/
theorem proveTheorem_inState_iff :
    let run := proveTheorem P maxTrialsPerGoal theoremStatement maxSteps gym
    run.InState theoremStatement ↔
      (run.takenOver = true → run.moments ≠ [] →
        ∃ base, G.document run.root = base ++ theoremStatement ++ ['\n']) ∧
      ∀ m ∈ run.moments, m.SelectsNewest ∧ m.EveryTextMadeNode run.root := by
  intro run
  rw [Run.inState_iff (proveTheorem_marked P maxTrialsPerGoal theoremStatement maxSteps gym)]
  simp only [run]
  unfold proveTheorem
  split
  · simp [Run.moments, Outcome.moment]
  · split
    · simp [Run.moments, Outcome.moment]
    · rename_i gym' subgoals _
      split
      · have hstarted := startTheorem_takenOver P maxTrialsPerGoal theoremStatement maxSteps gym'
        refine (startTheorem_ownDocument_iff P maxTrialsPerGoal theoremStatement maxSteps
          gym').trans ⟨fun hall => ⟨fun htaken => ?_, hall⟩, And.right⟩
        rw [hstarted] at htaken
        cases htaken
      · refine (searchFrom_ownDocument_iff_base P maxTrialsPerGoal theoremStatement maxSteps gym'
          subgoals).trans (and_congr ?_ Iff.rfl)
        exact ⟨fun hends _ => hends, fun hends => hends rfl⟩

end Search

section Example

/-- A gym that inserts every text it is given and answers with an error to some. -/
def scriptedGym (rejects : Text → Bool) (subgoals : List Text → List Text) : Gym where
  State := List Text
  texts := id
  currentThy _ := .ok "Scratch".toList
  openSubgoals st := (st, .ok (subgoals st))
  step text st :=
    (st ++ [text],
      .ok ⟨.ok (some (if rejects text then "*** Failed to finish proof".toList else [])), []⟩)
  getSource st := .ok (lines st)
  texts_openSubgoals st := List.prefix_refl st
  texts_step _ _ := Or.inr rfl
  texts_accepted _ _ _ _ _ := rfl

/-- One open subgoal between the statement and the tactic that closes it. -/
def revGym : Gym :=
  scriptedGym (· = "by auto".toList) fun texts =>
    if texts.isEmpty || texts.contains "by simp".toList then [] else ["rev (rev xs) = xs".toList]

/-- Always the newest node, and `by simp` after `by auto`. -/
def autoThenSimp : Policy ℕ where
  select _ nodes := .ok (List.finRange nodes.length).getLast?.toList
  recommendTactic iStep _ _ _ :=
    .ok (some (if iStep = 0 then "by auto" else "by simp").toList)
  evaluatePriorities _ _ node := .ok (List.replicate node.subgoals.length 0)
  estimate _ _ _ := .ok 1

def revRun : Run revGym ℕ :=
  proveTheorem autoThenSimp 5 "lemma \"rev (rev xs) = xs\"".toList 100 []

/-- The proof returned is that of a script with `by simp` alone, and the document has the
rejected `by auto` in front of it. -/
theorem rejected_tactic_stays :
    ¬ revRun.InState "lemma \"rev (rev xs) = xs\"".toList := by
  intro h
  have hsuccess : ∃ result, revRun.outcome.result = some result ∧ result.success = true := by
    decide +kernel
  obtain ⟨result, hresult, hsuccess⟩ := hsuccess
  obtain ⟨m, hm, _, base, hroot, hdoc⟩ := h.returned result hresult hsuccess
  have hlengths : revRun.outcome.moment.map (fun m =>
      ((revGym.document m.gym).length, m.node.currentTheorem.length)) = some (42, 33) := by
    decide +kernel
  have hrootLength : (revGym.document revRun.root).length = 26 := by decide +kernel
  have hstatement : "lemma \"rev (rev xs) = xs\"".toList.length = 25 := by decide +kernel
  rw [hm] at hlengths
  obtain ⟨hdocument, hscript⟩ := Prod.mk.inj (Option.some.inj hlengths)
  rw [hroot, List.length_append, List.length_append, hstatement] at hrootLength
  rw [hdoc, List.length_append, List.length_append, hscript] at hdocument
  simp only [List.length_singleton] at hrootLength hdocument
  omega

end Example
end Mcts
end IsabelleGym
