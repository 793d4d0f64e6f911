import IsabelleGym.MctsAgent

/-!
# Scripts of the search tree against the document of the gym

A node's tactics stand in the document in their order, among all other texts
inserted since the root: rejected tactics stay, and nothing is taken back when
the selection goes to another branch. The document is the script of the
selected node where the selection follows the newest node and every inserted
text has made one.
-/

namespace IsabelleGym
namespace Mcts

open scoped List

@[simp] theorem lines_nil : lines [] = [] := rfl

@[simp] theorem lines_append (a b : List Text) : lines (a ++ b) = lines a ++ lines b :=
  List.flatMap_append

@[simp] theorem lines_singleton (t : Text) : lines [t] = t ++ ['\n'] := by simp [lines]

theorem length_lines_le_of_sublist {a b : List Text} (h : a <+ b) :
    (lines a).length + (b.length - a.length) ≤ (lines b).length := by
  induction h with
  | slnil => simp
  | cons t h ih =>
    have hle := h.length_le
    simp only [lines, List.flatMap_cons, List.length_append, List.length_cons] at ih ⊢
    omega
  | cons_cons t h ih =>
    simp only [lines, List.flatMap_cons, List.length_append, List.length_cons] at ih ⊢
    omega

/-- Some of the inserted texts make up the whole document only if they are all of them. -/
theorem eq_of_sublist_of_lines_eq {a b : List Text} (h : a <+ b) (heq : lines a = lines b) :
    a = b := by
  apply h.eq_of_length
  have hlen := length_lines_le_of_sublist h
  have hle := h.length_le
  rw [heq] at hlen
  omega

theorem getElem?_append_singleton_cases {α : Type} {l : List α} {x y : α} {j : ℕ}
    (h : (l ++ [x])[j]? = some y) : l[j]? = some y ∨ j = l.length ∧ x = y := by
  rcases lt_or_ge j l.length with hlt | hge
  · rw [List.getElem?_append_left hlt] at h
    exact Or.inl h
  · rw [List.getElem?_append_right hge] at h
    obtain ⟨hlast, heq⟩ := List.getElem?_eq_some_iff.mp h
    have hj : j - l.length = 0 := by simpa using hlast
    simp only [hj, List.getElem_cons_zero] at heq
    exact Or.inr ⟨by omega, heq⟩

def scripts {V : Type} (nodes : List (Node V)) : List (Text × ℕ) :=
  nodes.map fun node => (node.currentTheorem, node.proofDepth)

/-- What the tree and the inserted texts have to do with each other: every node has its tactics
among the texts inserted since the root, and every node but the root has inserted one. -/
structure Tracks (theoremStatement : Text) (root texts : List Text) (nodes : List (Text × ℕ)) :
    Prop where
  grown : root <+: texts
  made : nodes.length + root.length ≤ texts.length + 1
  path : ∀ (k : ℕ) (script : Text) (depth : ℕ), nodes[k]? = some (script, depth) →
    depth ≤ k ∧ ∃ tactics : List Text, tactics.length = depth ∧
      tactics <+ texts.drop root.length ∧
      script ++ ['\n'] = theoremStatement ++ ['\n'] ++ lines tactics

namespace Tracks

variable {theoremStatement : Text} {root texts texts' : List Text} {nodes : List (Text × ℕ)}

theorem start (htexts : root <+: texts) :
    Tracks theoremStatement root texts [(theoremStatement, 0)] where
  grown := htexts
  made := by
    have hle := htexts.length_le
    simp only [List.length_singleton]
    omega
  path k script depth h := by
    obtain ⟨hk, heq⟩ := List.getElem?_eq_some_iff.mp h
    have hk0 : k = 0 := by simpa using hk
    subst hk0
    obtain ⟨rfl, rfl⟩ := Prod.mk.inj heq
    exact ⟨le_rfl, [], rfl, List.nil_sublist _, by simp⟩

theorem grow (h : Tracks theoremStatement root texts nodes) (htexts : texts <+: texts') :
    Tracks theoremStatement root texts' nodes where
  grown := h.grown.trans htexts
  made := h.made.trans (by have hle := htexts.length_le; omega)
  path k script depth hk := by
    obtain ⟨hdepth, tactics, hlen, hsub, hscript⟩ := h.path k script depth hk
    exact ⟨hdepth, tactics, hlen, hsub.trans (htexts.sublist.drop root.length), hscript⟩

/-- An accepted tactic and the child it makes. -/
theorem child (h : Tracks theoremStatement root texts nodes) {k depth : ℕ} {script tactic : Text}
    (hk : nodes[k]? = some (script, depth)) :
    Tracks theoremStatement root (texts ++ [tactic])
      (nodes ++ [(script ++ '\n' :: tactic, depth + 1)]) where
  grown := h.grown.trans (List.prefix_append _ _)
  made := by
    have hmade := h.made
    simp only [List.length_append, List.length_singleton]
    omega
  path j script' depth' hj := by
    have hdrop : (texts ++ [tactic]).drop root.length = texts.drop root.length ++ [tactic] :=
      List.drop_append_of_le_length h.grown.length_le
    rw [hdrop]
    rcases getElem?_append_singleton_cases hj with hold | ⟨rfl, hnew⟩
    · obtain ⟨hdepth, tactics, hlen, hsub, hscript⟩ := h.path j script' depth' hold
      exact ⟨hdepth, tactics, hlen, hsub.trans (List.sublist_append_left _ _), hscript⟩
    · obtain ⟨rfl, rfl⟩ := Prod.mk.inj hnew
      obtain ⟨hdepth, tactics, hlen, hsub, hscript⟩ := h.path k script depth hk
      have hklt := (List.getElem?_eq_some_iff.mp hk).1
      refine ⟨by omega, tactics ++ [tactic], by simp [hlen], ?_, ?_⟩
      · exact hsub.append (List.Sublist.refl _)
      · rw [lines_append, lines_singleton, ← List.append_assoc, ← hscript]
        simp

/-- The document is the node's script exactly when as many texts have been inserted since the
root as the node is deep. -/
theorem document_eq_iff (h : Tracks theoremStatement root texts nodes) {k depth : ℕ}
    {script base : Text} (hk : nodes[k]? = some (script, depth))
    (hbase : lines root = base ++ theoremStatement ++ ['\n']) :
    lines texts = base ++ script ++ ['\n'] ↔ root.length + depth = texts.length := by
  obtain ⟨_, tactics, hlen, hsub, hscript⟩ := h.path k script depth hk
  have htexts : texts = root ++ texts.drop root.length := by
    obtain ⟨rest, rfl⟩ := h.grown
    simp
  have hdoc : lines texts =
      base ++ theoremStatement ++ ['\n'] ++ lines (texts.drop root.length) := by
    rw [← hbase, ← lines_append, ← htexts]
  have hown : base ++ script ++ ['\n'] = base ++ theoremStatement ++ ['\n'] ++ lines tactics := by
    rw [List.append_assoc, hscript]
    simp
  have hle := h.grown.length_le
  rw [hdoc, hown, List.append_right_inj]
  constructor
  · intro heq
    have hall := eq_of_sublist_of_lines_eq hsub heq.symm
    have hcount := congrArg List.length hall
    rw [List.length_drop] at hcount
    omega
  · intro hcount
    have hall : tactics = texts.drop root.length := hsub.eq_of_length (by
      rw [List.length_drop]
      omega)
    rw [hall]

end Tracks

/-- The selected node is the one made last. -/
def Moment.SelectsNewest {G : Gym} {V : Type} (m : Moment G V) : Prop :=
  m.selected + 1 = m.treeSize

/-- Every text inserted since the root made a node. -/
def Moment.EveryTextMadeNode {G : Gym} {V : Type} (root : G.State) (m : Moment G V) : Prop :=
  (G.texts m.gym).length + 1 = (G.texts root).length + m.treeSize

/-- The document is what the node's own script makes of the document in front of the statement. -/
def Moment.OwnDocument {G : Gym} {V : Type} (theoremStatement : Text) (root : G.State)
    (m : Moment G V) : Prop :=
  ∃ base, G.document root = base ++ theoremStatement ++ ['\n'] ∧
    G.document m.gym = base ++ m.node.currentTheorem ++ ['\n']

section Steps

variable {G : Gym} {V : Type}

theorem Gym.texts_prefix_step (tactic : Text) (gym : G.State) :
    G.texts gym <+: G.texts (G.step tactic gym).1 := by
  rcases G.texts_step tactic gym with h | h <;> rw [h]
  exact List.prefix_append _ _

theorem length_scripts (nodes : List (Node V)) : (scripts nodes).length = nodes.length :=
  List.length_map _

theorem scripts_modify {nodes : List (Node V)} {state : ℕ} {f : Node V → Node V}
    (htheorem : ∀ node, (f node).currentTheorem = node.currentTheorem)
    (hdepth : ∀ node, (f node).proofDepth = node.proofDepth) :
    scripts (nodes.modify state f) = scripts nodes := by
  apply List.ext_getElem?
  intro k
  simp only [scripts, List.getElem?_map, List.getElem?_modify]
  by_cases hk : state = k
  · cases nodes[k]? <;> simp [hk, htheorem, hdepth]
  · cases nodes[k]? <;> simp [hk]

theorem scripts_backup [Add V] (nodes : List (Node V)) (states : List ℕ) (value : V) :
    scripts (backup nodes states value) = scripts nodes := by
  induction states generalizing nodes with
  | nil => rfl
  | cons state states ih =>
    rw [backup, List.foldl_cons, ← backup, ih]
    exact scripts_modify (fun _ => rfl) fun _ => rfl

theorem scripts_setFeedback (s : SearchState G V) (state : ℕ) (feedback : Option Text) :
    scripts (s.setFeedback state feedback).nodes = scripts s.nodes :=
  scripts_modify (fun _ => rfl) fun _ => rfl

theorem scripts_addChild [Add V] (s : SearchState G V) (searchTrajectory : List ℕ) (state : ℕ)
    (childState : Node V) (recommendation : Text) :
    scripts (s.addChild searchTrajectory state childState recommendation).nodes =
      scripts s.nodes ++ [(childState.currentTheorem, childState.proofDepth)] := by
  have hparent : scripts (s.nodes.modify state fun node =>
      { node with children := node.children ++ [s.nodes.length] }) = scripts s.nodes :=
    scripts_modify (fun _ => rfl) fun _ => rfl
  rw [SearchState.addChild, scripts_backup, scripts, List.map_append, ← scripts, hparent]
  rfl

structure Moment.At (m : Moment G V) (s : SearchState G V) : Prop where
  node : (scripts s.nodes)[m.selected]? = some (m.node.currentTheorem, m.node.proofDepth)
  size : m.treeSize = s.nodes.length
  gym : G.texts s.gym <+: G.texts m.gym

inductive Expanded (s : SearchState G V) : Option (Moment G V) → SearchState G V → Prop
  | idle {s' : SearchState G V} (nodes : scripts s'.nodes = scripts s.nodes)
      (gym : G.texts s.gym <+: G.texts s'.gym) : Expanded s none s'
  | kept {m : Moment G V} {s' : SearchState G V} (moment : m.At s)
      (nodes : scripts s'.nodes = scripts s.nodes)
      (gym : G.texts m.gym <+: G.texts s'.gym) : Expanded s (some m) s'
  | made {m : Moment G V} {s' : SearchState G V} {tactic : Text} (moment : m.At s)
      (nodes : scripts s'.nodes = scripts s.nodes ++
        [(m.node.currentTheorem ++ '\n' :: tactic, m.node.proofDepth + 1)])
      (gym : G.texts m.gym ++ [tactic] <+: G.texts s'.gym) : Expanded s (some m) s'

/-- A node's depth is its number in a tree without branches. -/
def Straight (nodes : List (Text × ℕ)) : Prop :=
  ∀ (k : ℕ) (script : Text) (depth : ℕ), nodes[k]? = some (script, depth) → depth = k

theorem Straight.child {nodes : List (Text × ℕ)} (h : Straight nodes) {k depth : ℕ}
    {script tactic : Text} (hk : nodes[k]? = some (script, depth))
    (hnewest : k + 1 = nodes.length) :
    Straight (nodes ++ [(script ++ '\n' :: tactic, depth + 1)]) := by
  intro j script' depth' hj
  rcases getElem?_append_singleton_cases hj with hold | ⟨rfl, hnew⟩
  · exact h j script' depth' hold
  · have hdepth := h k script depth hk
    have hdepth' := congrArg Prod.snd hnew
    dsimp only at hdepth'
    omega

/-- In a tree without branches the document is the selected node's own exactly when the node is
the newest and every text has made one. -/
theorem Moment.At.ownDocument_iff {theoremStatement base : Text} {root : G.State}
    {s : SearchState G V} {m : Moment G V} (hm : m.At s)
    (h : Tracks theoremStatement (G.texts root) (G.texts s.gym) (scripts s.nodes))
    (hstraight : Straight (scripts s.nodes))
    (hbase : G.document root = base ++ theoremStatement ++ ['\n']) :
    m.OwnDocument theoremStatement root ↔ m.SelectsNewest ∧ m.EveryTextMadeNode root := by
  have hthen := h.grow hm.gym
  have hdepth := hstraight _ _ _ hm.node
  have hmade := hthen.made
  have hselected := (List.getElem?_eq_some_iff.mp hm.node).1
  have hsize := hm.size
  rw [length_scripts] at hmade hselected
  have hown : m.OwnDocument theoremStatement root ↔
      G.document m.gym = base ++ m.node.currentTheorem ++ ['\n'] := by
    constructor
    · rintro ⟨base', hroot, hdoc⟩
      have hb : base' = base := by
        rw [hbase, List.append_assoc, List.append_assoc] at hroot
        exact (List.append_cancel_right hroot).symm
      rw [hdoc, hb]
    · exact fun hdoc => ⟨base, hbase, hdoc⟩
  rw [hown, Gym.document, hthen.document_eq_iff hm.node hbase, Moment.SelectsNewest,
    Moment.EveryTextMadeNode]
  constructor
  · intro hcount
    exact ⟨by omega, by omega⟩
  · rintro ⟨hnewest, hevery⟩
    omega

/-- The tree and the document behind an expansion. -/
theorem Expanded.tracks {theoremStatement : Text} {root : List Text} {s s' : SearchState G V}
    {m : Option (Moment G V)} (hs : Expanded s m s')
    (h : Tracks theoremStatement root (G.texts s.gym) (scripts s.nodes)) :
    Tracks theoremStatement root (G.texts s'.gym) (scripts s'.nodes) := by
  cases hs with
  | idle nodes gym => exact nodes ▸ h.grow gym
  | kept moment nodes gym => exact nodes ▸ (h.grow moment.gym).grow gym
  | made moment nodes gym => exact nodes ▸ ((h.grow moment.gym).child moment.node).grow gym

/-- An expansion at the newest node makes no branch. -/
theorem Expanded.straight {s s' : SearchState G V} {m : Option (Moment G V)} (hs : Expanded s m s')
    (h : Straight (scripts s.nodes)) (hnewest : ∀ n, m = some n → n.SelectsNewest) :
    Straight (scripts s'.nodes) := by
  cases hs with
  | idle nodes gym => exact nodes ▸ h
  | kept moment nodes gym => exact nodes ▸ h
  | made moment nodes gym =>
    rw [nodes]
    refine h.child moment.node ?_
    rw [length_scripts, ← moment.size]
    exact hnewest _ rfl

theorem Expanded.moment {s s' : SearchState G V} {m : Moment G V} (hs : Expanded s (some m) s') :
    m.At s := by
  cases hs with
  | kept moment _ _ => exact moment
  | made moment _ _ => exact moment

variable [Zero V] [One V] [Add V] (P : Policy V) (maxTrialsPerGoal : ℤ) (iStep : ℕ)

/-- Behind an accepted tactic the child is made, or an exception leaves the tree as it was. -/
theorem acceptTactic_cases (s : SearchState G V) (searchTrajectory : List ℕ) (state : ℕ)
    (node : Node V) (targetGoalId : ℕ) (tactic : Text) :
    let s' := acceptTactic P iStep s searchTrajectory state node targetGoalId tactic
    G.texts s.gym <+: G.texts s'.gym ∧
      (scripts s'.nodes = scripts s.nodes ∨
        scripts s'.nodes = scripts s.nodes ++
          [(node.currentTheorem ++ '\n' :: tactic, node.proofDepth + 1)]) := by
  have hgym := G.texts_openSubgoals s.gym
  unfold acceptTactic
  split
  · rename_i gym e hopen
    rw [hopen] at hgym
    exact ⟨hgym, Or.inl (scripts_setFeedback _ _ _)⟩
  · rename_i gym newSubgoals hopen
    rw [hopen] at hgym
    dsimp only
    split
    · exact ⟨hgym, Or.inl (scripts_setFeedback _ _ _)⟩
    · split
      · exact ⟨hgym, Or.inl (scripts_setFeedback _ _ _)⟩
      · exact ⟨hgym, Or.inr (scripts_addChild _ _ _ _ _)⟩

theorem expand_cases (s : SearchState G V) (searchTrajectory : List ℕ) {state : ℕ} {node : Node V}
    (hnode : s.nodes[state]? = some node) (targetGoalId : ℕ) (tactic : Text) :
    Expanded s (expand P iStep s searchTrajectory state node targetGoalId tactic).1
      (expand P iStep s searchTrajectory state node targetGoalId tactic).2 := by
  have htried : scripts (s.modifyNode state (·.recordTrial targetGoalId tactic)).nodes =
      scripts s.nodes :=
    scripts_modify (fun _ => rfl) fun _ => rfl
  have hlen : (s.modifyNode state (·.recordTrial targetGoalId tactic)).nodes.length =
      s.nodes.length := by
    rw [← length_scripts, htried, length_scripts]
  have hscript : (scripts s.nodes)[state]? =
      some ((node.recordTrial targetGoalId tactic).currentTheorem,
        (node.recordTrial targetGoalId tactic).proofDepth) := by
    rw [scripts, List.getElem?_map, hnode]
    rfl
  unfold expand
  dsimp only
  split
  · rename_i gym e hopen
    change G.openSubgoals s.gym = _ at hopen
    have hgym := G.texts_openSubgoals s.gym
    rw [hopen] at hgym
    exact .idle ((scripts_setFeedback _ _ _).trans htried) hgym
  · rename_i gym subgoals hopen
    change G.openSubgoals s.gym = _ at hopen
    have hgym := G.texts_openSubgoals s.gym
    rw [hopen] at hgym
    have hstep := G.texts_prefix_step tactic gym
    split
    · rename_i gym' e hresult
      rw [hresult] at hstep
      exact .kept ⟨hscript, hlen, hgym⟩ ((scripts_setFeedback _ _ _).trans htried) hstep
    · rename_i gym' result hresult
      rw [hresult] at hstep
      split
      · rename_i haccepted
        have htexts := G.texts_accepted tactic gym result (by rw [hresult]) haccepted
        rw [hresult] at htexts
        obtain ⟨hgrown, hkept | hmade⟩ := acceptTactic_cases P iStep
          { s.modifyNode state (·.recordTrial targetGoalId tactic) with gym := gym' }
          searchTrajectory state (node.recordTrial targetGoalId tactic) targetGoalId tactic
        · exact .kept ⟨hscript, hlen, hgym⟩ (hkept.trans htried) (hstep.trans hgrown)
        · refine .made ⟨hscript, hlen, hgym⟩ (hmade.trans (by rw [htried])) ?_
          exact htexts ▸ hgrown
      · exact .kept ⟨hscript, hlen, hgym⟩ ((scripts_setFeedback _ _ _).trans htried) hstep

variable [LT V] [DecidableLT V]

/-- What a step of the search can do: raise, return a proof, or go on behind an expansion. -/
inductive Stepped (s : SearchState G V) : Option (Moment G V) × Progress G V → Prop
  | raised (e : Text) : Stepped s (none, .ends (.raised e))
  | proved {m : Moment G V} {result : ProofResult} (moment : m.At s)
      (complete : m.node.isComplete = true) (success : result.success = true) :
      Stepped s (none, .ends (.proved m result))
  | continues {m : Option (Moment G V)} {s' : SearchState G V} (expanded : Expanded s m s') :
      Stepped s (m, .continues s')

theorem searchStep_cases (s : SearchState G V) :
    Stepped s (searchStep P maxTrialsPerGoal iStep s) := by
  have hidle : ∀ (state : ℕ) (f : Node V → Node V),
      (∀ node, (f node).currentTheorem = node.currentTheorem) →
      (∀ node, (f node).proofDepth = node.proofDepth) →
      Stepped s (none, .continues (s.modifyNode state f)) := fun state f htheorem hdepth =>
    .continues (.idle (scripts_modify htheorem hdepth) (List.prefix_refl _))
  unfold searchStep
  split
  · exact .raised _
  · rename_i searchTrajectory hselect
    split
    · exact .raised _
    · rename_i state hlast
      have hnode : s.nodes[(state : ℕ)]? = some s.nodes[state] := by simp
      dsimp only
      split
      · rename_i hcomplete
        split
        · exact .raised _
        · refine .proved ⟨?_, rfl, List.prefix_refl _⟩ hcomplete rfl
          rw [scripts, List.getElem?_map, hnode]
          rfl
      · split
        · exact hidle _ _ (fun _ => rfl) fun _ => rfl
        · split
          · exact .raised _
          · split
            · exact hidle _ _ (fun _ => rfl) fun _ => rfl
            · exact .continues (expand_cases P iStep s _ hnode _ _)

end Steps

end Mcts
end IsabelleGym
