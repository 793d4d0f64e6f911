import IsabelleGym.MctsSelect
import IsabelleGym.MctsTrials

/-!
# Exhausted subtrees

A node is marked where its agent has no tactic for it, and its subtree along
with it where those of its children are. A backup takes marks away only: each
node on its path has a child whose subtree is not exhausted.
-/

namespace IsabelleGym
namespace Mcts

open GrowingTree

variable {G : Gym} {V : Type}

/-- A subtree that is marked has an exhausted node at its top and marked subtrees below it, and
exhausted nodes are incomplete. -/
structure Settled (nodes : List (Node V)) : Prop where
  linked : Linked (parents nodes) (nodes.map Node.children)
  aligned : ∀ node ∈ nodes, node.Aligned
  incomplete : ∀ k : ℕ, (nodes.map Node.exhausted)[k]? = some true →
    (nodes.map Node.isComplete)[k]? = some false
  exhausted : ∀ k : ℕ, (nodes.map Node.subtreeExhausted)[k]? = some true →
    (nodes.map Node.exhausted)[k]? = some true
  below : ∀ k c : ℕ, (nodes.map Node.subtreeExhausted)[k]? = some true →
    (parents nodes)[c]? = some (some k) → (nodes.map Node.subtreeExhausted)[c]? = some true

/-- Below the root, no node of a selected trajectory is marked. -/
def Policy.AvoidsExhausted (P : Policy V) : Prop :=
  ∀ iStep nodes searchTrajectory, P.select iStep nodes = .ok searchTrajectory →
    ∀ k ∈ searchTrajectory, k.val ≠ 0 → (nodes.get k).subtreeExhausted = false

theorem SimpleAgent.policy_avoidsExhausted [Add V] [Mul V] [Div V] [NatCast V] [LT V]
    [DecidableLT V] (A : SimpleAgent V)
    (recommendTactic : ℕ → List (Node V) → Node V → ℕ → Except Text (Option Text))
    (evaluatePriorities : ℕ → List (Node V) → Node V → Except Text (List V))
    (estimate : ℕ → List (Node V) → Node V → Except Text V) :
    (A.policy recommendTactic evaluatePriorities estimate).AvoidsExhausted := by
  intro iStep nodes searchTrajectory hselect k hk hroot
  obtain rfl := Except.ok.inj hselect
  exact subtreeExhausted_of_mem_select hk hroot

/-- In every marked subtree all nodes are exhausted and incomplete. -/
theorem Settled.of_mem_subtree {nodes : List (Node V)} (h : Settled nodes) {j k : ℕ}
    (hk : (nodes.map Node.subtreeExhausted)[k]? = some true) (hj : j ∈ subtree (parents nodes) k) :
    (nodes.map Node.exhausted)[j]? = some true ∧
      (nodes.map Node.isComplete)[j]? = some false := by
  have hmarked : ∀ j, k ∈ ancestry (parents nodes) j →
      (nodes.map Node.subtreeExhausted)[j]? = some true := by
    intro j
    induction j using Nat.strongRecOn with
    | ind j ih =>
      intro hmem
      rw [ancestry] at hmem
      rcases List.mem_cons.mp hmem with rfl | hmem
      · exact hk
      · split at hmem
        · rename_i p hp
          split_ifs at hmem with hlt
          · exact h.below p j (ih p hlt hmem) hp
          · cases hmem
        · cases hmem
  have hexhausted := h.exhausted j (hmarked j (mem_subtree.mp hj).2)
  exact ⟨hexhausted, h.incomplete j hexhausted⟩

theorem settled_searchStart [Zero V] [One V] (theoremStatement : Text) (gym : G.State)
    (subgoals : List Text) (value : V) :
    Settled (searchStart theoremStatement gym subgoals value).nodes where
  linked := linked_root
  aligned := searchStart_aligned theoremStatement gym subgoals value
  incomplete k h := by cases k <;> simp [searchStart, Node.make] at h
  exhausted k h := by cases k <;> simp [searchStart, Node.make] at h
  below k c h := by cases k <;> simp [searchStart, Node.make] at h

section Backup

theorem childrenExhausted_eq_true {nodes : List (Node V)} {node : Node V} :
    childrenExhausted nodes node = true ↔
      ∀ c ∈ node.children, (nodes.map Node.subtreeExhausted)[c]? = some true := by
  rw [childrenExhausted, List.all_eq_true]
  refine forall₂_congr fun c _ => ?_
  rw [List.getElem?_map]
  cases nodes[c]?.map Node.subtreeExhausted <;> simp

/-- Where each node of the path has a child whose subtree is not exhausted, a backup takes the
marks of the path away. -/
theorem subtreeExhausted_backup [Add V] {nodes : List (Node V)} {path : List ℕ} {value : V}
    (h : ∀ k ∈ path, ∀ cs, (nodes.map Node.children)[k]? = some cs →
      ∃ c ∈ cs, (nodes.map Node.subtreeExhausted)[c]? ≠ some true) :
    (backup nodes path value).map Node.subtreeExhausted =
      changeAlong (fun _ => false) path (nodes.map Node.subtreeExhausted) := by
  induction path generalizing nodes with
  | nil => rfl
  | cons k path ih =>
    have hmodify : (nodes.modify k fun node =>
        { node with
          totalValue := node.totalValue + value
          visitCount := node.visitCount + 1
          subtreeExhausted :=
            if node.children.isEmpty then node.subtreeExhausted
            else childrenExhausted nodes node && node.exhausted }).map Node.subtreeExhausted =
        (nodes.map Node.subtreeExhausted).modify k fun _ => false := by
      apply List.ext_getElem?
      intro i
      rw [List.getElem?_map, List.getElem?_modify, List.getElem?_modify, List.getElem?_map]
      cases hi : nodes[i]? with
      | none => rfl
      | some node =>
        by_cases hk : k = i
        · subst hk
          obtain ⟨c, hc, hmark⟩ := h k List.mem_cons_self node.children
            (by rw [List.getElem?_map, hi]; rfl)
          have hchildren : childrenExhausted nodes node = false := by
            rw [← Bool.not_eq_true, childrenExhausted_eq_true]
            exact fun hall => hmark (hall c hc)
          have hne : node.children ≠ [] := List.ne_nil_of_mem hc
          simp [hchildren, hne]
        · simp [hk]
    rw [backup, List.foldl_cons, ← backup, ih, hmodify]
    · rfl
    · intro j hj cs hcs
      rw [hmodify]
      rw [map_modify_of_eq (by intro; rfl)] at hcs
      obtain ⟨c, hc, hmark⟩ := h j (List.mem_cons_of_mem k hj) cs hcs
      refine ⟨c, hc, ?_⟩
      rw [List.getElem?_modify]
      cases hflag : (nodes.map Node.subtreeExhausted)[c]? with
      | none => simp
      | some b =>
        rw [hflag] at hmark
        by_cases hk : k = c <;> simp_all

theorem exists_next_of_isChain {R : ℕ → ℕ → Prop} {path : List ℕ} (h : path.IsChain R) {k last : ℕ}
    (hlast : path.getLast? = some last) (hk : k ∈ path) : k = last ∨ ∃ c ∈ path, R k c := by
  induction path with
  | nil => cases hk
  | cons a path ih =>
    cases path with
    | nil =>
      obtain rfl := List.mem_singleton.mp hk
      exact Or.inl (Option.some.inj hlast)
    | cons b path =>
      obtain ⟨hab, hrest⟩ := List.isChain_cons_cons.mp h
      rcases List.mem_cons.mp hk with rfl | hk
      · exact Or.inr ⟨b, by simp, hab⟩
      · rw [List.getLast?_cons_cons] at hlast
        rcases ih hrest hlast hk with rfl | ⟨c, hc, hR⟩
        · exact Or.inl rfl
        · exact Or.inr ⟨c, List.mem_cons_of_mem a hc, hR⟩

end Backup

section Steps

def Node.giveUp (subtreeExhausted : Bool) (node : Node V) : Node V :=
  { node with
    tacticFeedback := none
    exhausted := true
    subtreeExhausted }

theorem Settled.of_map_eq {nodes nodes' : List (Node V)} (h : Settled nodes)
    (haligned : ∀ node ∈ nodes', node.Aligned) (hparents : parents nodes' = parents nodes)
    (hchildren : nodes'.map Node.children = nodes.map Node.children)
    (hcomplete : nodes'.map Node.isComplete = nodes.map Node.isComplete)
    (hexhausted : nodes'.map Node.exhausted = nodes.map Node.exhausted)
    (hmarks : nodes'.map Node.subtreeExhausted = nodes.map Node.subtreeExhausted) :
    Settled nodes' := by
  constructor
  · rw [hparents, hchildren]
    exact h.linked
  · exact haligned
  · rw [hexhausted, hcomplete]
    exact h.incomplete
  · rw [hmarks, hexhausted]
    exact h.exhausted
  · rw [hmarks, hparents]
    exact h.below

/-- The end of a trajectory whose agent has no tactic for it. -/
theorem Settled.noTactic {s : SearchState G V} (h : Settled s.nodes) {state : ℕ} {node : Node V}
    (hnode : s.nodes[state]? = some node) (hincomplete : node.isComplete = false)
    (hroot : state ≠ 0 → (s.nodes.map Node.subtreeExhausted)[state]? ≠ some true)
    (haligned : ∀ node' ∈ s.nodes.modify state (·.giveUp (childrenExhausted s.nodes node)),
      node'.Aligned) :
    Settled (s.nodes.modify state (·.giveUp (childrenExhausted s.nodes node))) := by
  have hchildren : (s.nodes.map Node.children)[state]? = some node.children := by
    rw [List.getElem?_map, hnode]
    rfl
  constructor
  · rw [parents_modify (by intro; rfl), map_modify_of_eq (by intro; rfl)]
    exact h.linked
  · exact haligned
  · intro k hk
    rw [map_modify_const true (by intro; rfl), List.getElem?_modify] at hk
    rw [map_modify_of_eq (by intro; rfl)]
    by_cases hstate : state = k
    · subst hstate
      rw [List.getElem?_map, hnode, Option.map_some, hincomplete]
    · exact h.incomplete k (by simpa [hstate] using hk)
  · intro k hk
    rw [map_modify_const (childrenExhausted s.nodes node) (by intro; rfl),
      List.getElem?_modify] at hk
    rw [map_modify_const true (by intro; rfl), List.getElem?_modify]
    by_cases hstate : state = k
    · subst hstate
      simp [hnode]
    · simpa [hstate] using h.exhausted k (by simpa [hstate] using hk)
  · intro k c hk hc
    rw [map_modify_const (childrenExhausted s.nodes node) (by intro; rfl),
      List.getElem?_modify] at hk ⊢
    rw [parents_modify (by intro; rfl)] at hc
    by_cases hstate : state = k
    · subst hstate
      have hmark : childrenExhausted s.nodes node = true := by simpa [hnode] using hk
      have hold := childrenExhausted_eq_true.mp hmark c
        ((h.linked.child state node.children c hchildren).mpr hc)
      rw [hold]
      split_ifs <;> simp [hmark]
    · have hold := h.below k c (by simpa [hstate] using hk) hc
      have hne : state ≠ c := by
        rintro rfl
        have hzero : state ≠ 0 := by
          rintro rfl
          rw [(h.linked.root 0).mpr rfl] at hc
          cases hc
        exact hroot hzero hold
      simpa [hne] using hold

/-- A child below the end of a trajectory without marks below the root. -/
theorem Settled.addChild [Add V] {nodes : List (Node V)} (h : Settled nodes)
    {searchTrajectory : List ℕ} {state : ℕ} (hpath : RootPath nodes searchTrajectory)
    (hlast : searchTrajectory.getLast? = some state) (hstate : state < nodes.length)
    (havoid : ∀ k ∈ searchTrajectory, k ≠ 0 →
      (nodes.map Node.subtreeExhausted)[k]? ≠ some true)
    {child : Node V} (hparent : child.parent = some state) (hchildren : child.children = [])
    (hexhausted : child.exhausted = false) (hmark : child.subtreeExhausted = false) {value : V}
    (haligned : ∀ node ∈ backup (withChild nodes state child) searchTrajectory value,
      node.Aligned) :
    Settled (backup (withChild nodes state child) searchTrajectory value) := by
  have hmem : state ∈ searchTrajectory := List.mem_of_getLast? hlast
  have hlen : (parents nodes).length = nodes.length := List.length_map _
  have hnodup : searchTrajectory.Nodup := by
    rw [← List.nodup_reverse, hpath.reverse_eq h.linked hlast]
    exact ancestry_nodup _ _
  have hmarks : (withChild nodes state child).map Node.subtreeExhausted =
      nodes.map Node.subtreeExhausted ++ [false] := by
    rw [map_withChild (f := id) _ _ _ fun _ => rfl, List.modify_id, hmark]
  have hbackup : (backup (withChild nodes state child) searchTrajectory value).map
      Node.subtreeExhausted =
      changeAlong (fun _ => false) searchTrajectory
        (nodes.map Node.subtreeExhausted ++ [false]) := by
    rw [← hmarks]
    apply subtreeExhausted_backup
    intro k hk cs hcs
    rw [map_withChild (f := (· ++ [nodes.length])) _ _ _ fun _ => rfl] at hcs
    rw [hmarks]
    have hgrown : ∀ node, nodes[k]? = some node →
        cs = if state = k then node.children ++ [nodes.length] else node.children := by
      intro node hnode
      rw [List.getElem?_append_left (by simpa using (List.getElem?_eq_some_iff.mp hnode).1),
        List.getElem?_modify, List.getElem?_map, hnode] at hcs
      exact (Option.some.inj hcs).symm
    rcases exists_next_of_isChain hpath.chain hlast hk with rfl | ⟨c, hc, node, hnode, hchild⟩
    · refine ⟨nodes.length, ?_, ?_⟩
      · rw [hgrown _ (List.getElem?_eq_getElem hstate), if_pos rfl]
        simp
      · rw [List.getElem?_append_right (by simp)]
        simp
    · have hcparent := (h.linked.child k node.children c
        (by rw [List.getElem?_map, hnode]; rfl)).mp hchild
      have hzero : c ≠ 0 := by
        rintro rfl
        rw [(h.linked.root 0).mpr rfl] at hcparent
        cases hcparent
      have hclt : c < (nodes.map Node.subtreeExhausted).length := by
        rw [List.length_map, ← hlen]
        exact (List.getElem?_eq_some_iff.mp hcparent).1
      refine ⟨c, ?_, ?_⟩
      · rw [hgrown node hnode]
        split_ifs
        · exact List.mem_append_left _ hchild
        · exact hchild
      · rw [List.getElem?_append_left hclt]
        exact havoid c hc hzero
  have hold : ∀ k : ℕ, ((backup (withChild nodes state child) searchTrajectory value).map
      Node.subtreeExhausted)[k]? = some true →
      k ∉ searchTrajectory ∧ (nodes.map Node.subtreeExhausted)[k]? = some true := by
    intro k hk
    rw [hbackup, getElem?_changeAlong _ hnodup] at hk
    obtain ⟨b, hb, hbk⟩ := Option.map_eq_some_iff.mp hk
    by_cases hpathk : k ∈ searchTrajectory
    · simp [hpathk] at hbk
    · obtain rfl : b = true := by simpa [hpathk] using hbk
      refine ⟨hpathk, ?_⟩
      rcases getElem?_concat_eq_some.mp hb with hb | ⟨_, hb⟩
      · exact hb
      · cases hb
  constructor
  · exact linked_addChild h.linked hstate hparent hchildren searchTrajectory value
  · exact haligned
  · intro k hk
    rw [map_addChild (fun _ _ => rfl) (fun _ _ _ _ => rfl)] at hk ⊢
    rcases getElem?_concat_eq_some.mp hk with hk | ⟨_, hk⟩
    · exact getElem?_concat_eq_some.mpr (Or.inl (h.incomplete k hk))
    · rw [hexhausted] at hk
      cases hk
  · intro k hk
    have hexh := h.exhausted k (hold k hk).2
    rw [map_addChild (fun _ _ => rfl) (fun _ _ _ _ => rfl)]
    exact getElem?_concat_eq_some.mpr (Or.inl hexh)
  · intro k c hk hc
    obtain ⟨hkpath, hkmark⟩ := hold k hk
    rw [parents_addChild] at hc
    rcases getElem?_concat_eq_some.mp hc with hc | ⟨_, hc⟩
    · have hcmark := h.below k c hkmark hc
      have hcpath : c ∉ searchTrajectory := by
        intro hcpath
        refine havoid c hcpath ?_ hcmark
        rintro rfl
        rw [(h.linked.root 0).mpr rfl] at hc
        cases hc
      rw [hbackup, getElem?_changeAlong _ hnodup, getElem?_concat_eq_some.mpr (Or.inl hcmark)]
      simp [hcpath]
    · rw [hparent] at hc
      obtain rfl := Option.some.inj hc
      exact absurd hmem hkpath

theorem modify_congr {α : Type*} {l : List α} {i : ℕ} {a : α} {f f' : α → α} (h : l[i]? = some a)
    (hf : f a = f' a) : l.modify i f = l.modify i f' := by
  apply List.ext_getElem?
  intro k
  rw [List.getElem?_modify, List.getElem?_modify]
  by_cases hk : i = k
  · subst hk
    simp [h, hf]
  · simp [hk]

variable [Zero V] [One V] [Add V] [LT V] [DecidableLT V]
variable {P : Policy V} {maxTrialsPerGoal : ℤ} {iStep : ℕ}

theorem Grown.settled {s : SearchState G V} {searchTrajectory : List ℕ} {state : ℕ}
    {node : Node V} {m : Option (Moment G V)} {nodes' : List (Node V)}
    (h : Grown P maxTrialsPerGoal iStep s searchTrajectory state node m nodes')
    (hs : Settled s.nodes)
    (hnode : s.nodes[state]? = some node) (hincomplete : node.isComplete = false)
    (hpath : RootPath s.nodes searchTrajectory)
    (hlast : searchTrajectory.getLast? = some state)
    (havoid : ∀ k ∈ searchTrajectory, k ≠ 0 →
      (s.nodes.map Node.subtreeExhausted)[k]? ≠ some true) : Settled nodes' := by
  have hstate : state < s.nodes.length := (List.getElem?_eq_some_iff.mp hnode).1
  have haligned := h.aligned hs.aligned
  have hrecord : ∀ targetGoalId tactic,
      Settled (s.nodes.modify state (·.recordTrial targetGoalId tactic)) := by
    intro targetGoalId tactic
    exact hs.of_map_eq
      (Node.aligned_modify hs.aligned (fun node => node.shape_recordTrial _ _) state)
      (parents_modify (by intro; rfl) _ _) (map_modify_of_eq (by intro; rfl) _ _)
      (map_modify_of_eq (by intro; rfl) _ _) (map_modify_of_eq (by intro; rfl) _ _)
      (map_modify_of_eq (by intro; rfl) _ _)
  cases h with
  | noGoal hgoal =>
    obtain ⟨hcomplete, _⟩ | ⟨_, g, hg, _⟩ :=
      (hs.aligned node (List.mem_of_getElem? hnode)).activeGoalId_cases
    · rw [hcomplete] at hincomplete
      cases hincomplete
    · rw [hg] at hgoal
      cases hgoal
  | noTactic =>
    have heq : s.nodes.modify state (fun node =>
        { node with
          tacticFeedback := none
          exhausted := true
          subtreeExhausted := childrenExhausted s.nodes node }) =
        s.nodes.modify state (·.giveUp (childrenExhausted s.nodes node)) :=
      modify_congr hnode rfl
    rw [heq] at haligned ⊢
    exact hs.noTactic hnode hincomplete (havoid state (List.mem_of_getLast? hlast)) haligned
  | failed feedback hgoal hle hm =>
    exact (hrecord _ _).of_map_eq haligned (parents_modify (by intro; rfl) _ _)
      (map_modify_of_eq (by intro; rfl) _ _) (map_modify_of_eq (by intro; rfl) _ _)
      (map_modify_of_eq (by intro; rfl) _ _) (map_modify_of_eq (by intro; rfl) _ _)
  | @made _ targetGoalId tactic newSubgoals priorities script depth value hgoal hle hm =>
    refine (hrecord targetGoalId tactic).addChild ?_ hlast (by simpa using hstate) ?_
      (estimatedChild_parent ..) rfl rfl rfl haligned
    · exact hpath.of_map_children (map_modify_of_eq (by intro; rfl) _ _)
    · rw [map_modify_of_eq (by intro; rfl)]
      exact havoid

theorem settled_searchAfter (hP : P.SelectsPaths) (havoid : P.AvoidsExhausted)
    {s : SearchState G V} (hs : Settled s.nodes) (n : ℕ) {t : SearchState G V}
    (ht : searchAfter P maxTrialsPerGoal s n = some t) : Settled t.nodes := by
  induction n generalizing t with
  | zero =>
    cases ht
    exact hs
  | succ n ih =>
    obtain ⟨u, hu, hnext⟩ := Option.bind_eq_some_iff.mp ht
    obtain ⟨searchTrajectory, state, hselect, hlast, hincomplete, hgrown⟩ :=
      searchStep_grown (Prod.ext rfl (Progress.eq_continues_of_next hnext))
    refine hgrown.settled (ih hu) (List.getElem?_eq_getElem state.isLt) hincomplete
      (hP _ _ _ hselect) (by simp [hlast]) ?_
    intro k hk hroot
    obtain ⟨state', hmem, rfl⟩ := List.mem_map.mp hk
    have hmark := havoid _ _ _ hselect state' hmem hroot
    rw [List.getElem?_map, List.getElem?_eq_getElem state'.isLt]
    simpa using hmark

end Steps

section Soundness

variable [Zero V] [One V] [Add V] [Mul V] [Div V] [NatCast V] [LT V] [DecidableLT V]

/-- At every step of the search by upper confidence bounds, a subtree that is given up consists of
nodes that are exhausted, and none of them has a finished proof. -/
theorem exhausted_of_mem_subtree (A : SimpleAgent V)
    (recommendTactic : ℕ → List (Node V) → Node V → ℕ → Except Text (Option Text))
    (evaluatePriorities : ℕ → List (Node V) → Node V → Except Text (List V))
    (estimate : ℕ → List (Node V) → Node V → Except Text V) (maxTrialsPerGoal : ℤ)
    (theoremStatement : Text) (gym : G.State) (subgoals : List Text) (value : V) (n : ℕ)
    {t : SearchState G V}
    (ht : searchAfter (A.policy recommendTactic evaluatePriorities estimate) maxTrialsPerGoal
      (searchStart theoremStatement gym subgoals value) n = some t)
    {k : ℕ} {node : Node V} (hk : t.nodes[k]? = some node) (hmark : node.subtreeExhausted = true)
    {j : ℕ} (hj : j ∈ subtree (parents t.nodes) k) :
    ∃ node', t.nodes[j]? = some node' ∧ node'.exhausted = true ∧ node'.isComplete = false := by
  have hsettled := settled_searchAfter
    (A.policy_selectsPaths recommendTactic evaluatePriorities estimate)
    (A.policy_avoidsExhausted recommendTactic evaluatePriorities estimate)
    (settled_searchStart theoremStatement gym subgoals value) n ht
  obtain ⟨hexhausted, hincomplete⟩ := hsettled.of_mem_subtree
    (by rw [List.getElem?_map, hk, Option.map_some, hmark]) hj
  rw [List.getElem?_map] at hexhausted hincomplete
  obtain ⟨node', hnode', hflag⟩ := Option.map_eq_some_iff.mp hexhausted
  refine ⟨node', hnode', hflag, ?_⟩
  simpa [hnode'] using hincomplete

end Soundness

/-- After three steps the root is given up, and with it the child of its tactic. -/
theorem exhausted_rootSearch : ∃ t node, rootSearch 3 = some t ∧ t.nodes[0]? = some node ∧
    node.subtreeExhausted = true ∧ ∀ j ∈ subtree (parents t.nodes) 0,
      ∃ node', t.nodes[j]? = some node' ∧ node'.exhausted = true ∧ node'.isComplete = false := by
  obtain ⟨t, node, ht, hnode, hmark⟩ := exists_rootSearch_node 3 (k := 0)
    (P := Node.subtreeExhausted) (by decide +kernel)
  exact ⟨t, node, ht, hnode, hmark, fun j hj =>
    exhausted_of_mem_subtree _ _ _ _ _ _ _ _ _ 3 ht hnode hmark hj⟩

end Mcts
end IsabelleGym
