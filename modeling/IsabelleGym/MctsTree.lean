import IsabelleGym.GrowingTree
import IsabelleGym.MctsAgent

/-!
# The search tree while it grows

A step of the search marks the selected node, records a trial of it, or grows a
child below it and backs its estimate up along the trajectory. Where the
trajectories are paths of the tree, the counts and values of the nodes are
totals over their subtrees.
-/

namespace IsabelleGym
namespace Mcts

open GrowingTree

variable {G : Gym} {V : Type}

def parents (nodes : List (Node V)) : List (Option ℕ) := nodes.map Node.parent

/-- A path that starts at the root and goes on from each node to one of its children. -/
structure RootPath (nodes : List (Node V)) (searchTrajectory : List ℕ) : Prop where
  head : ∀ k, searchTrajectory.head? = some k → k = 0
  chain : searchTrajectory.IsChain fun k child =>
    ∃ node, nodes[k]? = some node ∧ child ∈ node.children

def Policy.SelectsPaths (P : Policy V) : Prop :=
  ∀ iStep nodes searchTrajectory, P.select iStep nodes = .ok searchTrajectory →
    RootPath nodes (searchTrajectory.map Fin.val)

def Progress.next : Progress G V → Option (SearchState G V)
  | .continues s => some s
  | .ends _ => none

theorem Progress.eq_continues_of_next {r : Progress G V} {s : SearchState G V}
    (h : r.next = some s) : r = .continues s := by
  cases r with
  | continues t => rw [Option.some.inj h]
  | ends _ => cases h

section Steps

variable [Zero V] [One V]

def searchStart (theoremStatement : Text) (gym : G.State) (subgoals : List Text) (value : V) :
    SearchState G V :=
  { gym
    nodes := [{ Node.make subgoals (List.replicate subgoals.length 0) theoremStatement 0 none none
      with totalValue := value }] }

def estimatedChild (state : ℕ) (newSubgoals : List Text) (priorities : List V) (script : Text)
    (depth targetGoalId : ℕ) (value : V) : Node V :=
  { Node.make newSubgoals priorities script depth (some state) (some targetGoalId) with
    totalValue := value }

theorem estimatedChild_parent (state : ℕ) (newSubgoals : List Text) (priorities : List V)
    (script : Text) (depth targetGoalId : ℕ) (value : V) :
    (estimatedChild state newSubgoals priorities script depth targetGoalId value).parent =
      some state := rfl

theorem estimatedChild_totalValue (state : ℕ) (newSubgoals : List Text) (priorities : List V)
    (script : Text) (depth targetGoalId : ℕ) (value : V) :
    (estimatedChild state newSubgoals priorities script depth targetGoalId value).totalValue =
      value := rfl

variable [Add V] [LT V] [DecidableLT V]
variable (P : Policy V) (maxTrialsPerGoal : ℤ) (iStep : ℕ)

def searchAfter (s : SearchState G V) : ℕ → Option (SearchState G V)
  | 0 => some s
  | n + 1 => (searchAfter s n).bind fun s => (searchStep P maxTrialsPerGoal n s).2.next

def withChild (nodes : List (Node V)) (state : ℕ) (child : Node V) : List (Node V) :=
  nodes.modify state (fun node => { node with children := node.children ++ [nodes.length] }) ++
    [child]

inductive Grown (s : SearchState G V) (searchTrajectory : List ℕ) (state : ℕ) (node : Node V) :
    Option (Moment G V) → List (Node V) → Prop
  | noGoal : node.activeGoalId = none →
    Grown s searchTrajectory state node none (s.nodes.modify state fun node =>
      { node with exhausted := true, subtreeExhausted := true })
  | noTactic :
    Grown s searchTrajectory state node none (s.nodes.modify state fun node =>
      { node with
        tacticFeedback := none
        exhausted := true
        subtreeExhausted := childrenExhausted s.nodes node })
  | failed {m : Option (Moment G V)} {targetGoalId : ℕ} {tactic : Text} (feedback : Option Text) :
    node.activeGoalId = some targetGoalId →
    chooseTactic P maxTrialsPerGoal iStep s.nodes node targetGoalId = .ok (some tactic) →
    (∀ moment, m = some moment → moment.selected = state) →
    Grown s searchTrajectory state node m
      ((s.nodes.modify state (·.recordTrial targetGoalId tactic)).modify state fun node =>
        { node with tacticFeedback := feedback })
  | made {m : Option (Moment G V)} {targetGoalId : ℕ} {tactic : Text} (newSubgoals : List Text)
      (priorities : List V) (script : Text) (depth : ℕ) (value : V) :
    node.activeGoalId = some targetGoalId →
    chooseTactic P maxTrialsPerGoal iStep s.nodes node targetGoalId = .ok (some tactic) →
    (∀ moment, m = some moment → moment.selected = state) →
    Grown s searchTrajectory state node m (backup
      (withChild (s.nodes.modify state (·.recordTrial targetGoalId tactic)) state
        (estimatedChild state newSubgoals priorities script depth targetGoalId value))
      searchTrajectory value)

variable {P maxTrialsPerGoal iStep}

omit [Zero V] [One V] [Add V] [LT V] [DecidableLT V] in
theorem chooseTactic_eq_some {nodes : List (Node V)} {node : Node V} {targetGoalId : ℕ}
    {tactic : Text}
    (h : chooseTactic P maxTrialsPerGoal iStep nodes node targetGoalId = .ok (some tactic)) :
    ((node.trials.getD targetGoalId 0 : ℕ) : ℤ) ≤ maxTrialsPerGoal ∧
      P.recommendTactic iStep nodes node targetGoalId = .ok (some tactic) := by
  unfold chooseTactic at h
  split_ifs at h with hmany
  · cases h
  · exact ⟨Int.not_lt.mp hmany, h⟩

theorem acceptTactic_grown {s : SearchState G V} {searchTrajectory : List ℕ} {state : ℕ}
    {node node' : Node V} {m : Option (Moment G V)} {targetGoalId : ℕ} {tactic : Text}
    (hgoal : node.activeGoalId = some targetGoalId)
    (htactic : chooseTactic P maxTrialsPerGoal iStep s.nodes node targetGoalId = .ok (some tactic))
    (hm : ∀ moment, m = some moment → moment.selected = state) (gym : G.State) :
    Grown P maxTrialsPerGoal iStep s searchTrajectory state node m (acceptTactic P iStep
      { s.modifyNode state (·.recordTrial targetGoalId tactic) with gym } searchTrajectory state
        node' targetGoalId tactic).nodes := by
  unfold acceptTactic
  split
  · exact .failed _ hgoal htactic hm
  · dsimp only
    split
    · exact .failed _ hgoal htactic hm
    · split
      · exact .failed _ hgoal htactic hm
      · exact .made _ _ _ _ _ hgoal htactic hm

theorem expand_grown {s : SearchState G V} {searchTrajectory : List ℕ} {state : ℕ} {node : Node V}
    {targetGoalId : ℕ} {tactic : Text} (hgoal : node.activeGoalId = some targetGoalId)
    (htactic : chooseTactic P maxTrialsPerGoal iStep s.nodes node targetGoalId =
      .ok (some tactic)) :
    Grown P maxTrialsPerGoal iStep s searchTrajectory state node
      (expand P iStep s searchTrajectory state node targetGoalId tactic).1
      (expand P iStep s searchTrajectory state node targetGoalId tactic).2.nodes := by
  unfold expand
  dsimp only
  split
  · exact .failed _ hgoal htactic (by simp)
  · split
    · refine .failed _ hgoal htactic ?_
      rintro _ ⟨⟩
      rfl
    · split_ifs
      · refine acceptTactic_grown hgoal htactic ?_ _
        rintro _ ⟨⟩
        rfl
      · refine .failed _ hgoal htactic ?_
        rintro _ ⟨⟩
        rfl

/-- A step goes on behind the selection of a trajectory that ends at an incomplete node. -/
theorem searchStep_grown {s s' : SearchState G V} {m : Option (Moment G V)}
    (h : searchStep P maxTrialsPerGoal iStep s = (m, .continues s')) :
    ∃ (searchTrajectory : List (Fin s.nodes.length)) (state : Fin s.nodes.length),
      P.select iStep s.nodes = .ok searchTrajectory ∧
      searchTrajectory.getLast? = some state ∧ (s.nodes.get state).isComplete = false ∧
      Grown P maxTrialsPerGoal iStep s (searchTrajectory.map Fin.val) state (s.nodes.get state) m
        s'.nodes := by
  unfold searchStep at h
  split at h
  · cases h
  · rename_i searchTrajectory hselect
    split at h
    · cases h
    · rename_i state hlast
      dsimp only at h
      split_ifs at h with hcomplete
      · split at h <;> cases h
      · refine ⟨searchTrajectory, state, hselect, hlast, by simpa using hcomplete, ?_⟩
        rw [List.get_eq_getElem, ← Fin.getElem_fin]
        split at h
        · rename_i hgoal
          cases h
          exact .noGoal hgoal
        · rename_i targetGoalId hgoal
          split at h
          · cases h
          · rename_i tactic hchoose
            split_ifs at h with hnone
            · cases h
              exact .noTactic
            · cases h
              cases tactic with
              | none => exact absurd rfl hnone
              | some tactic => exact expand_grown hgoal hchoose

end Steps

section Maps

theorem map_modify_comm {α β : Type*} {f : α → α} {f' : β → β} {g : α → β}
    (h : ∀ a, g (f a) = f' (g a)) (l : List α) (i : ℕ) :
    (l.modify i f).map g = (l.map g).modify i f' := by
  apply List.ext_getElem?
  intro k
  rw [List.getElem?_map, List.getElem?_modify, List.getElem?_modify, List.getElem?_map]
  by_cases hk : i = k
  · cases l[k]? <;> simp [hk, h]
  · cases l[k]? <;> simp [hk]

theorem map_modify_of_eq {α β : Type*} {f : α → α} {g : α → β} (h : ∀ a, g (f a) = g a)
    (l : List α) (i : ℕ) : (l.modify i f).map g = l.map g := by
  have hid : ∀ a, g (f a) = id (g a) := h
  rw [map_modify_comm hid, List.modify_id]

theorem map_modify_const {α β : Type*} {f : α → α} {g : α → β} (b : β) (h : ∀ a, g (f a) = b)
    (l : List α) (i : ℕ) : (l.modify i f).map g = (l.map g).modify i fun _ => b :=
  map_modify_comm h l i

theorem map_withChild {α : Type*} {g : Node V → α} {f : α → α} (nodes : List (Node V)) (state : ℕ)
    (child : Node V)
    (h : ∀ node, g { node with children := node.children ++ [nodes.length] } = f (g node)) :
    (withChild nodes state child).map g = (nodes.map g).modify state f ++ [g child] := by
  rw [withChild, List.map_append, map_modify_comm h, List.map_singleton]

theorem parents_modify {f : Node V → Node V} (h : ∀ node, (f node).parent = node.parent)
    (nodes : List (Node V)) (state : ℕ) : parents (nodes.modify state f) = parents nodes :=
  map_modify_of_eq h nodes state

def newValues (nodes nodes' : List (Node V)) : List V :=
  (nodes'.drop nodes.length).map Node.totalValue

theorem newValues_of_length_eq {nodes nodes' : List (Node V)}
    (h : nodes'.length = nodes.length) : newValues nodes nodes' = [] := by
  simp [newValues, ← h]

theorem RootPath.of_map_children {nodes nodes' : List (Node V)} {searchTrajectory : List ℕ}
    (h : RootPath nodes searchTrajectory)
    (hmap : nodes'.map Node.children = nodes.map Node.children) :
    RootPath nodes' searchTrajectory where
  head := h.head
  chain := h.chain.imp fun k child hk => by
    obtain ⟨node, hnode, hchild⟩ := hk
    have hchildren : (nodes'.map Node.children)[k]? = some node.children := by
      rw [hmap, List.getElem?_map, hnode]
      rfl
    rw [List.getElem?_map] at hchildren
    obtain ⟨node', hnode', heq⟩ := Option.map_eq_some_iff.mp hchildren
    exact ⟨node', hnode', heq ▸ hchild⟩

theorem RootPath.reverse_eq {nodes : List (Node V)} {searchTrajectory : List ℕ}
    (hpath : RootPath nodes searchTrajectory)
    (hlinked : Linked (parents nodes) (nodes.map Node.children)) {state : ℕ}
    (hlast : searchTrajectory.getLast? = some state) :
    searchTrajectory.reverse = ancestry (parents nodes) state := by
  refine hlinked.reverse_eq_ancestry hpath.head (hpath.chain.imp fun k child hk => ?_) hlast
  obtain ⟨node, hnode, hchild⟩ := hk
  exact ⟨node.children, by rw [List.getElem?_map, hnode]; rfl, hchild⟩

variable [Add V]

/-- What a backup does to what can be read off a node apart from its exhaustion. -/
theorem map_backup {α : Type*} {value : V} {g : Node V → α} {f : α → α}
    (h : ∀ (node : Node V) (subtreeExhausted : Bool), g { node with
      totalValue := node.totalValue + value
      visitCount := node.visitCount + 1
      subtreeExhausted } = f (g node)) (nodes : List (Node V)) (states : List ℕ) :
    (backup nodes states value).map g = changeAlong f states (nodes.map g) := by
  induction states generalizing nodes with
  | nil => rfl
  | cons state states ih =>
    rw [backup, List.foldl_cons, ← backup, ih, map_modify_comm fun node => h node _]
    rfl

/-- What depends neither on the links down nor on the statistics is kept, and the child's is
appended. -/
theorem map_addChild {α : Type*} {g : Node V → α}
    (hchildren : ∀ (node : Node V) (children : List ℕ), g { node with children } = g node)
    (hbackup : ∀ (node : Node V) (totalValue : V) (visitCount : ℕ) (subtreeExhausted : Bool),
      g { node with totalValue, visitCount, subtreeExhausted } = g node)
    (nodes : List (Node V)) (state : ℕ) (child : Node V) (searchTrajectory : List ℕ) (value : V) :
    (backup (withChild nodes state child) searchTrajectory value).map g =
      nodes.map g ++ [g child] := by
  rw [map_backup (f := id) fun node b => hbackup node _ _ b, changeAlong_id,
    map_withChild (f := id) _ _ _ fun node => hchildren node _, List.modify_id]

theorem parents_addChild (nodes : List (Node V)) (state : ℕ) (child : Node V)
    (searchTrajectory : List ℕ) (value : V) :
    parents (backup (withChild nodes state child) searchTrajectory value) =
      parents nodes ++ [child.parent] :=
  map_addChild (fun _ _ => rfl) (fun _ _ _ _ => rfl) nodes state child searchTrajectory value

theorem linked_addChild {nodes : List (Node V)}
    (h : Linked (parents nodes) (nodes.map Node.children)) {state : ℕ}
    (hstate : state < nodes.length) {child : Node V} (hparent : child.parent = some state)
    (hchildren : child.children = []) (searchTrajectory : List ℕ) (value : V) :
    Linked (parents (backup (withChild nodes state child) searchTrajectory value))
      ((backup (withChild nodes state child) searchTrajectory value).map Node.children) := by
  have hlen : (parents nodes).length = nodes.length := List.length_map _
  rw [parents_addChild, hparent, map_backup (f := id) fun _ _ => rfl, changeAlong_id,
    map_withChild (f := (· ++ [nodes.length])) _ _ _ fun _ => rfl, hchildren, ← hlen]
  exact h.append_leaf (hlen ▸ hstate)

end Maps

section Totals

variable [Add V]

/-- The counts and values of the nodes are totals over their subtrees, of ones and of the values
the nodes were made with. -/
structure Totalled (nodes : List (Node V)) (made : List V) : Prop where
  linked : Linked (parents nodes) (nodes.map Node.children)
  length : made.length = nodes.length
  visits : nodes.map (some ∘ Node.visitCount) =
    totals (parents nodes) (List.replicate nodes.length 1)
  values : nodes.map (some ∘ Node.totalValue) = totals (parents nodes) made

theorem Totalled.of_map_eq {nodes nodes' : List (Node V)} {made : List V}
    (h : Totalled nodes made) (hparents : parents nodes' = parents nodes)
    (hchildren : nodes'.map Node.children = nodes.map Node.children)
    (hvisits : nodes'.map Node.visitCount = nodes.map Node.visitCount)
    (hvalues : nodes'.map Node.totalValue = nodes.map Node.totalValue) : Totalled nodes' made := by
  have hlen : nodes'.length = nodes.length := by
    simpa using congrArg List.length hvisits
  constructor
  · rw [hparents, hchildren]
    exact h.linked
  · rw [hlen, h.length]
  · rw [← List.map_map, hvisits, List.map_map, hparents, hlen, h.visits]
  · rw [← List.map_map, hvalues, List.map_map, hparents, h.values]

/-- A modification of one node that changes neither its links nor its statistics. -/
theorem Totalled.modify {nodes : List (Node V)} {made : List V} (h : Totalled nodes made)
    (state : ℕ) {f : Node V → Node V} (hf : ∀ node, (f node).parent = node.parent ∧
      (f node).children = node.children ∧ (f node).visitCount = node.visitCount ∧
      (f node).totalValue = node.totalValue) : Totalled (nodes.modify state f) made :=
  h.of_map_eq (map_modify_of_eq (fun node => (hf node).1) _ _)
    (map_modify_of_eq (fun node => (hf node).2.1) _ _)
    (map_modify_of_eq (fun node => (hf node).2.2.1) _ _)
    (map_modify_of_eq (fun node => (hf node).2.2.2) _ _)

/-- A child below the end of a path, backed up along it. -/
theorem Totalled.addChild {nodes : List (Node V)} {made : List V} (h : Totalled nodes made)
    {searchTrajectory : List ℕ} {state : ℕ}
    (hpath : searchTrajectory.reverse = ancestry (parents nodes) state)
    (hstate : state < nodes.length) {child : Node V} (hparent : child.parent = some state)
    (hchildren : child.children = []) (hvisit : child.visitCount = 1) :
    Totalled (backup (withChild nodes state child) searchTrajectory child.totalValue)
      (made ++ [child.totalValue]) := by
  have hlen : (parents nodes).length = nodes.length := List.length_map _
  have hparents : parents (backup (withChild nodes state child) searchTrajectory
      child.totalValue) = parents nodes ++ [some state] := by
    rw [parents_addChild, hparent]
  have hsize : (backup (withChild nodes state child) searchTrajectory child.totalValue).length =
      nodes.length + 1 := by
    simpa [parents] using congrArg List.length hparents
  constructor
  · exact linked_addChild h.linked hstate hparent hchildren searchTrajectory _
  · rw [hsize, List.length_append, h.length]
    rfl
  · rw [hparents, hsize, List.replicate_succ', map_backup (f := Option.map (· + 1)) fun _ _ => rfl,
      map_withChild (f := id) _ _ _ fun _ => rfl, Function.comp_apply, hvisit, List.modify_id,
      h.visits]
    exact totals_append_leaf (by simp [hlen]) (hlen ▸ hstate) hpath 1
  · rw [hparents, map_backup (f := Option.map (· + child.totalValue)) fun _ _ => rfl,
      map_withChild (f := id) _ _ _ fun _ => rfl, List.modify_id, h.values]
    exact totals_append_leaf (by rw [hlen, h.length]) (hlen ▸ hstate) hpath _

theorem Totalled.newValues_eq {nodes nodes' : List (Node V)} {made : List V} {p : Option ℕ} {v : V}
    (h : Totalled nodes' (made ++ [v])) (hmade : made.length = nodes.length)
    (hparents : parents nodes' = parents nodes ++ [p]) : newValues nodes nodes' = [v] := by
  have hlen : (parents nodes).length = nodes.length := List.length_map _
  have hlast := total_leaf (hmade.trans hlen.symm) p v
  have hnew : (newValues nodes nodes').map some = [v].map some := by
    rw [newValues, List.map_map, List.map_drop, h.values, hparents, totals, List.length_append,
      List.length_singleton, List.range_succ, List.map_append, List.drop_left' (by simp [hlen]),
      List.map_singleton, hlast, List.map_singleton]
  exact List.map_injective_iff.mpr (fun _ _ => Option.some.inj) hnew

variable [Zero V] [One V] [LT V] [DecidableLT V] {P : Policy V} {maxTrialsPerGoal : ℤ} {iStep : ℕ}

/-- Every step keeps the counts and values to be totals, along with the values of the nodes it
makes. -/
theorem Grown.totalled {s : SearchState G V} {searchTrajectory : List ℕ}
    {state : ℕ} {node : Node V} {m : Option (Moment G V)} {nodes' : List (Node V)}
    (h : Grown P maxTrialsPerGoal iStep s searchTrajectory state node m nodes') {made : List V}
    (hs : Totalled s.nodes made) (hpath : RootPath s.nodes searchTrajectory)
    (hlast : searchTrajectory.getLast? = some state) (hstate : state < s.nodes.length) :
    Totalled nodes' (made ++ newValues s.nodes nodes') := by
  have hkept : ∀ f : Node V → Node V, (∀ node, (f node).parent = node.parent ∧
      (f node).children = node.children ∧ (f node).visitCount = node.visitCount ∧
      (f node).totalValue = node.totalValue) →
      Totalled (s.nodes.modify state f) (made ++ newValues s.nodes (s.nodes.modify state f)) := by
    intro f hf
    rw [newValues_of_length_eq (List.length_modify ..), List.append_nil]
    exact hs.modify state hf
  have hrecord : ∀ targetGoalId tactic,
      Totalled (s.nodes.modify state (·.recordTrial targetGoalId tactic)) made := fun _ _ =>
    hs.modify state fun _ => ⟨rfl, rfl, rfl, rfl⟩
  cases h with
  | noGoal _ => exact hkept _ fun _ => ⟨rfl, rfl, rfl, rfl⟩
  | noTactic => exact hkept _ fun _ => ⟨rfl, rfl, rfl, rfl⟩
  | failed feedback _ _ _ =>
    rw [newValues_of_length_eq (by simp), List.append_nil]
    exact (hrecord _ _).modify state fun _ => ⟨rfl, rfl, rfl, rfl⟩
  | @made _ targetGoalId tactic newSubgoals priorities script depth value _ _ _ =>
    have hparents : parents (s.nodes.modify state (·.recordTrial targetGoalId tactic)) =
        parents s.nodes := parents_modify (by intro; rfl) _ _
    have hpath' : searchTrajectory.reverse =
        ancestry (parents (s.nodes.modify state (·.recordTrial targetGoalId tactic))) state := by
      rw [hparents, hpath.reverse_eq hs.linked hlast]
    have hchild := (hrecord targetGoalId tactic).addChild hpath' (by simpa using hstate)
      (estimatedChild_parent state newSubgoals priorities script depth targetGoalId value) rfl rfl
    rw [estimatedChild_totalValue] at hchild
    rw [hchild.newValues_eq hs.length (by rw [parents_addChild, hparents])]
    exact hchild

def madeValues (P : Policy V) (maxTrialsPerGoal : ℤ) (s : SearchState G V) : ℕ → List V
  | 0 => s.nodes.map Node.totalValue
  | n + 1 => madeValues P maxTrialsPerGoal s n ++
    match searchAfter P maxTrialsPerGoal s n, searchAfter P maxTrialsPerGoal s (n + 1) with
    | some t, some t' => newValues t.nodes t'.nodes
    | _, _ => []

/-- Where the trajectories are paths of the tree, the counts and values stay totals through the
search. -/
theorem totalled_searchAfter (hP : P.SelectsPaths) {s : SearchState G V}
    (hs : Totalled s.nodes (s.nodes.map Node.totalValue)) (n : ℕ) {t : SearchState G V}
    (ht : searchAfter P maxTrialsPerGoal s n = some t) :
    Totalled t.nodes (madeValues P maxTrialsPerGoal s n) := by
  induction n generalizing t with
  | zero =>
    cases ht
    exact hs
  | succ n ih =>
    rw [madeValues, ht]
    rw [searchAfter] at ht
    obtain ⟨u, hu, hnext⟩ := Option.bind_eq_some_iff.mp ht
    rw [hu]
    obtain ⟨searchTrajectory, state, hselect, hlast, _, hgrown⟩ :=
      searchStep_grown (Prod.ext rfl (Progress.eq_continues_of_next hnext))
    exact hgrown.totalled (ih hu) (hP _ _ _ hselect) (by simp [hlast]) state.isLt

end Totals

end Mcts
end IsabelleGym
