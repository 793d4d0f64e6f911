import IsabelleGym.MctsDocument
import IsabelleGym.MctsTree
import Mathlib.Order.WithBot

/-!
# Selection by upper confidence bounds

The agent goes down from the root, at each node to the first child of the
highest bound among those that are not exhausted. It stays at a node that is not
exhausted itself where that bound falls below the one it came with.
-/

namespace IsabelleGym
namespace Mcts

open GrowingTree

/-- The simple agent: the weight of its exploration, and `sqrt (log n / m)` for two counts. -/
structure SimpleAgent (V : Type) where
  cPuct : V
  exploration : ℕ → ℕ → V

namespace SimpleAgent

variable {V : Type}

/-- The first of the elements with the highest score. -/
def best {α : Type} [LT V] [DecidableLT V] (score : α → WithTop V) : List α → Option α
  | [] => none
  | a :: rest => some (rest.foldl (fun b c => if score b < score c then c else b) a)

theorem mem_of_best_eq_some {α : Type} [LT V] [DecidableLT V] {score : α → WithTop V} {l : List α}
    {a : α} (h : best score l = some a) : a ∈ l := by
  cases l with
  | nil => cases h
  | cons b rest =>
    obtain rfl := Option.some.inj h
    clear h
    induction rest generalizing b with
    | nil => exact List.mem_singleton_self b
    | cons c rest ih =>
      rw [List.foldl_cons]
      split_ifs
      · exact List.mem_cons_of_mem b (ih c)
      · rcases List.mem_cons.mp (ih b) with hb | hrest
        · rw [hb]
          exact List.mem_cons_self
        · exact List.mem_cons_of_mem b (List.mem_cons_of_mem c hrest)

def availableChildren (nodes : List (Node V)) (current : Fin nodes.length) :
    List (Fin nodes.length) :=
  nodes[current].children.filterMap fun child =>
    if h : child < nodes.length then
      if nodes[child].subtreeExhausted then none else some ⟨child, h⟩
    else none

theorem mem_availableChildren {nodes : List (Node V)} {current child : Fin nodes.length} :
    child ∈ availableChildren nodes current ↔
      child.val ∈ nodes[current].children ∧ nodes[child].subtreeExhausted = false := by
  rw [availableChildren, List.mem_filterMap]
  constructor
  · rintro ⟨c, hc, heq⟩
    split_ifs at heq with hlt hflag
    obtain rfl := Option.some.inj heq
    exact ⟨hc, by simpa using hflag⟩
  · rintro ⟨hchild, hflag⟩
    have hflag : nodes[child.val].subtreeExhausted = false := hflag
    exact ⟨child, hchild, by simp [hflag]⟩

variable [Add V] [Mul V] [Div V] [NatCast V] [LT V] [DecidableLT V] (A : SimpleAgent V)

def ucb (visitCount : ℕ) (node : Node V) : WithTop V :=
  if 0 < node.visitCount ∧ 0 < visitCount then
    ((node.totalValue / (node.visitCount : V) +
      A.cPuct * A.exploration visitCount node.visitCount : V) : WithTop V)
  else ⊤

def descend (nodes : List (Node V)) : ℕ → Fin nodes.length → WithTop V → List (Fin nodes.length)
  | 0, _, _ => []
  | fuel + 1, current, currentUcb =>
    let childUcb := fun child : Fin nodes.length => A.ucb nodes[current].visitCount nodes[child]
    match best childUcb (availableChildren nodes current) with
    | none => []
    | some child =>
      if childUcb child < currentUcb ∧ nodes[current].exhausted = false then []
      else child :: descend nodes fuel child (childUcb child)

/-- The trajectory from the root, of a tree that has one. -/
def select (nodes : List (Node V)) : List (Fin nodes.length) :=
  if h : 0 < nodes.length then
    ⟨0, h⟩ :: A.descend nodes nodes.length ⟨0, h⟩ (A.ucb nodes[0].visitCount nodes[0])
  else []

def policy (recommendTactic : ℕ → List (Node V) → Node V → ℕ → Except Text (Option Text))
    (evaluatePriorities : ℕ → List (Node V) → Node V → Except Text (List V))
    (estimate : ℕ → List (Node V) → Node V → Except Text V) : Policy V where
  select _ nodes := .ok (A.select nodes)
  recommendTactic := recommendTactic
  evaluatePriorities := evaluatePriorities
  estimate := estimate

variable {A} {nodes : List (Node V)}

theorem descend_spec (fuel : ℕ) (current : Fin nodes.length) (currentUcb : WithTop V) :
    (current :: A.descend nodes fuel current currentUcb).IsChain
      (fun k child => child.val ∈ nodes[k].children) ∧
    ∀ child ∈ A.descend nodes fuel current currentUcb, nodes[child].subtreeExhausted = false := by
  induction fuel generalizing current currentUcb with
  | zero => exact ⟨List.isChain_singleton _, by simp [descend]⟩
  | succ fuel ih =>
    rw [descend]
    dsimp only
    split
    · exact ⟨List.isChain_singleton _, by simp⟩
    · rename_i child hbest
      obtain ⟨hchild, hflag⟩ := mem_availableChildren.mp (mem_of_best_eq_some hbest)
      split_ifs
      · exact ⟨List.isChain_singleton _, by simp⟩
      · obtain ⟨hchain, hbelow⟩ := ih child (A.ucb nodes[current].visitCount nodes[child])
        refine ⟨List.isChain_cons_cons.mpr ⟨hchild, hchain⟩, ?_⟩
        intro c hc
        rcases List.mem_cons.mp hc with rfl | hc
        · exact hflag
        · exact hbelow c hc

/-- Where children are newer than their node, the way down ends within as many steps as there are
newer nodes: more of them change nothing. -/
theorem descend_succ (hnewer : ∀ (k : Fin nodes.length), ∀ child ∈ nodes[k].children, k < child)
    {fuel : ℕ} {current : Fin nodes.length} (hfuel : nodes.length ≤ fuel + current)
    (currentUcb : WithTop V) :
    A.descend nodes (fuel + 1) current currentUcb = A.descend nodes fuel current currentUcb := by
  induction fuel generalizing current currentUcb with
  | zero =>
    have := current.isLt
    omega
  | succ fuel ih =>
    rw [descend, descend]
    dsimp only
    split
    · rfl
    · rename_i child hbest
      obtain ⟨hchild, _⟩ := mem_availableChildren.mp (mem_of_best_eq_some hbest)
      have hlt : current.val < child.val := hnewer current child hchild
      rw [ih (by omega)]

theorem select_rootPath (A : SimpleAgent V) (nodes : List (Node V)) :
    RootPath nodes ((A.select nodes).map Fin.val) := by
  unfold select
  split_ifs with h
  · refine ⟨by simp, ?_⟩
    rw [List.isChain_map]
    refine (descend_spec (A := A) _ _ _).1.imp fun k child hchild => ?_
    exact ⟨nodes[k], List.getElem?_eq_getElem k.isLt, hchild⟩
  · exact ⟨by simp, by simp⟩

/-- Below the root only nodes that are not exhausted are selected. -/
theorem subtreeExhausted_of_mem_select {k : Fin nodes.length} (hk : k ∈ A.select nodes)
    (hroot : k.val ≠ 0) : nodes[k].subtreeExhausted = false := by
  unfold select at hk
  split_ifs at hk with h
  · rcases List.mem_cons.mp hk with rfl | hk
    · exact absurd rfl hroot
    · exact (descend_spec _ _ _).2 k hk
  · cases hk

theorem policy_selectsPaths
    (recommendTactic : ℕ → List (Node V) → Node V → ℕ → Except Text (Option Text))
    (evaluatePriorities : ℕ → List (Node V) → Node V → Except Text (List V))
    (estimate : ℕ → List (Node V) → Node V → Except Text V) :
    (A.policy recommendTactic evaluatePriorities estimate).SelectsPaths := by
  intro iStep nodes searchTrajectory hselect
  obtain rfl := Except.ok.inj hselect
  exact A.select_rootPath nodes

end SimpleAgent

section Statistics

variable {G : Gym} {V : Type} [Add V] [Zero V] [One V]

theorem totalled_searchStart (theoremStatement : Text) (gym : G.State) (subgoals : List Text)
    (value : V) :
    Totalled (searchStart theoremStatement gym subgoals value).nodes [value] where
  linked := linked_root
  length := rfl
  visits := (totals_root none 1).symm
  values := (totals_root none value).symm

variable [Mul V] [Div V] [NatCast V] [LT V] [DecidableLT V]

/-- At every step of the search by upper confidence bounds, the visits of a node are as many as
the nodes below it and itself, and its value is the sum of their estimates, added up in the order
in which the nodes were made. -/
theorem statistics_eq_totals (A : SimpleAgent V)
    (recommendTactic : ℕ → List (Node V) → Node V → ℕ → Except Text (Option Text))
    (evaluatePriorities : ℕ → List (Node V) → Node V → Except Text (List V))
    (estimate : ℕ → List (Node V) → Node V → Except Text V) (maxTrialsPerGoal : ℤ)
    (theoremStatement : Text) (gym : G.State) (subgoals : List Text) (value : V) (n : ℕ)
    {t : SearchState G V}
    (ht : searchAfter (A.policy recommendTactic evaluatePriorities estimate) maxTrialsPerGoal
      (searchStart theoremStatement gym subgoals value) n = some t)
    {k : ℕ} {node : Node V} (hk : t.nodes[k]? = some node) :
    node.visitCount = (subtree (parents t.nodes) k).length ∧
      some node.totalValue = total (parents t.nodes)
        (madeValues (A.policy recommendTactic evaluatePriorities estimate) maxTrialsPerGoal
          (searchStart theoremStatement gym subgoals value) n) k := by
  have htotalled := totalled_searchAfter
    (A.policy_selectsPaths recommendTactic evaluatePriorities estimate)
    (totalled_searchStart theoremStatement gym subgoals value) n ht
  have hlen : (parents t.nodes).length = t.nodes.length := List.length_map _
  have hlt : k < (parents t.nodes).length := hlen ▸ (List.getElem?_eq_some_iff.mp hk).1
  constructor
  · have hvisits := congrArg (·[k]?) htotalled.visits
    rw [← hlen, getElem?_totals hlt, total_replicate_one hlt] at hvisits
    simpa [hk] using hvisits
  · have hvalues := congrArg (·[k]?) htotalled.values
    rw [getElem?_totals hlt] at hvalues
    simpa [hk] using hvalues

end Statistics

section Example

/-- A gym whose goal stays open whatever is inserted. -/
def openGym : Gym := scriptedGym (fun _ => false) fun _ => ["P".toList]

/-- One tactic for the root and none for the nodes below it. -/
def tacticAtRoot (_ : ℕ) (_ : List (Node ℕ)) (node : Node ℕ) (_ : ℕ) :
    Except Text (Option Text) :=
  .ok (if node.proofDepth = 0 ∧ node.attemptedTactics = [] then some "apply simp".toList else none)

def rootSearch (n : ℕ) : Option (SearchState openGym ℕ) :=
  searchAfter (SimpleAgent.policy ⟨1, fun _ _ => 0⟩ tacticAtRoot
    (fun _ _ node => .ok (List.replicate node.subgoals.length 0)) fun _ _ _ => .ok 1) 5
    (searchStart "lemma P".toList [] ["P".toList] 1) n

theorem exists_rootSearch_node (n : ℕ) {k : ℕ} {P : Node ℕ → Bool}
    (h : ((rootSearch n).bind fun t => (t.nodes[k]?).filter P).isSome = true) :
    ∃ t node, rootSearch n = some t ∧ t.nodes[k]? = some node ∧ P node = true := by
  obtain ⟨node, hnode⟩ := Option.isSome_iff_exists.mp h
  obtain ⟨t, ht, hfilter⟩ := Option.bind_eq_some_iff.mp hnode
  obtain ⟨hk, hP⟩ := Option.filter_eq_some_iff.mp hfilter
  exact ⟨t, node, ht, hk, hP⟩

theorem statistics_rootSearch : ∃ t node, rootSearch 1 = some t ∧ t.nodes[0]? = some node ∧
    node.visitCount = 2 ∧ node.visitCount = (subtree (parents t.nodes) 0).length := by
  obtain ⟨t, node, ht, hnode, hvisits⟩ := exists_rootSearch_node 1 (k := 0)
    (P := fun node => node.visitCount == 2) (by decide +kernel)
  exact ⟨t, node, ht, hnode, by simpa using hvisits,
    (statistics_eq_totals _ _ _ _ _ _ _ _ _ 1 ht hnode).1⟩

end Example

end Mcts
end IsabelleGym
