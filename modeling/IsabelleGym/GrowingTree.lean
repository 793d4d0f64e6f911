import Mathlib.Algebra.BigOperators.Group.List.Basic
import Mathlib.Data.List.Basic
import Mathlib.Data.List.Chain
import Mathlib.Data.List.GetD
import Mathlib.Data.List.Nodup

/-!
# Trees that grow by leaves

The nodes of a tree are numbered in the order they are made, and the tree is
the list of their parents. A new leaf comes into the subtrees of the nodes on
the path to it and of no others, so totals over subtrees are kept up by adding
the weight of the leaf along that path.
-/

namespace GrowingTree

variable {parents : List (Option ℕ)} {a j k p : ℕ}

/-- A node and its ancestors, the node first. A parent counts only where it is older. -/
def ancestry (parents : List (Option ℕ)) (k : ℕ) : List ℕ :=
  k :: match parents[k]? with
    | some (some p) => if _h : p < k then ancestry parents p else []
    | _ => []
termination_by k

theorem ancestry_child (h : parents[k]? = some (some p)) (hp : p < k) :
    ancestry parents k = k :: ancestry parents p := by
  rw [ancestry]
  simp [h, hp]

theorem ancestry_root (h : parents[k]? = some none) : ancestry parents k = [k] := by
  rw [ancestry]
  simp [h]

@[simp] theorem self_mem_ancestry : k ∈ ancestry parents k := by
  rw [ancestry]
  exact List.mem_cons_self

theorem ancestry_pairwise (parents : List (Option ℕ)) (k : ℕ) :
    (ancestry parents k).Pairwise (fun i j => j < i) ∧ ∀ a ∈ ancestry parents k, a ≤ k := by
  induction k using Nat.strongRecOn with
  | ind k ih =>
    rw [ancestry]
    split
    · rename_i p hp
      split_ifs with hlt
      · obtain ⟨hpairwise, hle⟩ := ih p hlt
        have hlower : ∀ a ∈ ancestry parents p, a < k := fun a ha =>
          Nat.lt_of_le_of_lt (hle a ha) hlt
        refine ⟨List.pairwise_cons.mpr ⟨hlower, hpairwise⟩, ?_⟩
        intro a ha
        rcases List.mem_cons.mp ha with rfl | ha
        · exact Nat.le_refl _
        · exact Nat.le_of_lt (hlower a ha)
      · simp
    · simp

theorem le_of_mem_ancestry (h : a ∈ ancestry parents k) : a ≤ k :=
  (ancestry_pairwise parents k).2 a h

theorem ancestry_nodup (parents : List (Option ℕ)) (k : ℕ) : (ancestry parents k).Nodup :=
  (ancestry_pairwise parents k).1.imp fun h => Nat.ne_of_gt h

/-- New nodes leave the ancestors of the old ones alone. -/
theorem ancestry_append (rest : List (Option ℕ)) (hk : k < parents.length) :
    ancestry (parents ++ rest) k = ancestry parents k := by
  induction k using Nat.strongRecOn with
  | ind k ih =>
    rw [ancestry, ancestry, List.getElem?_append_left hk]
    split
    · rename_i p hp
      split_ifs with hlt
      · rw [ih p hlt (Nat.lt_trans hlt hk)]
      · rfl
    · rfl

theorem ancestry_leaf (hp : p < parents.length) :
    ancestry (parents ++ [some p]) parents.length = parents.length :: ancestry parents p := by
  rw [ancestry_child (List.getElem?_concat_length) hp, ancestry_append _ hp]

/-- The nodes that have `k` among their ancestors, `k` included. -/
def subtree (parents : List (Option ℕ)) (k : ℕ) : List ℕ :=
  (List.range parents.length).filter fun j => decide (k ∈ ancestry parents j)

theorem mem_subtree : j ∈ subtree parents k ↔ j < parents.length ∧ k ∈ ancestry parents j := by
  simp [subtree]

theorem subtree_append_leaf (hp : p < parents.length) (hk : k < parents.length) :
    subtree (parents ++ [some p]) k =
      subtree parents k ++ if k ∈ ancestry parents p then [parents.length] else [] := by
  have hold : ∀ j ∈ List.range parents.length,
      decide (k ∈ ancestry (parents ++ [some p]) j) = decide (k ∈ ancestry parents j) := by
    intro j hj
    rw [ancestry_append _ (List.mem_range.mp hj)]
  have hleaf : k ∈ ancestry (parents ++ [some p]) parents.length ↔ k ∈ ancestry parents p := by
    rw [ancestry_leaf hp, List.mem_cons, or_iff_right (Nat.ne_of_lt hk)]
  rw [subtree, List.length_append, List.length_singleton, List.range_succ, List.filter_append,
    List.filter_congr hold, ← subtree]
  congr 1
  by_cases hmem : k ∈ ancestry parents p
  · simp [hleaf, hmem]
  · simp [hleaf, hmem]

theorem subtree_leaf (parent : Option ℕ) :
    subtree (parents ++ [parent]) parents.length = [parents.length] := by
  have hold : ∀ j ∈ List.range parents.length,
      ¬ decide (parents.length ∈ ancestry (parents ++ [parent]) j) = true := by
    intro j hj hmem
    have hle := le_of_mem_ancestry (of_decide_eq_true hmem)
    exact absurd (List.mem_range.mp hj) (Nat.not_lt.mpr hle)
  rw [subtree, List.length_append, List.length_singleton, List.range_succ, List.filter_append,
    List.filter_eq_nil_iff.mpr hold]
  simp

section Children

structure Linked (parents : List (Option ℕ)) (children : List (List ℕ)) : Prop where
  length : children.length = parents.length
  root : ∀ k : ℕ, parents[k]? = some none ↔ k = 0
  older : ∀ k p : ℕ, parents[k]? = some (some p) → p < k
  child : ∀ (k : ℕ) (cs : List ℕ) (c : ℕ), children[k]? = some cs →
    (c ∈ cs ↔ parents[c]? = some (some k))

theorem getElem?_concat_eq_some {α : Type*} {l : List α} {x y : α} :
    (l ++ [x])[k]? = some y ↔ l[k]? = some y ∨ k = l.length ∧ x = y := by
  rcases Nat.lt_trichotomy k l.length with hk | rfl | hk
  · rw [List.getElem?_append_left hk]
    simp [Nat.ne_of_lt hk]
  · simp
  · have hnone : l[k]? = none := List.getElem?_eq_none (Nat.le_of_lt hk)
    have hnone' : (l ++ [x])[k]? = none :=
      List.getElem?_eq_none (by simpa using Nat.succ_le_of_lt hk)
    simp [hnone, hnone', Nat.ne_of_gt hk]

theorem linked_root : Linked [none] [[]] where
  length := rfl
  root k := by cases k <;> simp
  older k p h := by cases k <;> simp at h
  child k cs c h := by
    cases k with
    | zero =>
      cases h
      cases c <;> simp
    | succ k => simp at h

variable {children : List (List ℕ)}

theorem Linked.append_leaf (h : Linked parents children) (hp : p < parents.length) :
    Linked (parents ++ [some p]) (children.modify p (· ++ [parents.length]) ++ [[]]) where
  length := by simp [h.length]
  root k := by
    rw [getElem?_concat_eq_some, ← h.root k]
    simp
  older k q hk := by
    rcases getElem?_concat_eq_some.mp hk with hk | ⟨rfl, hq⟩
    · exact h.older k q hk
    · cases hq
      exact hp
  child k cs c hk := by
    rw [getElem?_concat_eq_some]
    rcases getElem?_concat_eq_some.mp hk with hk | ⟨hlen, rfl⟩
    · rw [List.getElem?_modify] at hk
      obtain ⟨old, hold, rfl⟩ := Option.map_eq_some_iff.mp hk
      have hiff := h.child k old c hold
      by_cases hkp : p = k
      · simp [hkp, hiff]
      · simp [hkp, hiff]
    · rw [List.length_modify, h.length] at hlen
      subst hlen
      have hfresh : parents[c]? ≠ some (some parents.length) := by
        intro hc
        have hlt := h.older c _ hc
        have hc' := (List.getElem?_eq_some_iff.mp hc).1
        omega
      simp [hfresh, Nat.ne_of_lt hp]

/-- A path down from the root, read upwards, is the ancestry of its end. -/
theorem Linked.reverse_eq_ancestry (h : Linked parents children) {path : List ℕ}
    (hhead : ∀ k, path.head? = some k → k = 0)
    (hchain : path.IsChain fun k c => ∃ cs, children[k]? = some cs ∧ c ∈ cs)
    (hlast : path.getLast? = some k) : path.reverse = ancestry parents k := by
  induction path using List.reverseRecOn generalizing k with
  | nil => cases hlast
  | append_singleton path j ih =>
    obtain rfl : j = k := by simpa using hlast
    rw [List.reverse_append, List.reverse_singleton, List.singleton_append]
    cases hpath : path.getLast? with
    | none =>
      obtain rfl := List.getLast?_eq_none_iff.mp hpath
      obtain rfl := hhead j rfl
      rw [ancestry_root ((h.root 0).mpr rfl), List.reverse_nil]
    | some q =>
      obtain ⟨hinit, _, hstep⟩ := List.isChain_append.mp hchain
      obtain ⟨cs, hcs, hmem⟩ := hstep q hpath j rfl
      have hparent := (h.child q cs j hcs).mp hmem
      have hne : path ≠ [] := by
        rintro rfl
        cases hpath
      rw [ancestry_child hparent (h.older j q hparent), ih ?_ hinit hpath]
      intro i hi
      exact hhead i (by rw [List.head?_append_of_ne_nil _ hne, hi])

end Children

section Totals

variable {V : Type*} [Add V] {weights : List V}

/-- The sum of a list, added up from the left. An empty list has none. -/
def sumLeft : List V → Option V
  | [] => none
  | v :: rest => some (rest.foldl (· + ·) v)

theorem sumLeft_concat {l : List V} (h : l ≠ []) (v : V) :
    sumLeft (l ++ [v]) = (sumLeft l).map (· + v) := by
  cases l with
  | nil => exact absurd rfl h
  | cons w rest => simp [sumLeft]

theorem sumLeft_replicate_one (n : ℕ) : sumLeft (List.replicate (n + 1) 1) = some (n + 1) := by
  induction n with
  | zero => rfl
  | succ n ih =>
    rw [List.replicate_succ', sumLeft_concat (by simp), ih]
    rfl

/-- The weights of a subtree, in the order in which its nodes were made. -/
def weightsBelow (parents : List (Option ℕ)) (weights : List V) (k : ℕ) : List V :=
  (subtree parents k).filterMap (weights[·]?)

/-- The sum of the weights in a subtree, in the order in which its nodes were made. -/
def total (parents : List (Option ℕ)) (weights : List V) (k : ℕ) : Option V :=
  sumLeft (weightsBelow parents weights k)

omit [Add V] in
theorem weightsBelow_ne_nil (hlen : weights.length = parents.length) (hk : k < parents.length) :
    weightsBelow parents weights k ≠ [] := by
  have hmem : k ∈ subtree parents k := mem_subtree.mpr ⟨hk, self_mem_ancestry⟩
  refine List.ne_nil_of_mem (a := weights[k]) (List.mem_filterMap.mpr ⟨k, hmem, ?_⟩)
  exact List.getElem?_eq_getElem (hlen ▸ hk)

omit [Add V] in
theorem weightsBelow_append_leaf (hlen : weights.length = parents.length)
    (hp : p < parents.length) (hk : k < parents.length) (v : V) :
    weightsBelow (parents ++ [some p]) (weights ++ [v]) k =
      weightsBelow parents weights k ++ if k ∈ ancestry parents p then [v] else [] := by
  have hold : (subtree parents k).filterMap ((weights ++ [v])[·]?) =
      weightsBelow parents weights k := by
    refine List.filterMap_congr fun j hj => ?_
    have hj : j < weights.length := hlen ▸ (mem_subtree.mp hj).1
    exact List.getElem?_append_left hj
  rw [weightsBelow, subtree_append_leaf hp hk, List.filterMap_append, hold]
  congr 1
  split_ifs
  · simp [← hlen]
  · rfl

theorem total_append_leaf (hlen : weights.length = parents.length) (hp : p < parents.length)
    (hk : k < parents.length) (v : V) :
    total (parents ++ [some p]) (weights ++ [v]) k =
      (total parents weights k).map fun x => if k ∈ ancestry parents p then x + v else x := by
  rw [total, weightsBelow_append_leaf hlen hp hk]
  split_ifs
  · exact sumLeft_concat (weightsBelow_ne_nil hlen hk) v
  · rw [List.append_nil, ← total]
    exact Option.map_id'.symm

theorem total_leaf (hlen : weights.length = parents.length) (parent : Option ℕ) (v : V) :
    total (parents ++ [parent]) (weights ++ [v]) parents.length = some v := by
  rw [total, weightsBelow, subtree_leaf]
  simp [← hlen, sumLeft]

theorem total_replicate_one (hk : k < parents.length) :
    total parents (List.replicate parents.length 1) k = some (subtree parents k).length := by
  have hone : ∀ j ∈ subtree parents k, (List.replicate parents.length 1)[j]? = some 1 := by
    intro j hj
    simp [(mem_subtree.mp hj).1]
  have hmem : k ∈ subtree parents k := mem_subtree.mpr ⟨hk, self_mem_ancestry⟩
  have hpos : 0 < (subtree parents k).length := List.length_pos_of_mem hmem
  rw [total, weightsBelow, List.filterMap_congr hone, List.filterMap_eq_map' (f := fun _ => 1),
    List.map_const', ← Nat.sub_add_cancel hpos, sumLeft_replicate_one]

def changeAlong {α : Type*} (f : α → α) (path : List ℕ) (l : List α) : List α :=
  path.foldl (fun l i => l.modify i f) l

theorem getElem?_changeAlong {α : Type*} (f : α → α) {path : List ℕ} (hpath : path.Nodup)
    (l : List α) (k : ℕ) :
    (changeAlong f path l)[k]? = l[k]?.map fun x => if k ∈ path then f x else x := by
  induction path generalizing l with
  | nil => simp [changeAlong]
  | cons i path ih =>
    obtain ⟨hi, hpath⟩ := List.nodup_cons.mp hpath
    rw [changeAlong, List.foldl_cons, ← changeAlong, ih hpath, List.getElem?_modify]
    cases l[k]? with
    | none => rfl
    | some x =>
      by_cases hk : i = k
      · subst hk
        simp [hi]
      · simp [hk, Ne.symm hk]

theorem changeAlong_id {α : Type*} (path : List ℕ) (l : List α) :
    changeAlong id path l = l := by
  induction path generalizing l with
  | nil => rfl
  | cons i path ih =>
    rw [changeAlong, List.foldl_cons, ← changeAlong, ih]
    exact List.modify_id ..

def totals (parents : List (Option ℕ)) (weights : List V) : List (Option V) :=
  (List.range parents.length).map (total parents weights)

theorem length_totals (parents : List (Option ℕ)) (weights : List V) :
    (totals parents weights).length = parents.length := by simp [totals]

theorem getElem?_totals (hk : k < parents.length) (weights : List V) :
    (totals parents weights)[k]? = some (total parents weights k) := by
  simp [totals, hk]

theorem totals_root (parent : Option ℕ) (v : V) : totals [parent] [v] = [some v] := by
  have htotal : total ([] ++ [parent]) ([] ++ [v]) 0 = some v :=
    total_leaf (by rfl : ([] : List V).length = ([] : List (Option ℕ)).length) parent v
  simpa [totals] using htotal

/-- The totals after a leaf has grown are the old ones with its weight added on the path to it. -/
theorem totals_append_leaf (hlen : weights.length = parents.length) (hp : p < parents.length)
    {path : List ℕ} (hpath : path.reverse = ancestry parents p) (v : V) :
    changeAlong (Option.map (· + v)) path (totals parents weights ++ [some v]) =
      totals (parents ++ [some p]) (weights ++ [v]) := by
  have hnodup : path.Nodup := List.nodup_reverse.mp (hpath ▸ ancestry_nodup parents p)
  have hmem : ∀ k, k ∈ path ↔ k ∈ ancestry parents p := by
    intro k
    rw [← hpath, List.mem_reverse]
  apply List.ext_getElem?
  intro k
  rw [getElem?_changeAlong _ hnodup]
  simp only [hmem]
  have hgrown : (parents ++ [some p]).length = parents.length + 1 := by simp
  rcases Nat.lt_trichotomy k parents.length with hk | rfl | hk
  · have hk' : k < (parents ++ [some p]).length := by omega
    rw [getElem?_totals hk', List.getElem?_append_left (by rwa [length_totals]),
      getElem?_totals hk, total_append_leaf hlen hp hk]
    by_cases hpart : k ∈ ancestry parents p
    · simp [hpart]
    · simp [hpart]
  · have hold : ¬ parents.length ∈ ancestry parents p := fun h =>
      absurd hp (Nat.not_lt.mpr (le_of_mem_ancestry h))
    rw [getElem?_totals (by omega), total_leaf hlen, List.getElem?_append_right (by simp [totals])]
    simp [totals, hold]
  · rw [List.getElem?_eq_none (by rw [List.length_append, length_totals]; exact hk),
      List.getElem?_eq_none (by rw [length_totals]; omega)]
    rfl

end Totals

end GrowingTree
