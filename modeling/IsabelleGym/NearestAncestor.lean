import IsabelleGym.ThyStatus
import Mathlib.Data.Nat.Find

/-!
# The alternating walk to the nearest common ancestor

Two cursors go up the two chains in turn, each with the set of what it has
visited. Only the cursor of the deeper chain can meet a status the other one has
visited already, and the first status it meets is the deepest common one.
-/

namespace IsabelleGym
namespace ThyStatus

theorem length_chain (s : ThyStatus) : s.chain.length = s.depth := by
  induction s with
  | root f => rfl
  | child f p ih => rw [chain, List.length_cons, ih, depth]

@[simp] theorem chain_getElem?_zero (s : ThyStatus) : s.chain[0]? = some s := by
  cases s <;> rfl

theorem chain_getElem?_succ (s : ThyStatus) (j : ℕ) :
    s.chain[j + 1]? = s.chain[j]?.bind parent := by
  induction s generalizing j with
  | root f => cases j <;> simp [chain]
  | child f p ih =>
    cases j with
    | zero => simp [chain]
    | succ j => simpa [chain] using ih j

/-- A status stands in a chain where its depth says. -/
theorem index_add_depth {s x : ThyStatus} {j : ℕ} (h : s.chain[j]? = some x) :
    j + x.depth = s.depth := by
  induction s generalizing j with
  | root f =>
    obtain ⟨hj, hx⟩ := List.getElem?_eq_some_iff.mp h
    have hj0 : j = 0 := by simpa [chain] using hj
    subst hj0
    obtain rfl : root f = x := by simpa [chain] using hx
    omega
  | child f p ih =>
    cases j with
    | zero =>
      obtain rfl : child f p = x := by simpa [chain] using h
      omega
    | succ j =>
      have hp := ih (j := j) (by simpa [chain] using h)
      rw [depth]
      omega

theorem exists_index {s x : ThyStatus} (h : x ∈ s.chain) :
    ∃ j, s.chain[j]? = some x ∧ j + x.depth = s.depth := by
  obtain ⟨j, hj⟩ := List.mem_iff_getElem?.mp h
  exact ⟨j, hj, index_add_depth hj⟩

theorem mem_take_chain_iff {s x : ThyStatus} {r : ℕ} :
    x ∈ s.chain.take r ↔ x ∈ s.chain ∧ s.depth < r + x.depth := by
  constructor
  · intro h
    obtain ⟨j, hj⟩ := List.mem_iff_getElem?.mp h
    have hlt : j < r := by
      by_contra hge
      rw [List.getElem?_take_eq_none (by omega)] at hj
      simp at hj
    rw [List.getElem?_take_of_lt hlt] at hj
    have hdepth := index_add_depth hj
    exact ⟨List.mem_of_getElem? hj, by omega⟩
  · rintro ⟨h, hlt⟩
    obtain ⟨j, hj, hdepth⟩ := exists_index h
    have hjr : j < r := by omega
    apply List.mem_of_getElem? (i := j)
    rw [List.getElem?_take_of_lt hjr, hj]

theorem eq_of_depth_eq {s x y : ThyStatus} (hx : x ∈ s.chain) (hy : y ∈ s.chain)
    (h : x.depth = y.depth) : x = y := by
  obtain ⟨i, hi, hid⟩ := exists_index hx
  obtain ⟨j, hj, hjd⟩ := exists_index hy
  obtain rfl : i = j := by omega
  exact Option.some.inj (hi.symm.trans hj)

@[ext] structure AncestorWalk where
  currentLeft : Option ThyStatus
  currentRight : Option ThyStatus
  visitedLeft : List ThyStatus
  visitedRight : List ThyStatus
  nca : Option ThyStatus
deriving DecidableEq

namespace AncestorWalk

/-- The visited statuses of this branch and the answer after the visit. -/
def visitOneBranchCheckingOther (current : Option ThyStatus)
    (visitedThisBranch visitedOtherBranch : List ThyStatus) (nca : Option ThyStatus) :
    List ThyStatus × Option ThyStatus :=
  match current with
  | none => (visitedThisBranch, nca)
  | some status =>
    (status :: visitedThisBranch, if status ∈ visitedOtherBranch then some status else nca)

def start (s other : ThyStatus) : AncestorWalk := ⟨some s, some other, [], [], none⟩

def going (w : AncestorWalk) : Bool :=
  w.nca.isNone && (w.currentLeft.isSome || w.currentRight.isSome)

def round (w : AncestorWalk) : AncestorWalk :=
  let left := visitOneBranchCheckingOther w.currentLeft w.visitedLeft w.visitedRight w.nca
  let right := visitOneBranchCheckingOther w.currentRight w.visitedRight left.1 left.2
  ⟨w.currentLeft.bind parent, w.currentRight.bind parent, left.1, right.1, right.2⟩

/-- The walk before round `j` when it has found nothing yet. -/
def searching (s other : ThyStatus) (j : ℕ) : AncestorWalk :=
  ⟨s.chain[j]?, other.chain[j]?, (s.chain.take j).reverse, (other.chain.take j).reverse, none⟩

theorem visitOneBranchCheckingOther_fst (current : Option ThyStatus)
    (visitedThis visitedOther : List ThyStatus) (nca : Option ThyStatus) :
    (visitOneBranchCheckingOther current visitedThis visitedOther nca).1 =
      current.toList ++ visitedThis := by
  cases current <;> rfl

theorem visitOneBranchCheckingOther_snd (current : Option ThyStatus)
    (visitedThis visitedOther : List ThyStatus) (nca : Option ThyStatus) :
    (visitOneBranchCheckingOther current visitedThis visitedOther nca).2 =
      (current.filter (· ∈ visitedOther)).or nca := by
  cases current with
  | none => rfl
  | some x =>
    by_cases hx : x ∈ visitedOther <;>
      simp [visitOneBranchCheckingOther, Option.filter_some, hx]

theorem round_eq {w : AncestorWalk} (hw : w.nca = none) :
    w.round =
      { currentLeft := w.currentLeft.bind parent
        currentRight := w.currentRight.bind parent
        visitedLeft := w.currentLeft.toList ++ w.visitedLeft
        visitedRight := w.currentRight.toList ++ w.visitedRight
        nca := (w.currentRight.filter (· ∈ w.currentLeft.toList ++ w.visitedLeft)).or
          (w.currentLeft.filter (· ∈ w.visitedRight)) } := by
  simp only [round, visitOneBranchCheckingOther_fst, visitOneBranchCheckingOther_snd, hw,
    Option.or_none]

theorem toList_append_take_reverse (s : ThyStatus) (j : ℕ) :
    s.chain[j]?.toList ++ (s.chain.take j).reverse = (s.chain.take (j + 1)).reverse := by
  rw [List.take_add_one, List.reverse_append]
  cases s.chain[j]? <;> rfl

/-- The left cursor meets a visited status only where its chain is the deeper one. -/
theorem filter_visitedRight (s other : ThyStatus) (j : ℕ) :
    s.chain[j]?.filter (· ∈ (other.chain.take j).reverse) =
      if other.depth < s.depth then s.chain[j]?.filter (· ∈ other.chain) else none := by
  cases hx : s.chain[j]? with
  | none => simp
  | some x =>
    have hdepth := index_add_depth hx
    have hiff : x ∈ other.chain.take j ↔ x ∈ other.chain ∧ other.depth < s.depth := by
      rw [mem_take_chain_iff, hdepth]
    by_cases hlt : other.depth < s.depth <;> simp [Option.filter_some, hiff, hlt]

/-- The right cursor looks at one status more than the left one. -/
theorem filter_visitedLeft (s other : ThyStatus) (j : ℕ) :
    other.chain[j]?.filter (· ∈ s.chain[j]?.toList ++ (s.chain.take j).reverse) =
      if other.depth < s.depth then none else other.chain[j]?.filter (· ∈ s.chain) := by
  cases hx : other.chain[j]? with
  | none => simp
  | some x =>
    have hdepth := index_add_depth hx
    have hiff : x ∈ s.chain[j]?.toList ++ (s.chain.take j).reverse ↔
        x ∈ s.chain ∧ ¬ other.depth < s.depth := by
      rw [toList_append_take_reverse, List.mem_reverse, mem_take_chain_iff]
      constructor
      · rintro ⟨hmem, hlt⟩
        exact ⟨hmem, by omega⟩
      · rintro ⟨hmem, hge⟩
        exact ⟨hmem, by omega⟩
    by_cases hlt : other.depth < s.depth <;>
      simp only [Option.filter_some, decide_eq_true_eq, hiff, hlt, not_true, not_false_iff,
        and_true, and_false, if_false, if_true]

/-- What round `j` finds: the status of the deeper chain, if the other chain has it too. -/
def found (s other : ThyStatus) (j : ℕ) : Option ThyStatus :=
  if other.depth < s.depth then s.chain[j]?.filter (· ∈ other.chain)
  else other.chain[j]?.filter (· ∈ s.chain)

theorem round_searching (s other : ThyStatus) (j : ℕ) :
    (searching s other j).round = { searching s other (j + 1) with nca := found s other j } := by
  have hnca : (other.chain[j]?.filter (· ∈ s.chain[j]?.toList ++ (s.chain.take j).reverse)).or
      (s.chain[j]?.filter (· ∈ (other.chain.take j).reverse)) = found s other j := by
    rw [filter_visitedLeft, filter_visitedRight, found]
    by_cases hlt : other.depth < s.depth <;> simp [hlt]
  rw [round_eq (by rfl)]
  ext1
  · exact (chain_getElem?_succ s j).symm
  · exact (chain_getElem?_succ other j).symm
  · exact toList_append_take_reverse s j
  · exact toList_append_take_reverse other j
  · exact hnca

theorem start_eq_searching (s other : ThyStatus) : start s other = searching s other 0 := by
  simp [start, searching]

/-- As long as no round finds anything the cursors go up one status a round. -/
theorem iterate_round_start {s other : ThyStatus} {j : ℕ}
    (h : ∀ i < j, found s other i = none) : round^[j] (start s other) = searching s other j := by
  induction j with
  | zero => exact start_eq_searching s other
  | succ j ih =>
    rw [Function.iterate_succ_apply', ih fun i hi => h i (Nat.lt_succ_of_lt hi), round_searching,
      h j (Nat.lt_succ_self j)]
    rfl

theorem going_searching {s other : ThyStatus} {j : ℕ} :
    (searching s other j).going = true ↔ j < max s.depth other.depth := by
  simp only [going, searching, Option.isNone_none, Bool.true_and, Bool.or_eq_true,
    Option.isSome_iff_ne_none, ne_eq, List.getElem?_eq_none_iff, length_chain]
  omega

end AncestorWalk

/-- A status of both chains with no deeper one. -/
def IsDeepestCommon (s other d : ThyStatus) : Prop :=
  d ∈ s.chain ∧ d ∈ other.chain ∧ ∀ x ∈ s.chain, x ∈ other.chain → x.depth ≤ d.depth

theorem IsDeepestCommon.unique {s other d e : ThyStatus} (hd : IsDeepestCommon s other d)
    (he : IsDeepestCommon s other e) : d = e := by
  obtain ⟨hds, hdo, hdmax⟩ := hd
  obtain ⟨hes, heo, hemax⟩ := he
  exact eq_of_depth_eq hds hes (Nat.le_antisymm (hemax d hds hdo) (hdmax e hes heo))

namespace AncestorWalk

theorem found_eq_some {s other x : ThyStatus} {j : ℕ} (h : found s other j = some x) :
    x ∈ s.chain ∧ x ∈ other.chain ∧ j + x.depth = max s.depth other.depth := by
  unfold found at h
  split at h
  · obtain ⟨hx, hmem⟩ := Option.filter_eq_some_iff.mp h
    have hdepth := index_add_depth hx
    exact ⟨List.mem_of_getElem? hx, by simpa using hmem, by omega⟩
  · obtain ⟨hx, hmem⟩ := Option.filter_eq_some_iff.mp h
    have hdepth := index_add_depth hx
    exact ⟨by simpa using hmem, List.mem_of_getElem? hx, by omega⟩

/-- Every common status is found in the round its depth says. -/
theorem exists_found {s other x : ThyStatus} (hs : x ∈ s.chain) (ho : x ∈ other.chain) :
    ∃ j, found s other j = some x := by
  by_cases hlt : other.depth < s.depth
  · obtain ⟨j, hj, _⟩ := exists_index hs
    exact ⟨j, by simp [found, hlt, hj, ho]⟩
  · obtain ⟨j, hj, _⟩ := exists_index ho
    exact ⟨j, by simp [found, hlt, hj, hs]⟩

theorem isDeepestCommon_of_first {s other d : ThyStatus} {j : ℕ} (hd : found s other j = some d)
    (hfirst : ∀ i < j, found s other i = none) : IsDeepestCommon s other d := by
  obtain ⟨hds, hdo, hdepth⟩ := found_eq_some hd
  refine ⟨hds, hdo, ?_⟩
  intro x hxs hxo
  obtain ⟨i, hi⟩ := exists_found hxs hxo
  obtain ⟨_, _, hxdepth⟩ := found_eq_some hi
  have hji : j ≤ i := by
    by_contra hlt
    rw [hfirst i (by omega)] at hi
    cases hi
  omega

/-- The walk of two chains ends, and where it ends it has the deepest common status, or
none if there is no common one. -/
theorem ends (s other : ThyStatus) :
    ∃ rounds ≤ max s.depth other.depth,
      (∀ j < rounds, (round^[j] (start s other)).going = true) ∧
      (round^[rounds] (start s other)).going = false ∧
      ((∃ d, (round^[rounds] (start s other)).nca = some d ∧ IsDeepestCommon s other d) ∨
        (round^[rounds] (start s other)).nca = none ∧ ∀ x ∈ s.chain, x ∉ other.chain) := by
  by_cases hfound : ∃ j, found s other j ≠ none
  · classical
    let j := Nat.find hfound
    have hfirst : ∀ i < j, found s other i = none := fun i hi => by
      simpa using Nat.find_min hfound hi
    obtain ⟨d, hd⟩ := Option.ne_none_iff_exists'.mp (Nat.find_spec hfound)
    have hdepth := (found_eq_some hd).2.2
    have hpos : 0 < d.depth := by cases d <;> simp [depth]
    have hlast : round^[j + 1] (start s other) =
        { searching s other (j + 1) with nca := some d } := by
      rw [Function.iterate_succ_apply', iterate_round_start hfirst, round_searching, hd]
    refine ⟨j + 1, by omega, ?_, ?_, ?_⟩
    · intro i hi
      rw [iterate_round_start fun k hk => hfirst k (by omega), going_searching]
      omega
    · simp [hlast, going]
    · exact Or.inl ⟨d, by rw [hlast], isDeepestCommon_of_first hd hfirst⟩
  · have hnone : ∀ j, found s other j = none := by simpa using hfound
    refine ⟨max s.depth other.depth, le_rfl, ?_, ?_, ?_⟩
    · intro j hj
      rw [iterate_round_start fun i _ => hnone i, going_searching]
      exact hj
    · rw [iterate_round_start fun i _ => hnone i, Bool.eq_false_iff, ne_eq, going_searching]
      exact lt_irrefl _
    · refine Or.inr ⟨by rw [iterate_round_start fun i _ => hnone i]; rfl, ?_⟩
      intro x hs ho
      obtain ⟨j, hj⟩ := exists_found hs ho
      rw [hnone j] at hj
      cases hj

/-- The recursion with enough rounds is the while loop. -/
theorem nearestCommonAncestorLoop_eq {w : AncestorWalk} {rounds fuel : ℕ} (hw : w.nca = none)
    (hgoing : ∀ j < rounds, (round^[j] w).going = true)
    (hend : (round^[rounds] w).going = false) (hfuel : rounds ≤ fuel) :
    nearestCommonAncestorLoop fuel w.currentLeft w.currentRight w.visitedLeft w.visitedRight =
      (round^[rounds] w).nca := by
  induction rounds generalizing w fuel with
  | zero =>
    have hnone : w.currentLeft = none ∧ w.currentRight = none := by
      simpa [going, hw] using hend
    rw [Function.iterate_zero_apply, hw]
    cases fuel <;> simp [nearestCommonAncestorLoop, hnone]
  | succ rounds ih =>
    obtain ⟨fuel, rfl⟩ : ∃ k, fuel = k + 1 := ⟨fuel - 1, by omega⟩
    have hnow : (w.currentLeft.isNone && w.currentRight.isNone) = false := by
      have hcursors := hgoing 0 (Nat.succ_pos _)
      simp only [Function.iterate_zero_apply, going, Bool.and_eq_true, Bool.or_eq_true] at hcursors
      rcases hcursors.2 with hleft | hright
      · obtain ⟨a, ha⟩ := Option.isSome_iff_exists.mp hleft
        rw [ha]
        rfl
      · obtain ⟨a, ha⟩ := Option.isSome_iff_exists.mp hright
        rw [ha]
        exact Bool.and_false _
    rw [nearestCommonAncestorLoop, hnow, if_neg Bool.false_ne_true, Function.iterate_succ_apply]
    cases hround : w.round.nca with
    | some d =>
      -- the loop ends behind this round
      have hlast : rounds = 0 := by
        by_contra hpos
        have h := hgoing 1 (by omega)
        simp [going, hround] at h
      subst hlast
      rw [Function.iterate_zero_apply, hround]
      simp only [round_eq hw] at hround
      dsimp only
      rw [hround]
    | none =>
      have hrest : nearestCommonAncestorLoop fuel w.round.currentLeft w.round.currentRight
          w.round.visitedLeft w.round.visitedRight = (round^[rounds] w.round).nca := by
        apply ih hround
        · intro j hj
          rw [← Function.iterate_succ_apply]
          exact hgoing (j + 1) (by omega)
        · rw [← Function.iterate_succ_apply]
          exact hend
        · omega
      rw [← hrest]
      simp only [round_eq hw] at hround ⊢
      rw [hround]

end AncestorWalk

/-- The walk of two chains ends, with the deepest common status as its answer, and without
one only if the chains share no status. -/
theorem nearestCommonAncestor_deepest (s other : ThyStatus) :
    (∃ rounds ≤ max s.depth other.depth,
      (∀ j < rounds, (AncestorWalk.round^[j] (.start s other)).going = true) ∧
      (AncestorWalk.round^[rounds] (.start s other)).going = false ∧
      (AncestorWalk.round^[rounds] (.start s other)).nca = s.nearestCommonAncestor other) ∧
    (∀ d, s.nearestCommonAncestor other = some d ↔ IsDeepestCommon s other d) ∧
    (s.nearestCommonAncestor other = none ↔ ∀ x ∈ s.chain, x ∉ other.chain) := by
  obtain ⟨rounds, hrounds, hgoing, hend, hanswer⟩ := AncestorWalk.ends s other
  have hresult : s.nearestCommonAncestor other =
      (AncestorWalk.round^[rounds] (.start s other)).nca :=
    AncestorWalk.nearestCommonAncestorLoop_eq rfl hgoing hend (by omega)
  refine ⟨⟨rounds, hrounds, hgoing, hend, hresult.symm⟩, ?_⟩
  rw [hresult]
  rcases hanswer with ⟨d, hnca, hd⟩ | ⟨hnca, hdisjoint⟩
  · rw [hnca]
    refine ⟨fun e => ⟨?_, ?_⟩, ⟨?_, ?_⟩⟩
    · rintro ⟨⟩
      exact hd
    · intro he
      rw [hd.unique he]
    · rintro ⟨⟩
    · intro hdisjoint
      exact absurd hd.2.1 (hdisjoint d hd.1)
  · rw [hnca]
    refine ⟨fun e => ⟨?_, ?_⟩, ⟨?_, ?_⟩⟩
    · rintro ⟨⟩
    · intro he
      exact absurd he.2.1 (hdisjoint e he.1)
    · exact fun _ => hdisjoint
    · exact fun _ => rfl

end ThyStatus
end IsabelleGym
