import IsabelleGym.Dict

/-!
# Options taken in turn

A dictionary keeps a cursor for each key. A request of a key is answered with the
first of its options from the cursor on that is not to be skipped, and the cursor
moves behind it, so no option is given twice.
-/

namespace Cursors

open List

variable {κ α : Type*}

def position [DecidableEq κ] (d : Dict κ ℕ) (k : κ) : ℕ := (d.lookup k).getD 0

def next (skip : α → Bool) : List α → ℕ → Option (α × ℕ)
  | [], _ => none
  | a :: options, i => if skip a then next skip options (i + 1) else some (a, i + 1)

theorem next_eq_some {skip : α → Bool} {options : List α} {i j : ℕ} {a : α}
    (h : next skip options i = some (a, j)) :
    skip a = false ∧ ∃ skipped rest, options = skipped ++ a :: rest ∧
      (∀ b ∈ skipped, skip b = true) ∧ j = i + (skipped.length + 1) := by
  induction options generalizing i with
  | nil => cases h
  | cons b options ih =>
    rw [next] at h
    split_ifs at h with hb
    · obtain ⟨ha, skipped, rest, rfl, hskipped, rfl⟩ := ih h
      refine ⟨ha, b :: skipped, rest, rfl, ?_, ?_⟩
      · intro c hc
        rcases List.mem_cons.mp hc with rfl | hc
        · exact hb
        · exact hskipped c hc
      · rw [List.length_cons]
        omega
    · cases h
      exact ⟨by simpa using hb, [], options, rfl, by simp, rfl⟩

theorem next_keep (options : List α) (i : ℕ) :
    next (fun _ => false) options i = options.head?.map fun a => (a, i + 1) := by
  cases options <;> rfl

variable [DecidableEq κ]

def ask (d : Dict κ ℕ) (k : κ) (skip : α → Bool) (options : List α) : Option α × Dict κ ℕ :=
  match next skip (options.drop (position d k)) (position d k) with
  | none => (none, d)
  | some (a, i) => (some a, Dict.put d k i)

variable (d : Dict κ ℕ) (k : κ) (skip : α → Bool) (options : List α)

theorem position_put (i : ℕ) : position (Dict.put d k i) k = i := by
  rw [position, Dict.lookup_put_self, Option.getD_some]

theorem position_ask_of_ne {k' : κ} (h : k' ≠ k) :
    position (ask d k skip options).2 k' = position d k' := by
  unfold ask
  split
  · rfl
  · rw [position, Dict.lookup_put_of_ne h, position]

/-- An answer is taken from what is left for the key. -/
theorem ask_sublist :
    (ask d k skip options).1.toList ++ options.drop (position (ask d k skip options).2 k) <+
      options.drop (position d k) := by
  unfold ask
  split
  · exact List.Sublist.refl _
  · rename_i a j hnext
    obtain ⟨_, skipped, rest, heq, _, rfl⟩ := next_eq_some hnext
    have hrest : options.drop (position d k + (skipped.length + 1)) = rest := by
      rw [← List.drop_drop, heq, ← List.drop_drop, List.drop_left]
      rfl
    rw [position_put, hrest, heq, Option.toList_some, List.singleton_append]
    exact List.sublist_append_right skipped (a :: rest)

/-- Where nothing is skipped the answer is the next option, and there is none at the end. -/
theorem ask_eq_of_keep (h : ∀ a, skip a = false) :
    (ask d k skip options).1.toList ++ options.drop (position (ask d k skip options).2 k) =
      options.drop (position d k) := by
  unfold ask
  split
  · rfl
  · rename_i a j hnext
    obtain ⟨_, skipped, rest, heq, hskipped, rfl⟩ := next_eq_some hnext
    cases skipped with
    | nil =>
      rw [position_put, ← List.drop_drop, heq]
      rfl
    | cons b skipped =>
      have hb := hskipped b List.mem_cons_self
      rw [h b] at hb
      cases hb

end Cursors
