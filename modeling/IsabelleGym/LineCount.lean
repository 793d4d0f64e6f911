import Mathlib.Data.List.Basic
import Mathlib.Data.List.Count

/-!
# Counting line ends before an offset

Line numbers are counts of separators before an offset. A text that is empty or
ends with a separator cuts cleanly: behind it, comparing line numbers and
comparing offsets is the same thing.
-/

namespace LineCount

variable {α : Type*}

def Terminated (sep : α) (t : List α) : Prop := t = [] ∨ ∃ u, t = u ++ [sep]

theorem terminated_append_singleton (sep : α) (t u : List α) :
    Terminated sep (t ++ (u ++ [sep])) :=
  Or.inr ⟨t ++ u, by rw [List.append_assoc]⟩

variable [DecidableEq α]

def lineAt (sep : α) (t : List α) (offset : ℕ) : ℕ := 1 + (t.take offset).count sep

theorem count_take_le (sep : α) (t : List α) (n : ℕ) : (t.take n).count sep ≤ t.count sep :=
  (List.take_sublist n t).count_le sep

/-- A proper prefix of a terminated text misses its last separator. -/
theorem count_take_lt {sep : α} {t : List α} (ht : Terminated sep t) {n : ℕ} (hn : n < t.length) :
    (t.take n).count sep < t.count sep := by
  rcases ht with rfl | ⟨u, rfl⟩
  · simp at hn
  · have hle : n ≤ u.length := by
      simp only [List.length_append, List.length_singleton] at hn
      omega
    rw [List.take_append_of_le_length hle, List.count_append, List.count_singleton_self]
    have := count_take_le sep u n
    omega

/-- Behind a terminated text, an offset lies on the first new line or later
exactly when it lies past that text. -/
theorem line_le_lineAt_iff {sep : α} {old : List α} (hold : Terminated sep old) (new : List α)
    (offset : ℕ) :
    1 + old.count sep ≤ lineAt sep (old ++ new) offset ↔ old.length ≤ offset := by
  unfold lineAt
  constructor
  · intro h
    by_contra hlt
    have hlt' : offset < old.length := by omega
    rw [List.take_append_of_le_length (Nat.le_of_lt hlt')] at h
    have := count_take_lt hold hlt'
    omega
  · intro h
    rw [List.take_append, List.take_of_length_le h, List.count_append]
    omega

end LineCount
