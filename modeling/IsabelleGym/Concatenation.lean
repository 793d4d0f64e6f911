import Mathlib.Data.List.TakeWhile

/-!
# Cutting concatenations

Pieces that are put together without their lengths can be cut apart again where
each of them begins with a text that has a mark, and the mark is nowhere else.
-/

namespace Concatenation

variable {α : Type*} [DecidableEq α] {mark : α} {pre : List α}

/-- A piece without the mark ends where the next prefix begins, or at the end. -/
theorem eq_of_append_eq (hmark : mark ∈ pre) {a b rest rest' : List α} (ha : mark ∉ a)
    (hb : mark ∉ b) (hrest : rest = [] ∨ pre <+: rest) (hrest' : rest' = [] ∨ pre <+: rest')
    (h : a ++ rest = b ++ rest') : a = b := by
  have htake : ∀ {c t : List α}, mark ∉ c →
      (c ++ pre ++ t).takeWhile (· ≠ mark) = c ++ pre.takeWhile (· ≠ mark) := by
    intro c t hc
    have hbefore : ∀ x ∈ c, decide (x ≠ mark) = true := fun x hx => by
      simpa using fun heq : x = mark => hc (heq ▸ hx)
    have hin : ¬ (pre.takeWhile (· ≠ mark)).length = pre.length := by
      intro hlength
      have hall := List.takeWhile_eq_self_iff.mp
        ((List.takeWhile_prefix _).eq_of_length hlength)
      simpa using hall mark hmark
    rw [List.append_assoc, List.takeWhile_append_of_pos hbefore, List.takeWhile_append, if_neg hin]
  rcases hrest with rfl | ⟨t, rfl⟩ <;> rcases hrest' with rfl | ⟨t', rfl⟩
  · simpa using h
  · refine absurd ?_ ha
    rw [List.append_nil] at h
    rw [h]
    simp [hmark]
  · refine absurd ?_ hb
    rw [List.append_nil] at h
    rw [← h]
    simp [hmark]
  · have hcut := congrArg (List.takeWhile (· ≠ mark)) h
    rw [← List.append_assoc, ← List.append_assoc, htake ha, htake hb] at hcut
    exact List.append_cancel_right hcut

theorem flatMap_injective (hmark : mark ∈ pre) {l l' : List (List α)} (hl : ∀ x ∈ l, mark ∉ x)
    (hl' : ∀ x ∈ l', mark ∉ x) (h : (l.flatMap fun x => pre ++ x) = l'.flatMap fun x => pre ++ x) :
    l = l' := by
  have hne : pre ≠ [] := List.ne_nil_of_mem hmark
  have hbegins : ∀ k : List (List α),
      (k.flatMap fun x => pre ++ x) = [] ∨ pre <+: k.flatMap fun x => pre ++ x := by
    intro k
    cases k with
    | nil => exact .inl rfl
    | cons x k => exact .inr ⟨x ++ k.flatMap fun x => pre ++ x, by simp⟩
  induction l generalizing l' with
  | nil =>
    cases l' with
    | nil => rfl
    | cons y l' => simp [hne] at h
  | cons x l ih =>
    cases l' with
    | nil => simp [hne] at h
    | cons y l' =>
      simp only [List.flatMap_cons, List.append_assoc, List.append_cancel_left_eq] at h
      have hxy : x = y := eq_of_append_eq hmark (hl x List.mem_cons_self) (hl' y List.mem_cons_self)
        (hbegins l) (hbegins l') h
      subst hxy
      rw [ih (fun z hz => hl z (List.mem_cons_of_mem x hz))
        (fun z hz => hl' z (List.mem_cons_of_mem x hz)) (List.append_cancel_left h)]

omit [DecidableEq α] in
theorem eq_of_map_eq {β : Type*} {f : β → List α} {l l' : List β} (h : l.map f = l'.map f)
    (hinj : ∀ x ∈ l, ∀ y ∈ l', f x = f y → x = y) : l = l' := by
  induction l generalizing l' with
  | nil => exact (List.map_eq_nil_iff.mp h.symm).symm
  | cons x l ih =>
    cases l' with
    | nil => cases h
    | cons y l' =>
      rw [List.map_cons, List.map_cons, List.cons.injEq] at h
      rw [hinj x List.mem_cons_self y List.mem_cons_self h.1, ih h.2 fun x hx y hy =>
        hinj x (List.mem_cons_of_mem _ hx) y (List.mem_cons_of_mem _ hy)]

end Concatenation
