import Mathlib.Data.List.Nodup

/-!
# Dictionaries as association lists

An assignment removes what the key was bound to, so keys stay unique and an entry
is in the dictionary exactly when its key is bound to its value.
-/

abbrev Dict (κ ν : Type*) := List (κ × ν)

namespace Dict

variable {κ ν : Type*} [DecidableEq κ] (d : Dict κ ν)

def del (k : κ) : Dict κ ν := d.filter fun entry => entry.1 ≠ k

def put (k : κ) (v : ν) : Dict κ ν := (k, v) :: Dict.del d k

variable {d} {k : κ} {v : ν}

theorem mem_del {entry : κ × ν} : entry ∈ Dict.del d k ↔ entry ∈ d ∧ entry.1 ≠ k := by
  simp [del]

theorem mem_put {entry : κ × ν} :
    entry ∈ Dict.put d k v ↔ entry = (k, v) ∨ entry ∈ d ∧ entry.1 ≠ k := by
  rw [put, List.mem_cons, mem_del]

theorem nodup_del (hnodup : (d.map Prod.fst).Nodup) : ((Dict.del d k).map Prod.fst).Nodup :=
  hnodup.sublist (List.filter_sublist.map Prod.fst)

theorem nodup_put (hnodup : (d.map Prod.fst).Nodup) :
    ((Dict.put d k v).map Prod.fst).Nodup := by
  rw [put, List.map_cons, List.nodup_cons]
  refine ⟨?_, nodup_del hnodup⟩
  intro hin
  obtain ⟨entry, hentry, heq⟩ := List.mem_map.mp hin
  exact (mem_del.mp hentry).2 heq

variable [BEq κ] [LawfulBEq κ]

theorem lookup_cons (entry : κ × ν) (d : Dict κ ν) (k : κ) :
    List.lookup k (entry :: d) = if k = entry.1 then some entry.2 else d.lookup k := by
  rw [List.lookup_cons]
  by_cases hk : k = entry.1
  · rw [if_pos hk, hk, beq_self_eq_true]
  · rw [if_neg hk, beq_false_of_ne hk]

theorem mem_of_lookup (h : d.lookup k = some v) : (k, v) ∈ d := by
  induction d with
  | nil => cases h
  | cons entry d ih =>
    rw [lookup_cons] at h
    split_ifs at h with hk
    · cases h
      rw [hk]
      exact List.mem_cons_self
    · exact List.mem_cons_of_mem _ (ih h)

omit [DecidableEq κ] in
theorem lookup_eq_none : d.lookup k = none ↔ ∀ entry ∈ d, entry.1 ≠ k := by
  rw [List.lookup_eq_none_iff]
  constructor
  · intro h entry hin heq
    simpa [heq] using h entry hin
  · intro h entry hin
    simpa using fun heq => h entry hin heq.symm

theorem lookup_of_mem (hnodup : (d.map Prod.fst).Nodup) (h : (k, v) ∈ d) :
    d.lookup k = some v := by
  induction d with
  | nil => cases h
  | cons entry d ih =>
    rw [List.map_cons, List.nodup_cons] at hnodup
    rcases List.mem_cons.mp h with rfl | hin
    · simp
    · have hk : k ≠ entry.1 := fun heq => hnodup.1 (heq ▸ List.mem_map_of_mem hin)
      rw [lookup_cons, if_neg hk]
      exact ih hnodup.2 hin

@[simp] theorem lookup_del_self : (Dict.del d k).lookup k = none :=
  lookup_eq_none.mpr fun _ hin => (mem_del.mp hin).2

theorem lookup_del_of_ne {k' : κ} (h : k' ≠ k) : (Dict.del d k).lookup k' = d.lookup k' := by
  induction d with
  | nil => rfl
  | cons entry d ih =>
    by_cases hk : entry.1 = k
    · have hne : k' ≠ entry.1 := fun heq => h (heq.trans hk)
      rw [del, List.filter_cons_of_neg (by simpa using hk), lookup_cons, if_neg hne]
      exact ih
    · rw [del, List.filter_cons_of_pos (by simpa using hk), lookup_cons, lookup_cons]
      split_ifs
      · rfl
      · exact ih

@[simp] theorem lookup_put_self : (Dict.put d k v).lookup k = some v := by
  simp [put]

theorem lookup_put_of_ne {k' : κ} (h : k' ≠ k) : (Dict.put d k v).lookup k' = d.lookup k' := by
  rw [put, lookup_cons, if_neg h, lookup_del_of_ne h]

section Folds

variable {α : Type*} {f : α → κ} {g : α → ν} {l : List α}

theorem lookup_foldl_put_of_forall_ne (h : ∀ x ∈ l, f x ≠ k) :
    (l.foldl (fun d x => Dict.put d (f x) (g x)) d).lookup k = d.lookup k := by
  induction l generalizing d with
  | nil => rfl
  | cons x l ih =>
    rw [List.foldl_cons, ih fun y hy => h y (List.mem_cons_of_mem x hy)]
    exact lookup_put_of_ne (h x List.mem_cons_self).symm

/-- All assignments to the key have the same value. -/
theorem lookup_foldl_put_of_forall_eq (hin : ∃ x ∈ l, f x = k) (h : ∀ x ∈ l, f x = k → g x = v) :
    (l.foldl (fun d x => Dict.put d (f x) (g x)) d).lookup k = some v := by
  induction l generalizing d with
  | nil =>
    obtain ⟨x, hx, -⟩ := hin
    cases hx
  | cons x l ih =>
    rw [List.foldl_cons]
    by_cases hrest : ∃ y ∈ l, f y = k
    · exact ih hrest fun y hy => h y (List.mem_cons_of_mem x hy)
    · have hne : ∀ y ∈ l, f y ≠ k := fun y hy heq => hrest ⟨y, hy, heq⟩
      obtain ⟨y, hy, heq⟩ := hin
      have hx : f x = k := by
        rcases List.mem_cons.mp hy with rfl | hy
        · exact heq
        · exact absurd heq (hne y hy)
      rw [lookup_foldl_put_of_forall_ne hne, hx, lookup_put_self, h x List.mem_cons_self hx]

omit [BEq κ] [LawfulBEq κ] in
theorem nodup_foldl_put (hnodup : (d.map Prod.fst).Nodup) :
    ((l.foldl (fun d x => Dict.put d (f x) (g x)) d).map Prod.fst).Nodup := by
  induction l generalizing d with
  | nil => exact hnodup
  | cons x l ih => exact ih (nodup_put hnodup)

end Folds

end Dict
