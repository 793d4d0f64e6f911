import Mathlib.Data.List.Basic
import Mathlib.Tactic.Tauto

/-!
# Runs of a step function and what every step of a run satisfies

`EveryStep step P s is` says that `P` holds at each state and input of the run
that starts in `s` and reads the inputs `is`. Invariants are proved one step at
a time and lifted to whole runs by the rules below.
-/

namespace Runs

variable {σ ι : Type*} (step : σ → ι → σ)

def EveryStep (P : σ → ι → Prop) : σ → List ι → Prop
  | _, [] => True
  | s, i :: is => P s i ∧ EveryStep P (step s i) is

@[simp] theorem everyStep_nil (P : σ → ι → Prop) (s : σ) : EveryStep step P s [] := trivial

@[simp] theorem everyStep_cons (P : σ → ι → Prop) (s : σ) (i : ι) (is : List ι) :
    EveryStep step P s (i :: is) ↔ P s i ∧ EveryStep step P (step s i) is := Iff.rfl

instance (P : σ → ι → Prop) [∀ s i, Decidable (P s i)] :
    (s : σ) → (is : List ι) → Decidable (EveryStep step P s is)
  | _, [] => inferInstanceAs (Decidable True)
  | s, i :: is =>
    have := instDecidableEveryStep P (step s i) is
    inferInstanceAs (Decidable (P s i ∧ EveryStep step P (step s i) is))

theorem everyStep_append (P : σ → ι → Prop) (s : σ) (is js : List ι) :
    EveryStep step P s (is ++ js) ↔
      EveryStep step P s is ∧ EveryStep step P (is.foldl step s) js := by
  induction is generalizing s with
  | nil => simp
  | cons i is ih => simp only [List.cons_append, everyStep_cons, ih, List.foldl_cons, and_assoc]

theorem everyStep_and (P Q : σ → ι → Prop) (s : σ) (is : List ι) :
    EveryStep step (fun s i => P s i ∧ Q s i) s is ↔
      EveryStep step P s is ∧ EveryStep step Q s is := by
  induction is generalizing s with
  | nil => simp
  | cons i is ih =>
    simp only [everyStep_cons, ih]
    tauto

variable {step} {Inv : σ → Prop} {P Q : σ → ι → Prop}

/-- Under an invariant that the steps satisfying `Q` keep, `P` holds at every
step of a run as soon as `Q` does. -/
theorem everyStep_of_invariant (hstep : ∀ s i, Inv s → Q s i → Inv (step s i))
    (hP : ∀ s i, Inv s → Q s i → P s i) {s : σ} {is : List ι} (hs : Inv s)
    (h : EveryStep step Q s is) : EveryStep step P s is := by
  induction is generalizing s with
  | nil => trivial
  | cons i is ih => exact ⟨hP s i hs h.1, ih (hstep s i hs h.1) h.2⟩

theorem everyStep_of_kept {s : σ} (hs : Inv s) (hstep : ∀ s i, Inv s → Inv (step s i))
    (hP : ∀ s i, Inv s → P s i) (is : List ι) : EveryStep step P s is := by
  induction is generalizing s with
  | nil => trivial
  | cons i is ih => exact ⟨hP s i hs, ih (hstep s i hs)⟩

/-- Where `P` and `Q` agree under the invariant, and `Q` keeps it, a run
satisfies `P` at every step exactly when it satisfies `Q` at every step. The
first step that breaks one of them breaks the other. -/
theorem everyStep_iff_of_invariant (hstep : ∀ s i, Inv s → Q s i → Inv (step s i))
    (hPQ : ∀ s i, Inv s → (P s i ↔ Q s i)) {s : σ} {is : List ι} (hs : Inv s) :
    EveryStep step P s is ↔ EveryStep step Q s is := by
  induction is generalizing s with
  | nil => exact Iff.rfl
  | cons i is ih =>
    constructor
    · rintro ⟨hp, hrest⟩
      have hq := (hPQ s i hs).mp hp
      exact ⟨hq, (ih (hstep s i hs hq)).mp hrest⟩
    · rintro ⟨hq, hrest⟩
      exact ⟨(hPQ s i hs).mpr hq, (ih (hstep s i hs hq)).mpr hrest⟩

variable (step) in
/-- Some step of the run starts a condition, and no step behind it stops it. -/
def Since (start stop : σ → ι → Prop) : σ → List ι → Prop
  | _, [] => False
  | s, i :: is => start s i ∧ EveryStep step (fun s i => ¬stop s i) (step s i) is ∨
      Since start stop (step s i) is

/-- A condition that some steps start and others stop holds behind a run where it has been
started and not been stopped since, or held before and was never stopped. -/
theorem iff_since {H : σ → Prop} {start stop : σ → ι → Prop}
    (hkeep : ∀ s i, Inv s → Inv (step s i))
    (hstep : ∀ s i, Inv s → (H (step s i) ↔ start s i ∨ H s ∧ ¬stop s i)) {s : σ} (hs : Inv s)
    (is : List ι) :
    H (is.foldl step s) ↔
      H s ∧ EveryStep step (fun s i => ¬stop s i) s is ∨ Since step start stop s is := by
  induction is generalizing s with
  | nil => simp [Since]
  | cons i is ih =>
    rw [List.foldl_cons, ih (hkeep s i hs), hstep s i hs, everyStep_cons, Since]
    tauto

/-- Where the steps that satisfy `Q` keep an invariant, and a step that does not loses it for good,
a run has kept the invariant or lost it, and `Q` says which. -/
theorem everyStep_or_lost {Lost : σ → Prop} (hkeep : ∀ s i, Inv s → Q s i → Inv (step s i))
    (hlose : ∀ s i, Inv s → ¬ Q s i → Lost (step s i)) (hlost : ∀ s i, Lost s → Lost (step s i))
    {s : σ} {is : List ι} (hs : Inv s) :
    (EveryStep step Q s is ∧ Inv (is.foldl step s)) ∨
      (¬ EveryStep step Q s is ∧ Lost (is.foldl step s)) := by
  induction is generalizing s with
  | nil => exact Or.inl ⟨trivial, hs⟩
  | cons i is ih =>
    by_cases hq : Q s i
    · rcases ih (hkeep s i hs hq) with ⟨hrest, hinv⟩ | ⟨hrest, hgone⟩
      · exact Or.inl ⟨⟨hq, hrest⟩, hinv⟩
      · exact Or.inr ⟨fun h => hrest h.2, hgone⟩
    · refine Or.inr ⟨fun h => hq h.1, ?_⟩
      have hgone : ∀ (js : List ι) (t : σ), Lost t → Lost (js.foldl step t) := by
        intro js
        induction js with
        | nil => exact fun _ ht => ht
        | cons j js ihj => exact fun t ht => ihj (step t j) (hlost t j ht)
      exact hgone is (step s i) (hlose s i hs hq)

/-- Where one of many parties changes its stage, those in the stages counted change with it. -/
theorem countP_set_add {α : Type*} (p : α → Bool) {l : List α} {i : ℕ} {a : α}
    (hi : l[i]? = some a) (b : α) :
    (l.set i b).countP p + (if p a then 1 else 0) = l.countP p + if p b then 1 else 0 := by
  obtain ⟨hlt, rfl⟩ := List.getElem?_eq_some_iff.mp hi
  have hle := List.boole_getElem_le_countP (p := p) hlt
  rw [List.countP_set hlt]
  omega

/-- The run that also lists what its steps did, the latest first. -/
def logged {ω : Type*} (step : σ → ι → σ) (out : σ → ι → List ω) (x : σ × List ω) (i : ι) :
    σ × List ω :=
  (step x.1 i, out x.1 i ++ x.2)

end Runs
