import IsabelleGym.Runs
import Mathlib.Logic.Function.Basic
import Mathlib.Logic.Relation

/-!
# Interleavings of components that share nothing

Every action acts on one component, which alone decides whether it is enabled.
A run of the whole is then a run of each component, and two runs with the same
actions on every component differ by the order of independent neighbours only.
-/

namespace Interleaving

open Runs

/-- The actions of some components, each on a state of its own. -/
structure Components (I X A : Type*) where
  on : A → I
  enabled : X → A → Prop
  act : X → A → X

namespace Components

variable {I X A : Type*} (C : Components I X A)

/-- Two neighbours that act on different components change places. -/
inductive Swap : List A → List A → Prop
  | swap (as : List A) {a b : A} (bs : List A) : C.on a ≠ C.on b →
    Swap (as ++ a :: b :: bs) (as ++ b :: a :: bs)

/-- The same actions in an order that only independent neighbours have left. -/
def Rearranged : List A → List A → Prop := Relation.ReflTransGen C.Swap

variable {C}

theorem Rearranged.cons {as bs : List A} (h : C.Rearranged as bs) (a : A) :
    C.Rearranged (a :: as) (a :: bs) := by
  induction h with
  | refl => exact Relation.ReflTransGen.refl
  | tail _ hswap ih =>
    obtain ⟨front, back, hne⟩ := hswap
    exact Relation.ReflTransGen.tail ih (Swap.swap (a :: front) back hne)

/-- An action goes behind others that act elsewhere. -/
theorem rearranged_of_forall_ne {a : A} {front : List A} (h : ∀ b ∈ front, C.on b ≠ C.on a)
    (back : List A) : C.Rearranged (a :: (front ++ back)) (front ++ a :: back) := by
  induction front with
  | nil => exact Relation.ReflTransGen.refl
  | cons b front ih =>
    have hswap : C.Swap (a :: b :: (front ++ back)) (b :: a :: (front ++ back)) :=
      Swap.swap [] _ (Ne.symm (h b List.mem_cons_self))
    exact Relation.ReflTransGen.head hswap
      ((ih fun c hc => h c (List.mem_cons_of_mem b hc)).cons b)

variable [DecidableEq I] (C)

def Enabled (σ : I → X) (a : A) : Prop := C.enabled (σ (C.on a)) a

def exec (σ : I → X) (a : A) : I → X := Function.update σ (C.on a) (C.act (σ (C.on a)) a)

def proj (i : I) (as : List A) : List A := as.filter fun a => C.on a = i

@[simp] theorem proj_nil (i : I) : C.proj i [] = [] := rfl

theorem proj_cons_of_eq {i : I} {a : A} (h : C.on a = i) (as : List A) :
    C.proj i (a :: as) = a :: C.proj i as := List.filter_cons_of_pos (by simpa using h)

theorem proj_cons_of_ne {i : I} {a : A} (h : C.on a ≠ i) (as : List A) :
    C.proj i (a :: as) = C.proj i as := List.filter_cons_of_neg (by simpa using h)

theorem proj_append (i : I) (as bs : List A) :
    C.proj i (as ++ bs) = C.proj i as ++ C.proj i bs := List.filter_append ..

/-- A run leaves each component where its own actions lead. -/
theorem foldl_exec_apply (σ : I → X) (as : List A) (i : I) :
    as.foldl C.exec σ i = (C.proj i as).foldl C.act (σ i) := by
  induction as generalizing σ with
  | nil => rfl
  | cons a as ih =>
    rw [List.foldl_cons, ih]
    by_cases h : C.on a = i
    · subst h
      rw [C.proj_cons_of_eq rfl, List.foldl_cons, exec, Function.update_self]
    · rw [C.proj_cons_of_ne h, exec, Function.update_of_ne (Ne.symm h)]

/-- A run is enabled where each component enables its own actions. -/
theorem everyStep_enabled_iff (σ : I → X) (as : List A) :
    EveryStep C.exec C.Enabled σ as ↔
      ∀ i, EveryStep C.act C.enabled (σ i) (C.proj i as) := by
  induction as generalizing σ with
  | nil => simp
  | cons a as ih =>
    rw [everyStep_cons, ih]
    constructor
    · rintro ⟨ha, has⟩ i
      have hi := has i
      by_cases h : C.on a = i
      · subst h
        rw [exec, Function.update_self] at hi
        rw [C.proj_cons_of_eq rfl]
        exact ⟨ha, hi⟩
      · rw [exec, Function.update_of_ne (Ne.symm h)] at hi
        rwa [C.proj_cons_of_ne h]
    · intro h
      have ha := h (C.on a)
      rw [C.proj_cons_of_eq rfl] at ha
      refine ⟨ha.1, fun i => ?_⟩
      by_cases hi : C.on a = i
      · subst hi
        rw [exec, Function.update_self]
        exact ha.2
      · rw [exec, Function.update_of_ne (Ne.symm hi)]
        have hrest := h i
        rwa [C.proj_cons_of_ne hi] at hrest

variable {C}

theorem Swap.proj_eq {as bs : List A} (h : C.Swap as bs) (i : I) : C.proj i as = C.proj i bs := by
  obtain ⟨as, bs, hne⟩ := h
  rename_i a b
  rw [C.proj_append, C.proj_append]
  congr 1
  by_cases ha : C.on a = i
  · have hb : C.on b ≠ i := fun hb => hne (ha.trans hb.symm)
    rw [C.proj_cons_of_eq ha, C.proj_cons_of_ne hb, C.proj_cons_of_ne hb, C.proj_cons_of_eq ha]
  · rw [C.proj_cons_of_ne ha]
    by_cases hb : C.on b = i
    · rw [C.proj_cons_of_eq hb, C.proj_cons_of_eq hb, C.proj_cons_of_ne ha]
    · rw [C.proj_cons_of_ne hb, C.proj_cons_of_ne hb, C.proj_cons_of_ne ha]

theorem Rearranged.proj_eq {as bs : List A} (h : C.Rearranged as bs) (i : I) :
    C.proj i as = C.proj i bs := by
  induction h with
  | refl => rfl
  | tail _ hswap ih => rw [ih, hswap.proj_eq i]

theorem exists_of_proj_eq_cons {i : I} {a : A} {rest bs : List A} (h : C.proj i bs = a :: rest) :
    ∃ front back, bs = front ++ a :: back ∧ (∀ b ∈ front, C.on b ≠ i) ∧ C.on a = i := by
  obtain ⟨front, back, hbs, hfront, ha, _⟩ := List.filter_eq_cons_iff.mp h
  exact ⟨front, back, hbs, fun b hb => by simpa using hfront b hb, by simpa using ha⟩

/-- Runs with the same actions on every component are rearrangements of each other. -/
theorem rearranged_iff {as bs : List A} :
    C.Rearranged as bs ↔ ∀ i, C.proj i as = C.proj i bs := by
  refine ⟨Rearranged.proj_eq, fun h => ?_⟩
  induction as generalizing bs with
  | nil =>
    cases bs with
    | nil => exact Relation.ReflTransGen.refl
    | cons b bs =>
      have hb := h (C.on b)
      rw [C.proj_cons_of_eq rfl] at hb
      cases hb
  | cons a as ih =>
    have ha := (h (C.on a)).symm
    rw [C.proj_cons_of_eq rfl] at ha
    obtain ⟨front, back, rfl, hfront, _⟩ := exists_of_proj_eq_cons ha
    have hmoved := rearranged_of_forall_ne hfront back
    have hrest : C.Rearranged as (front ++ back) := by
      apply ih
      intro i
      have hi := (h i).trans (hmoved.proj_eq i).symm
      by_cases hai : C.on a = i
      · rw [C.proj_cons_of_eq hai, C.proj_cons_of_eq hai] at hi
        exact (List.cons.inj hi).2
      · rwa [C.proj_cons_of_ne hai, C.proj_cons_of_ne hai] at hi
    exact (hrest.cons a).trans hmoved

end Components
end Interleaving
