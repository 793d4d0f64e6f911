import IsabelleGym.Pide

/-!
# The toplevel state machine

Executing the commands of a document one after another, a failed command
leaving the state as it was. Of `end` it is assumed what Isabelle guarantees: a
successful one leaves no proof open, and inside an open proof it is rejected.
-/

namespace IsabelleGym

inductive Execution (σ : Type)
  | finished (st : σ)
  | failed

structure Toplevel (σ : Type) where
  init : Option NodeHeader → σ
  exec : σ → Span → Execution σ
  /-- `Toplevel.is_proof`. -/
  isProof : σ → Bool
  goals : σ → List String
  /-- A theory context is there for a command to run in. -/
  inTheory : σ → Bool
  end_closes : ∀ {st sp st'}, sp.name = "end" → exec st sp = .finished st' → isProof st' = false
  end_rejected : ∀ {st sp}, sp.name = "end" → isProof st = true → exec st sp = .failed

namespace Toplevel

variable {σ : Type} (T : Toplevel σ)

def next (st : σ) (command : Span) : σ :=
  if command.isIgnored then st
  else
    match T.exec st command with
    | .finished st' => st'
    | .failed => st

def run (header : Option NodeHeader) (commands : List Span) : σ :=
  commands.foldl T.next (T.init header)

def finalState (I : Isabelle) (node : Node) : σ := T.run node.header (I.commands node)

/-- `open_subgoals` of the ML side. -/
def openSubgoals (st : σ) : List String := if T.isProof st then T.goals st else []

theorem run_concat (header : Option NodeHeader) (commands : List Span) (command : Span) :
    T.run header (commands ++ [command]) = T.next (T.run header commands) command := by
  simp [run]

theorem run_append_of_ignored (header : Option NodeHeader) (commands : List Span)
    {ignored : List Span} (h : ∀ sp ∈ ignored, sp.isIgnored = true) :
    T.run header (commands ++ ignored) = T.run header commands := by
  induction ignored using List.reverseRecOn with
  | nil => rw [List.append_nil]
  | append_singleton sps sp ih =>
    rw [← List.append_assoc, run_concat, ih fun s hs => h s (List.mem_append_left _ hs), next,
      if_pos (h sp (by simp))]

/-- An `end` neither opens a proof nor closes one. -/
theorem isProof_next_end (st : σ) {command : Span} (hname : command.name = "end") :
    T.isProof (T.next st command) = T.isProof st := by
  have hig : ¬ command.isIgnored = true := by
    intro h
    rw [Span.name_of_isIgnored h] at hname
    exact absurd hname (by decide)
  rw [next, if_neg hig]
  cases hexec : T.exec st command with
  | failed => rfl
  | finished st' =>
    have hclosed := T.end_closes hname hexec
    by_cases hproof : T.isProof st = true
    · rw [T.end_rejected hname hproof] at hexec
      cases hexec
    · simp [hclosed, hproof]

end Toplevel
end IsabelleGym
