import IsabelleGym.Representation
import IsabelleGym.OuterSyntax

/-!
# Runs of the document operations

Any order of entering, editing, rolling back, discarding, saving and restoring
keeps every document equal to its status chain, up to the first edit whose
header processing raises. That edit stays in the chain without ever reaching
the document.
-/

namespace IsabelleGym
namespace ReplSession

inductive Action
  | enterThy (thyName : Text)
  | sendEdit (useTheories : Text → UseResult) (isarString : Text)
  | rollbackLastTextEdit
  | discardLastEdit
  | saveState
  | restoreState (stateId : EnvStateID)

def act (I : Isabelle) (s : ReplSession) : Action → ReplSession
  | .enterThy thyName => s.enterThy thyName
  | .sendEdit useTheories isarString => (s.sendEdit I useTheories isarString).session
  | .rollbackLastTextEdit => s.rollbackLastTextEdit.session
  | .discardLastEdit => s.discardLastEdit
  | .saveState => s.saveState.2
  | .restoreState stateId => (s.restoreState I stateId).2

def Action.Raises (I : Isabelle) (s : ReplSession) : Action → Prop
  | .sendEdit useTheories isarString => EditRaises I useTheories isarString s
  | _ => False

/-- Every document is the concatenation of its chained edits, with the insertion point and
line at its end, and dropping the last edit removes exactly its text. -/
structure DocumentsMatchChains (s : ReplSession) : Prop where
  text : ∀ name info, s.thys name = some info →
    (s.nodes name).text = info.currentStatus.chain.reverse.flatMap ThyStatus.editedText
  insertionPoint : ∀ name info, s.thys name = some info →
    info.insertionPoint = (s.nodes name).text.length
  insertionLine : ∀ name info, s.thys name = some info →
    info.currentStatus.insertionLine = 1 + (s.nodes name).text.count '\n'
  chained : ∀ name info f p, s.thys name = some info → .child f p ∈ info.currentStatus.chain →
    ∃ t, f.lastTextEdit = some (.insert p.insertionPoint t)
  discard : ∀ name info e, s.currentThy = some name → s.thys name = some info →
    info.lastTextEdit = some e →
    (s.nodes name).text = (s.discardLastEdit.nodes name).text ++ e.text
  rollback : ∀ name info e, s.currentThy = some name → s.thys name = some info →
    info.lastTextEdit = some e →
    (s.nodes name).text = (s.rollbackLastTextEdit.session.nodes name).text ++ e.text

variable {I : Isabelle} {s : ReplSession}

theorem Represented.documentsMatchChains (h : s.Represented) : s.DocumentsMatchChains where
  text name info hi := by
    rw [ThyStatus.flatMap_chain_reverse]
    exact (h.of_thys hi).2.2
  insertionPoint name info hi := by
    rw [(h.of_thys hi).2.2]
    exact (h.of_thys hi).1.current.insertionPoint_eq
  insertionLine name info hi := by
    rw [(h.of_thys hi).2.2]
    exact (h.of_thys hi).1.current.insertionLine_eq
  chained name info f p hi hmem := by
    obtain ⟨t, ht, _⟩ := ((h.of_thys hi).1.current.of_mem_chain hmem).text_child
    exact ⟨t ++ ['\n'], ht⟩
  discard := h.discardLastEdit.2
  rollback := by
    rw [rollbackLastTextEdit_session]
    exact h.discardLastEdit.2

theorem represented_act (h : s.Represented) {a : Action} (ha : ¬ a.Raises I s) :
    (act I s a).Represented := by
  cases a with
  | enterThy thyName => exact h.enterThy thyName
  | sendEdit useTheories isarString => exact h.sendEdit useTheories isarString ha
  | rollbackLastTextEdit =>
    simp only [act, rollbackLastTextEdit_session]
    exact h.discardLastEdit.1
  | discardLastEdit => exact h.discardLastEdit.1
  | saveState => exact h.saveState
  | restoreState stateId => exact h.restoreState stateId

/-- A raising edit is recorded without its text, which no chain can match. -/
theorem not_documentsMatchChains_of_raises (h : s.Represented) {a : Action}
    (ha : a.Raises I s) : ¬ (act I s a).DocumentsMatchChains := by
  cases a with
  | sendEdit useTheories isarString =>
    have hraise : EditRaises I useTheories isarString s := ha
    obtain ⟨name, info, info', hc, hi, hu, hbad⟩ := ha
    rcases sendEdit_cases (I := I) useTheories isarString hc hi with
      ⟨hnone, _⟩ | ⟨_, frame, _, hs, _⟩ | ⟨hno, _⟩
    · rw [hnone] at hu
      cases hu
    · intro hmatch
      obtain ⟨hwf, _, htext⟩ := h.of_thys hi
      have hnew : (act I s (.sendEdit useTheories isarString)).thys name =
          some (info.recordEdit (insertTextEdit isarString info) frame) := by
        rw [act, hs]
        simp [setInfo]
      have hnode : (act I s (.sendEdit useTheories isarString)).nodes name = s.nodes name := by
        rw [act, hs]
        rfl
      have hpoint := hmatch.insertionPoint name _ hnew
      have hrec := (hwf.recordEdit isarString frame).current.insertionPoint_eq
      have happend := ThyInfo.text_recordEdit info (isarString ++ ['\n']) frame
      rw [happend] at hrec
      rw [hnode, htext] at hpoint
      have hlen := hrec.symm.trans hpoint
      simp only [List.length_append, List.length_singleton] at hlen
      omega
    · exact absurd hraise hno
  | _ => exact ha.elim

/-- Over every run from a fresh session, each step leaves the documents equal to
their chains exactly when no step is an edit whose header processing raises. -/
theorem documentsMatchChains_iff (I : Isabelle) (initialThys : List Text)
    (actions : List Action) :
    Runs.EveryStep (act I) (fun s a => (act I s a).DocumentsMatchChains) (fresh initialThys)
        actions ↔
      Runs.EveryStep (act I) (fun s a => ¬ a.Raises I s) (fresh initialThys) actions :=
  Runs.everyStep_iff_of_invariant (fun _ _ h ha => represented_act h ha)
    (fun _ _ h => ⟨fun hm ha => not_documentsMatchChains_of_raises h ha hm,
      fun ha => (represented_act h ha).documentsMatchChains⟩)
    (represented_fresh initialThys)

/-- A complete header without imports is recorded and never sent. -/
theorem documentsMatchChains_header_without_imports :
    ¬ Runs.EveryStep (act OuterSyntax.isabelle)
      (fun s a => (act OuterSyntax.isabelle s a).DocumentsMatchChains) (fresh [])
      [.enterThy "A".toList, .sendEdit (fun _ => .ok) "theory A begin".toList] := by
  rintro ⟨_, hmatch, _⟩
  have htext := hmatch.insertionPoint "A".toList _ rfl
  revert htext
  decide +kernel

end ReplSession
end IsabelleGym
