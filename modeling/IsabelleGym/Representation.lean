import IsabelleGym.ReplSession
import IsabelleGym.Runs

/-!
# Bookkeeping and document agree

The bookkeeping of a theory represents its node when the status chain is well
formed and spells out exactly the node's text. Every operation keeps this,
except an edit whose header processing raises: its status is recorded, its text
is never sent. `HeaderRaises` is that case, and runs without it represent their
documents in every state.
-/

namespace IsabelleGym
namespace ReplSession

variable {I : Isabelle} {s : ReplSession}

def ThyRepresented (name : Text) (node : Node) : Option ThyInfo → Prop
  | some info => info.WellFormed ∧ info.name = name ∧ node.text = info.currentStatus.text
  | none => node.text = []

structure Represented (s : ReplSession) : Prop where
  entered : ∀ name, s.currentThy = some name → ∃ info, s.thys name = some info
  thys : ∀ name, ThyRepresented name (s.nodes name) (s.thys name)

theorem represented_fresh (initialThys : List Text) : (fresh initialThys).Represented where
  entered := by intro name h; cases h
  thys _ := rfl

theorem Represented.of_thys (h : s.Represented) {name : Text} {info : ThyInfo}
    (hi : s.thys name = some info) :
    info.WellFormed ∧ info.name = name ∧ (s.nodes name).text = info.currentStatus.text := by
  have ht := h.thys name
  rw [hi] at ht
  exact ht

theorem Represented.currentThyInfo (h : s.Represented) {name : Text}
    (hc : s.currentThy = some name) :
    ∃ info, s.thys name = some info ∧ s.currentThyInfo = some info := by
  obtain ⟨info, hi⟩ := h.entered name hc
  exact ⟨info, hi, by simp [ReplSession.currentThyInfo, hc, hi]⟩

theorem Represented.update (h : s.Represented) {name : Text} {info : ThyInfo} {node : Node}
    (hn : ThyRepresented name node (some info)) :
    { s with
      thys := Function.update s.thys name (some info)
      nodes := Function.update s.nodes name node }.Represented where
  entered n hc := by
    by_cases hnn : n = name
    · subst hnn
      exact ⟨info, by simp⟩
    · obtain ⟨i, hi⟩ := h.entered n hc
      exact ⟨i, by simpa [Function.update_of_ne hnn] using hi⟩
  thys n := by
    by_cases hnn : n = name
    · subst hnn
      simpa using hn
    · simpa [Function.update_of_ne hnn] using h.thys n

theorem Represented.setCurrentRequired (h : s.Represented) (required : Bool) :
    (s.setCurrentRequired required).Represented := by
  unfold ReplSession.setCurrentRequired
  cases hc : s.currentThy with
  | none => exact h
  | some name =>
    refine ⟨fun n hn => h.entered n hn, fun n => ?_⟩
    by_cases hnn : n = name
    · subst hnn
      have ht := h.thys n
      cases hi : s.thys n <;>
        simpa [updateSessionWithEdits, ThyRepresented, Node.applyEdit, hi] using ht
    · simpa [updateSessionWithEdits, Function.update_of_ne hnn] using h.thys n

theorem Represented.enterThy (h : s.Represented) (thyName : Text) :
    (s.enterThy thyName).Represented := by
  unfold ReplSession.enterThy
  apply Represented.setCurrentRequired
  set s₁ := if s.currentThyInfo.isSome then s.setCurrentRequired false else s with hs₁
  have h₁ : s₁.Represented := by
    rw [hs₁]
    split_ifs
    · exact h.setCurrentRequired false
    · exact h
  by_cases hsome : (s₁.thys thyName).isSome
  · simp only [hsome, if_true]
    refine ⟨fun n hn => ?_, h₁.thys⟩
    obtain rfl : thyName = n := by simpa using hn
    exact Option.isSome_iff_exists.mp hsome
  · have hnone : s₁.thys thyName = none := by simpa using hsome
    simp only [hnone, Option.isSome_none, Bool.false_eq_true, if_false, setInfo]
    have hnode : (s₁.nodes thyName).text = [] := by
      have ht := h₁.thys thyName
      rw [hnone] at ht
      exact ht
    refine ⟨fun n hn => ?_, fun n => ?_⟩
    · obtain rfl : thyName = n := by simpa using hn
      exact ⟨_, Function.update_self ..⟩
    · by_cases hnn : n = thyName
      · subst hnn
        simp only [Function.update_self, ThyRepresented]
        exact ⟨⟨ThyStatus.wellFormed_initial, by simp⟩, trivial, hnode⟩
      · simpa [Function.update_of_ne hnn] using h₁.thys n

/-- Header processing of a complete header raises: all imports load, and there
is none of them, or the helper import is illegal. -/
def HeaderRaises (I : Isabelle) (useTheories : Text → UseResult) (nodeName helperThy : Text)
    (info : ThyInfo) : Prop :=
  info.needHeaderProcessing = true ∧
    ∃ thyHeader, I.parseHeader info.accumulatedThyHeaderTokens = some thyHeader ∧
      (importAllTheories useTheories thyHeader.imports).1 = true ∧
      (thyHeader.imports = [] ∨
        I.illegalTheory (I.theoryBaseName (I.importName nodeName helperThy)) = true)

def EditRaises (I : Isabelle) (useTheories : Text → UseResult) (isarString : Text)
    (s : ReplSession) : Prop :=
  ∃ name info info', s.currentThy = some name ∧ s.thys name = some info ∧
    info.updateGivenTextEdit I (insertTextEdit isarString info) = some info' ∧
    HeaderRaises I useTheories name s.helperThy info'

theorem emulateThyImports_single (nodeName helperThy : Text) (thyHeader : ThyHeader)
    (here : ℕ → String) :
    (∃ m, (emulateThyImports I nodeName thyHeader here [helperThy]).1 = .error m) ↔
      I.illegalTheory (I.theoryBaseName (I.importName nodeName helperThy)) = true := by
  by_cases hi : I.illegalTheory (I.theoryBaseName (I.importName nodeName helperThy)) = true <;>
    simp [emulateThyImports, dependenciesEdit, hi, Except.map]

/-- Header processing either raises, leaving the bookkeeping alone, or returns
header edits; the bookkeeping it returns differs at most in the processed flag. -/
theorem getThyHeaderEdits_cases (useTheories : Text → UseResult) (info : ThyInfo)
    (nodeName helperThy : Text) (hneed : info.needHeaderProcessing = true) :
    let r := getThyHeaderEdits I useTheories info nodeName [helperThy]
    (HeaderRaises I useTheories nodeName helperThy info ∧ r.info = info ∧
        ∃ m, r.edits = .error m) ∨
      (¬ HeaderRaises I useTheories nodeName helperThy info ∧
        (r.info = info ∨ r.info = info.setHeaderProcessed true) ∧
        ∃ headers, r.edits = .ok headers) := by
  dsimp only
  unfold getThyHeaderEdits
  cases hp : I.parseHeader info.accumulatedThyHeaderTokens with
  | none => exact Or.inr ⟨by simp [HeaderRaises, hp], Or.inl rfl, none, rfl⟩
  | some thyHeader =>
    dsimp only
    by_cases himp : (importAllTheories useTheories thyHeader.imports).1 = true
    · simp only [himp, Bool.not_true, Bool.false_eq_true, if_false]
      by_cases hempty : thyHeader.imports = []
      · simp only [hempty, List.isEmpty_nil, if_true]
        exact Or.inl ⟨⟨hneed, thyHeader, hp, himp, Or.inl hempty⟩, by simp, by simp⟩
      · have hne : thyHeader.imports.isEmpty = false := by simpa using hempty
        simp only [hne, Bool.false_eq_true, if_false]
        have hem := emulateThyImports_single (I := I) nodeName helperThy thyHeader
          (I.importHere info.accumulatedThyHeaderTokens)
        cases he : emulateThyImports I nodeName thyHeader
            (I.importHere info.accumulatedThyHeaderTokens) [helperThy] with
        | mk emulated errs =>
          rw [he] at hem
          cases emulated with
          | error m =>
            have hill := hem.mp ⟨m, rfl⟩
            exact Or.inl ⟨⟨hneed, thyHeader, hp, himp, Or.inr hill⟩, rfl, m, rfl⟩
          | ok headers =>
            have hnill :
                ¬ I.illegalTheory (I.theoryBaseName (I.importName nodeName helperThy)) = true :=
              fun hill => by simpa using hem.mpr hill
            have hnot : ¬ HeaderRaises I useTheories nodeName helperThy info := by
              rintro ⟨_, t, ht, _, hor⟩
              obtain rfl : thyHeader = t := by simpa [hp] using ht
              exact hor.elim hempty hnill
            refine Or.inr ⟨hnot, ?_⟩
            dsimp only
            cases hd : dependenciesEdit I nodeName thyHeader
                (I.importHere info.accumulatedThyHeaderTokens) with
            | mk header errs' =>
              cases header with
              | none => exact ⟨Or.inl rfl, none, rfl⟩
              | some header => exact ⟨Or.inr rfl, some _, rfl⟩
    · have hfalse : (importAllTheories useTheories thyHeader.imports).1 = false := by
        simpa using himp
      simp only [hfalse, Bool.not_false, if_true]
      refine Or.inr ⟨?_, Or.inl (by simp), none, by simp⟩
      rintro ⟨_, t, ht, hok, _⟩
      obtain rfl : thyHeader = t := by simpa [hp] using ht
      exact himp hok

theorem editRaises_iff (useTheories : Text → UseResult) {isarString : Text} {name : Text}
    {info info' : ThyInfo} (hc : s.currentThy = some name) (hi : s.thys name = some info)
    (hu : info.updateGivenTextEdit I (insertTextEdit isarString info) = some info') :
    EditRaises I useTheories isarString s ↔ HeaderRaises I useTheories name s.helperThy info' := by
  constructor
  · rintro ⟨n, i, i', hn, hin, hui, hr⟩
    obtain rfl : name = n := by simpa [hc] using hn
    obtain rfl : info = i := by simpa [hi] using hin
    obtain rfl : info' = i' := by simpa [hu] using hui
    exact hr
  · exact fun hr => ⟨name, info, info', hc, hi, hu, hr⟩

/-- All that `sendEdit` does on an entered theory: reject the edit, record it
and raise, or record it and send it with header edits. -/
theorem sendEdit_cases (useTheories : Text → UseResult) (isarString : Text) {name : Text}
    {info : ThyInfo} (hc : s.currentThy = some name) (hi : s.thys name = some info) :
    let e := insertTextEdit isarString info
    let r := s.sendEdit I useTheories isarString
    (info.updateGivenTextEdit I e = none ∧ r.session = s ∧ r.raised = none) ∨
      (EditRaises I useTheories isarString s ∧
        ∃ frame, info.checkHeader I e = some frame ∧
          r.session = s.setInfo name (info.recordEdit e frame) ∧ ∃ m, r.raised = some m) ∨
      (¬ EditRaises I useTheories isarString s ∧ r.raised = none ∧
        ∃ frame info' headers, info.checkHeader I e = some frame ∧
          (info' = info.recordEdit e frame ∨
            info' = (info.recordEdit e frame).setHeaderProcessed true) ∧
          r.session = (s.setInfo name info').updateSessionWithEdits name
            (.edits [e] :: (headers : List NodeHeader).map .deps)) := by
  intro e r
  have hci : s.currentThyInfo = some info := by simp [currentThyInfo, hc, hi]
  cases hcheck : info.checkHeader I e with
  | none =>
    have hu : info.updateGivenTextEdit I e = none := by
      simp [ThyInfo.updateGivenTextEdit, hcheck]
    have hr : r = { session := s, errors := [nameMismatch] } := by
      simp only [r, sendEdit, hc, hci]
      rw [hu]
    exact Or.inl ⟨hu, by rw [hr], by rw [hr]⟩
  | some frame =>
    have hu : info.updateGivenTextEdit I e = some (info.recordEdit e frame) := by
      simp [ThyInfo.updateGivenTextEdit, hcheck]
    have hr : r = s.sendRecorded I useTheories name (info.recordEdit e frame) e := by
      simp only [r, sendEdit, hc, hci]
      rw [hu]
    have hraise := editRaises_iff useTheories hc hi hu
    refine Or.inr ?_
    by_cases hneed : (info.recordEdit e frame).needHeaderProcessing = true
    · have hcases := getThyHeaderEdits_cases (I := I) useTheories _ name s.helperThy hneed
      rcases hcases with ⟨hbad, hinfo, m, hm⟩ | ⟨hok, hinfo, headers, hh⟩
      · refine Or.inl ⟨hraise.mpr hbad, frame, rfl, ?_, m, ?_⟩ <;>
          simp [hr, sendRecorded, hneed, hm, hinfo]
      · refine Or.inr ⟨fun h => hok (hraise.mp h), ?_, frame, _, headers.getD [], rfl, hinfo,
          ?_⟩ <;>
          simp [hr, sendRecorded, hneed, hh]
    · refine Or.inr ⟨fun h => hneed (hraise.mp h).1, ?_, frame, _, [], rfl, Or.inl rfl, ?_⟩ <;>
        simp [hr, sendRecorded, hneed]

theorem not_editRaises_of_raised {useTheories : Text → UseResult} {isarString : Text}
    (h : (s.sendEdit I useTheories isarString).raised = none) :
    ¬ EditRaises I useTheories isarString s := by
  intro hraise
  obtain ⟨name, info, info', hc, hi, hu, _⟩ := id hraise
  rcases sendEdit_cases (I := I) useTheories isarString hc hi with
    ⟨hnone, _⟩ | ⟨_, _, _, _, m, hm⟩ | ⟨hno, _⟩
  · rw [hnone] at hu
    cases hu
  · rw [hm] at h
    cases h
  · exact hno hraise

theorem raised_of_not_editRaises {useTheories : Text → UseResult} {isarString : Text}
    (h : ¬ EditRaises I useTheories isarString s) :
    (s.sendEdit I useTheories isarString).raised = none := by
  cases hc : s.currentThy with
  | none => simp [sendEdit, hc]
  | some name =>
    cases hi : s.thys name with
    | none => simp [sendEdit, currentThyInfo, hc, hi]
    | some info =>
      rcases sendEdit_cases (I := I) useTheories isarString hc hi with
        ⟨_, _, hnone⟩ | ⟨hraise, _⟩ | ⟨_, hnone, _⟩
      · exact hnone
      · exact absurd hraise h
      · exact hnone

theorem text_applyEdits_insert (node : Node) (e : TextEdit) (headers : List NodeHeader) :
    (node.applyEdits (.edits [e] :: headers.map .deps)).text = e.apply node.text := by
  rw [Node.applyEdits_cons, Node.text_applyEdits_deps]
  rfl

theorem ThyRepresented.recordEdit {name : Text} {node : Node} {info info' : ThyInfo} {frame : Frame}
    (h : ThyRepresented name node (some info)) (isarString : Text)
    (hinfo : info' = info.recordEdit (insertTextEdit isarString info) frame ∨
      info' = (info.recordEdit (insertTextEdit isarString info) frame).setHeaderProcessed true)
    (headers : List NodeHeader) :
    let node' := node.applyEdits
      (.edits [insertTextEdit isarString info] :: headers.map .deps)
    ThyRepresented name node' (some info') ∧ node'.text = node.text ++ (isarString ++ ['\n']) := by
  intro node'
  obtain ⟨hwf, hname, htext⟩ := h
  have hnode : node'.text = node.text ++ (isarString ++ ['\n']) := by
    have happ := EditScript.Edit.apply_insert_append node.text (isarString ++ ['\n']) []
    rw [List.append_nil, List.append_nil, htext, ← hwf.current.insertionPoint_eq] at happ
    rw [text_applyEdits_insert, htext]
    exact happ
  have hrec := hwf.recordEdit isarString frame
  have hrectext := ThyInfo.text_recordEdit info (isarString ++ ['\n']) frame
  refine ⟨?_, hnode⟩
  rcases hinfo with rfl | rfl
  · exact ⟨hrec, hname, by rw [hnode, htext]; exact hrectext.symm⟩
  · exact ⟨ThyInfo.setHeaderProcessed_child_wellFormed hrec, hname,
      by rw [hnode, htext, ThyInfo.text_setHeaderProcessed]; exact hrectext.symm⟩

theorem setInfo_updateSessionWithEdits (name : Text) (info : ThyInfo) (edits : List NodeEdit) :
    (s.setInfo name info).updateSessionWithEdits name edits =
      { s with
        thys := Function.update s.thys name (some info)
        nodes := Function.update s.nodes name ((s.nodes name).applyEdits edits) } := rfl

theorem Represented.sendEdit (h : s.Represented) (useTheories : Text → UseResult)
    (isarString : Text) (hraise : ¬ EditRaises I useTheories isarString s) :
    (s.sendEdit I useTheories isarString).session.Represented := by
  cases hc : s.currentThy with
  | none => simpa [ReplSession.sendEdit, hc] using h
  | some name =>
    obtain ⟨info, hi, _⟩ := h.currentThyInfo hc
    rcases sendEdit_cases (I := I) useTheories isarString hc hi with
      ⟨_, hs, _⟩ | ⟨hbad, _⟩ | ⟨_, _, frame, info', headers, _, hinfo, hs⟩
    · rw [hs]
      exact h
    · exact absurd hbad hraise
    · rw [hs, setInfo_updateSessionWithEdits]
      have ht := h.thys name
      rw [hi] at ht
      exact h.update (ht.recordEdit isarString hinfo headers).1

theorem ThyRepresented.rollback {name : Text} {node : Node} {info : ThyInfo} {e : TextEdit}
    (h : ThyRepresented name node (some info)) (he : info.lastTextEdit = some e) :
    let node' := node.applyEdits [.edits [removeInsertEdit e]]
    ThyRepresented name node' (some info.rollbackLastTextEditIfExists) ∧
      node.text = node'.text ++ e.text := by
  intro node'
  obtain ⟨hwf, hname, htext⟩ := h
  have hcur := hwf.current
  cases hs : info.currentStatus with
  | root f =>
    rw [hs] at hcur
    cases hcur with
    | root hno _ _ => simp [ThyInfo.lastTextEdit, ThyStatus.lastTextEdit, hs, hno] at he
  | child f p =>
    rw [hs] at hcur
    obtain ⟨t, hf, hchild⟩ := hcur.text_child
    obtain rfl : EditScript.Edit.insert p.insertionPoint (t ++ ['\n']) = e := by
      simpa [ThyInfo.lastTextEdit, ThyStatus.lastTextEdit, hs, hf] using he
    have htext' : node.text = p.text ++ (t ++ ['\n']) := by rw [htext, hs, hchild]
    have hnode : node'.text = p.text := by
      have happ := EditScript.Edit.apply_remove_append p.text (t ++ ['\n']) []
      rw [List.append_nil, List.append_nil, ← htext', ← hcur.parent.insertionPoint_eq] at happ
      exact happ
    have hroll : info.rollbackLastTextEditIfExists.currentStatus = p := by
      simp [ThyInfo.rollbackLastTextEditIfExists, hs]
    exact ⟨⟨hwf.rollback, hname, by rw [hnode, hroll]⟩, by rw [hnode, htext']; rfl⟩

theorem discardLastEdit_some {name : Text} {info : ThyInfo} {e : TextEdit}
    (hc : s.currentThy = some name) (hi : s.thys name = some info)
    (he : info.lastTextEdit = some e) :
    s.discardLastEdit =
      { s with
        thys := Function.update s.thys name (some info.rollbackLastTextEditIfExists)
        nodes := Function.update s.nodes name
          ((s.nodes name).applyEdits [.edits [removeInsertEdit e]]) } := by
  simp [ReplSession.discardLastEdit, currentThyInfo, hc, hi, he, setInfo, updateSessionWithEdits]

/-- Discarding removes exactly the text of the last edit. -/
theorem Represented.discardLastEdit (h : s.Represented) :
    s.discardLastEdit.Represented ∧
      ∀ name info e, s.currentThy = some name → s.thys name = some info →
        info.lastTextEdit = some e →
        (s.nodes name).text = (s.discardLastEdit.nodes name).text ++ e.text := by
  rcases hc : s.currentThy with _ | name
  · exact ⟨by simpa [ReplSession.discardLastEdit, hc] using h, by simp⟩
  · obtain ⟨info, hi, hci⟩ := h.currentThyInfo hc
    have ht := h.thys name
    rw [hi] at ht
    cases he : info.lastTextEdit with
    | none =>
      refine ⟨by simpa [ReplSession.discardLastEdit, hc, hci, he] using h, ?_⟩
      rintro n i e hn hin hie
      obtain rfl : name = n := by simpa using hn
      obtain rfl : info = i := by simpa [hi] using hin
      simp [he] at hie
    | some e =>
      obtain ⟨hrep, htext⟩ := ThyRepresented.rollback ht he
      have hdiscard := discardLastEdit_some hc hi he
      rw [hdiscard]
      refine ⟨h.update hrep, ?_⟩
      rintro n i e' hn hin hie
      obtain rfl : name = n := by simpa using hn
      obtain rfl : info = i := by simpa [hi] using hin
      obtain rfl : e = e' := by simpa [he] using hie
      simpa using htext

theorem rollbackLastTextEdit_session (s : ReplSession) :
    s.rollbackLastTextEdit.session = s.discardLastEdit := by
  unfold rollbackLastTextEdit discardLastEdit
  cases hc : s.currentThy with
  | none => simp [currentThyInfo, hc]
  | some name =>
    cases hi : s.currentThyInfo with
    | none => rfl
    | some info => cases he : info.lastTextEdit <;> simp [he]

theorem Represented.saveState (h : s.Represented) : s.saveState.2.Represented where
  entered name hc := by
    obtain ⟨info, hi⟩ := h.entered name hc
    exact ⟨_, by simp [ReplSession.saveState, hi]; rfl⟩
  thys name := by
    have ht := h.thys name
    cases hi : s.thys name with
    | none =>
      rw [hi] at ht
      simpa [ReplSession.saveState, hi, ThyRepresented] using ht
    | some info =>
      rw [hi] at ht
      simpa [ReplSession.saveState, hi, ThyRepresented] using
        ⟨ht.1.saveCurrentState s.stateIdCount, ht.2.1, ht.2.2⟩

theorem ThyRepresented.restoreThy {name : Text} {node : Node} {info : ThyInfo}
    (h : ThyRepresented name node (some info)) (id : EnvStateID) :
    ThyRepresented name (restoreThy I id info node).2 (some (restoreThy I id info node).1) := by
  obtain ⟨hwf, hname, htext⟩ := h
  obtain ⟨info', edits, hr, hwf', hname', happ, _⟩ := hwf.restoreState I id
  simp only [ReplSession.restoreThy, hr]
  exact ⟨hwf', hname'.trans hname, by rw [← happ, ← htext]; rfl⟩

theorem Represented.restoreState (h : s.Represented) (id : EnvStateID) :
    (s.restoreState I id).2.Represented := by
  unfold ReplSession.restoreState
  split_ifs
  · exact h
  · refine ⟨fun name hc => ?_, fun name => ?_⟩
    · obtain ⟨info, hi⟩ := h.entered name hc
      exact ⟨_, by simp [hi]; rfl⟩
    · have ht := h.thys name
      cases hi : s.thys name with
      | none =>
        rw [hi] at ht
        simpa [hi, ThyRepresented] using ht
      | some info =>
        rw [hi] at ht
        simpa [hi] using ht.restoreThy id

end ReplSession
end IsabelleGym
