import IsabelleGym.Pide

/-!
# Bookkeeping of one theory

The status chain of a theory, its accumulated header tokens and its saved
states. An edit is checked against the entered name as soon as the header shows
one; a rejected edit leaves the status as it was.
-/

namespace IsabelleGym

abbrev EnvStateID := ℕ

structure ThyInfo where
  name : Text
  currentStatus : ThyStatus := .initial
  savedStates : EnvStateID → Option ThyStatus := fun _ => none

/-- The tokens an edit adds to the header, those before `theory` dropped while
nothing has been accumulated. -/
def getThyHeaderTokens (I : Isabelle) (text : Text) (dropTokensBeforeThyCommand : Bool) :
    List Token :=
  let allTokens := I.thyTokens text
  if dropTokensBeforeThyCommand then
    allTokens.dropWhile (fun tok => !tok.isCommand "theory".toList)
  else allTokens

def extractThyName (I : Isabelle) (thyNameString : Text) : Option Text :=
  match I.thyTokens thyNameString with
  | [tok] => if tok.isIdent || tok.isName then some tok.content else none
  | _ => none

def nameMismatch : String := "Name of theory in header must match name of current theory."

namespace ThyInfo

variable (info : ThyInfo)

def headerProcessed : Bool := info.currentStatus.headerProcessed
def insertionPoint : ℕ := info.currentStatus.insertionPoint
def accumulatedThyHeaderTokens : List Token :=
  info.currentStatus.frame.accumulatedThyHeaderTokens
def lastTextEdit : Option TextEdit := info.currentStatus.lastTextEdit

def lastInsertionLine : ℕ := (info.currentStatus.parent.map ThyStatus.insertionLine).getD 1

def hasAccumulatedFullThyHeader : Bool := info.accumulatedThyHeaderTokens.any Token.isBegin

def needHeaderProcessing : Bool := !info.headerProcessed && info.hasAccumulatedFullThyHeader

def setHeaderProcessed (headerProcessed : Bool) : ThyInfo :=
  { info with currentStatus :=
      info.currentStatus.withFrame { info.currentStatus.frame with headerProcessed } }

def withHeaderTokens (I : Isabelle) (textEdit : TextEdit) : Frame :=
  { info.currentStatus.frame with
    accumulatedThyHeaderTokens := info.accumulatedThyHeaderTokens ++
      getThyHeaderTokens I textEdit.text info.accumulatedThyHeaderTokens.isEmpty }

/-- The comparison of the header's name with the entered one, made once. -/
def verifyThyName (frame : Frame) : Option Frame :=
  if frame.inputThyNameVerified then some frame
  else
    match ThyStatus.inputThyName frame with
    | some inputThyName =>
      if info.name = inputThyName then some { frame with inputThyNameVerified := true } else none
    | none => some frame

/-- The frame of the next status after the header check; `none` rejects the edit. -/
def checkHeader (I : Isabelle) (textEdit : TextEdit) : Option Frame :=
  if info.headerProcessed then some info.currentStatus.frame
  else info.verifyThyName (info.withHeaderTokens I textEdit)

def recordEdit (textEdit : TextEdit) (frame : Frame) : ThyInfo :=
  let newFrame : Frame := { frame with
    lastTextEdit := some textEdit
    insertionPoint := info.currentStatus.insertionPoint + textEdit.text.length
    insertionLine := info.currentStatus.insertionLine + textEdit.text.count '\n' }
  { info with currentStatus := .child newFrame info.currentStatus }

/-- The updated bookkeeping, or `none` with the status unchanged when the
header names another theory. -/
def updateGivenTextEdit (I : Isabelle) (textEdit : TextEdit) : Option ThyInfo :=
  (info.checkHeader I textEdit).map (info.recordEdit textEdit)

def rollbackLastTextEditIfExists : ThyInfo :=
  { info with currentStatus := info.currentStatus.parent.getD info.currentStatus }

def saveCurrentState (stateId : EnvStateID) : ThyInfo :=
  { info with savedStates := Function.update info.savedStates stateId (some info.currentStatus) }

/-- The restored bookkeeping and the edits the document needs. `none` is the
failed requirement on the edit history. -/
def restoreState (I : Isabelle) (stateId : EnvStateID) : Option (ThyInfo × List TextEdit) :=
  match info.savedStates stateId with
  | none => some (info, [])
  | some statusToRestore =>
    (statusToRestore.differenceEdits I.diff info.currentStatus).map
      fun editsRequired => ({ info with currentStatus := statusToRestore }, editsRequired)

structure WellFormed : Prop where
  current : info.currentStatus.WellFormed
  saved : ∀ id s, info.savedStates id = some s → s.WellFormed

variable {info}

theorem checkHeader_of_headerProcessed {I : Isabelle} {textEdit : TextEdit}
    (h : info.headerProcessed = true) :
    info.checkHeader I textEdit = some info.currentStatus.frame := by
  simp [checkHeader, h]

theorem updateGivenTextEdit_of_headerProcessed {I : Isabelle} {textEdit : TextEdit}
    (h : info.headerProcessed = true) :
    info.updateGivenTextEdit I textEdit =
      some (info.recordEdit textEdit info.currentStatus.frame) := by
  rw [updateGivenTextEdit, checkHeader_of_headerProcessed h, Option.map_some]

@[simp] theorem name_recordEdit (e : TextEdit) (f : Frame) :
    (info.recordEdit e f).name = info.name := rfl

@[simp] theorem savedStates_recordEdit (e : TextEdit) (f : Frame) :
    (info.recordEdit e f).savedStates = info.savedStates := rfl

/-- Rolling back a recorded edit restores the bookkeeping it was recorded on. -/
@[simp] theorem rollback_recordEdit (e : TextEdit) (f : Frame) :
    (info.recordEdit e f).rollbackLastTextEditIfExists = info := rfl

@[simp] theorem lastTextEdit_recordEdit (e : TextEdit) (f : Frame) :
    (info.recordEdit e f).lastTextEdit = some e := rfl

@[simp] theorem headerProcessed_recordEdit (e : TextEdit) (f : Frame) :
    (info.recordEdit e f).headerProcessed = f.headerProcessed := rfl

@[simp] theorem lastInsertionLine_recordEdit (e : TextEdit) (f : Frame) :
    (info.recordEdit e f).lastInsertionLine = info.currentStatus.insertionLine := rfl

theorem WellFormed.recordEdit (h : info.WellFormed) (t : Text) (frame : Frame) :
    (info.recordEdit (.insert info.insertionPoint (t ++ ['\n'])) frame).WellFormed where
  current := .child h.current rfl rfl rfl
  saved := h.saved

theorem text_recordEdit (info : ThyInfo) (t : Text) (frame : Frame) :
    (info.recordEdit (.insert info.insertionPoint t) frame).currentStatus.text =
      info.currentStatus.text ++ t := by
  simp [ThyInfo.recordEdit, ThyStatus.text, ThyStatus.editedText, ThyStatus.lastTextEdit]

theorem setHeaderProcessed_child_wellFormed {b : Bool} (h : info.WellFormed) :
    (info.setHeaderProcessed b).WellFormed where
  current := by
    have hc := h.current
    cases hs : info.currentStatus with
    | root f =>
      rw [hs] at hc
      cases hc with
      | root he hp hl => simpa [setHeaderProcessed, hs, ThyStatus.withFrame] using .root he hp hl
    | child f p =>
      rw [hs] at hc
      cases hc with
      | child hp he hpt hl =>
        simpa [setHeaderProcessed, hs, ThyStatus.withFrame] using .child hp he hpt hl
  saved := h.saved

@[simp] theorem text_setHeaderProcessed (b : Bool) :
    (info.setHeaderProcessed b).currentStatus.text = info.currentStatus.text := by
  cases hs : info.currentStatus <;>
    simp [setHeaderProcessed, hs, ThyStatus.withFrame, ThyStatus.text, ThyStatus.editedText,
      ThyStatus.lastTextEdit]

theorem WellFormed.rollback (h : info.WellFormed) :
    info.rollbackLastTextEditIfExists.WellFormed where
  current := by
    have hc := h.current
    cases hs : info.currentStatus with
    | root f => simpa [rollbackLastTextEditIfExists, hs] using hs ▸ hc
    | child f p =>
      rw [hs] at hc
      simpa [rollbackLastTextEditIfExists, hs] using hc.parent
  saved := h.saved

theorem WellFormed.saveCurrentState (h : info.WellFormed) (id : EnvStateID) :
    (info.saveCurrentState id).WellFormed where
  current := h.current
  saved := by
    intro id' s hs
    by_cases hid : id' = id
    · subst hid
      obtain rfl : info.currentStatus = s := by simpa [ThyInfo.saveCurrentState] using hs
      exact h.current
    · refine h.saved id' s ?_
      simpa [ThyInfo.saveCurrentState, Function.update_of_ne hid] using hs

/-- Restoring a saved state rewrites the current text into the saved one. -/
theorem WellFormed.restoreState (h : info.WellFormed) (I : Isabelle) (id : EnvStateID) :
    ∃ info' edits, info.restoreState I id = some (info', edits) ∧ info'.WellFormed ∧
      info'.name = info.name ∧
      EditScript.applyAll edits info.currentStatus.text = info'.currentStatus.text ∧
      EditScript.MatchesAll edits info.currentStatus.text := by
  cases hs : info.savedStates id with
  | none => exact ⟨info, [], by simp [ThyInfo.restoreState, hs], h, rfl, rfl, trivial⟩
  | some s =>
    have hw := h.saved id s hs
    obtain ⟨edits, he, happ, hmat⟩ :=
      ThyStatus.differenceEdits_spec I.diff_isScript hw.recorded h.current.recorded
    exact ⟨{ info with currentStatus := s }, edits, by simp [ThyInfo.restoreState, hs, he],
      ⟨hw, h.saved⟩, rfl, happ, hmat⟩

end ThyInfo
end IsabelleGym
