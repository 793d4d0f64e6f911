import IsabelleGym.PythonSession
import IsabelleGym.SuccessChecker
import IsabelleGym.TheoryParsing

/-!
# Verifying a whole theory

`big_step` saves the backend, enters its theory and sends header, body and `end`.
A failure restores the save and re-enters the theory that was entered before.
The theory is entered only behind the save, so the save knows nothing of a new
one, and without a theory to go back to the new one stays entered.
-/

namespace IsabelleGym

open TheoryParsing

/-- The part of a theory that a step sends, how the wait ends and the results of the commands. -/
structure BigStepPart where
  part : Text
  wait : Wait
  results : ℕ → List Message

structure BigStepRun where
  useTheories : Text → UseResult
  currentThy : Wait
  save : Wait
  enter : Wait
  header : Wait × (ℕ → List Message)
  body : Wait × (ℕ → List Message)
  ending : Wait × (ℕ → List Message)
  restore : Wait
  reenter : Wait

namespace ReplSession

def stepResult (I : Isabelle) (s : ReplSession) (useTheories : Text → UseResult)
    (isarString : Text) (results : ℕ → List Message) : ReplResult :=
  let r := s.sendEdit I useTheories isarString
  r.session.outputCurrentNodeResults I results
    (r.errors.foldl (fun result e => result.addError e.toList) {})

def currentThyNameString (s : ReplSession) : Text := (s.currentThyInfo.map ThyInfo.name).getD []

variable {I : Isabelle} {s s' : ReplSession}

theorem thys_setCurrentRequired (s : ReplSession) (required : Bool) :
    (s.setCurrentRequired required).thys = s.thys := by
  unfold setCurrentRequired
  split <;> rfl

theorem document_setCurrentRequired (s : ReplSession) (required : Bool) :
    (s.setCurrentRequired required).document = s.document := by
  unfold setCurrentRequired
  split
  · rename_i cur _
    funext name
    by_cases hn : name = cur
    · subst hn
      simp [document, updateSessionWithEdits, Node.applyEdit]
    · simp [document, updateSessionWithEdits, Function.update_of_ne hn]
  · rfl

theorem thys_enterThy (s : ReplSession) (thyName : Text) :
    (s.enterThy thyName).thys = if (s.thys thyName).isSome then s.thys
      else Function.update s.thys thyName (some { name := thyName }) := by
  have hleft : (if s.currentThyInfo.isSome then s.setCurrentRequired false else s).thys =
      s.thys := by
    split_ifs
    · exact thys_setCurrentRequired s false
    · rfl
  unfold enterThy
  generalize (if s.currentThyInfo.isSome then s.setCurrentRequired false else s) = left at hleft ⊢
  rw [thys_setCurrentRequired, ← hleft]
  dsimp only
  split_ifs <;> rfl

theorem statusOf_enterThy (s : ReplSession) (thyName name : Text) :
    (s.enterThy thyName).statusOf name = s.statusOf name := by
  rw [statusOf, thys_enterThy]
  split_ifs with hsome
  · rfl
  · by_cases hn : name = thyName
    · subst hn
      have hnone : s.thys name = none := by simpa using hsome
      simp [statusOf, hnone]
    · simp [statusOf, Function.update_of_ne hn]

theorem document_enterThy (s : ReplSession) (thyName : Text) :
    (s.enterThy thyName).document = s.document := by
  have hleft : (if s.currentThyInfo.isSome then s.setCurrentRequired false else s).document =
      s.document := by
    split_ifs
    · exact document_setCurrentRequired s false
    · rfl
  unfold enterThy
  generalize (if s.currentThyInfo.isSome then s.setCurrentRequired false else s) = left at hleft ⊢
  rw [document_setCurrentRequired, ← hleft]
  split_ifs <;> rfl

/-- Entering a theory changes neither a status nor a text. -/
theorem broughtBack_enterInputThy (inputThyName : Text) :
    BroughtBack s (s'.enterInputThy I inputThyName) ↔ BroughtBack s s' := by
  unfold enterInputThy
  cases extractThyName I inputThyName with
  | none => exact Iff.rfl
  | some thyName =>
    have htext : ∀ name, ((s'.enterThy thyName).nodes name).text = (s'.nodes name).text :=
      fun name => congrFun (document_enterThy s' thyName) name
    simp only [BroughtBack, statusOf_enterThy, htext]

theorem currentThy_enterInputThy (s : ReplSession) (inputThyName : Text) :
    (s.enterInputThy I inputThyName).currentThy =
      (extractThyName I inputThyName).or s.currentThy := by
  unfold enterInputThy
  cases extractThyName I inputThyName <;> rfl

theorem currentThy_restoreState (s : ReplSession) (id : EnvStateID) :
    (s.restoreState I id).2.currentThy = s.currentThy := by
  unfold restoreState
  split_ifs <;> rfl

/-- A step never empties a chain. -/
theorem statusOf_sendEdit_ne_initial {name : Text} (useTheories : Text → UseResult)
    (isarString : Text) (h : s.statusOf name ≠ .initial) :
    (s.sendEdit I useTheories isarString).session.statusOf name ≠ .initial := by
  by_cases hcur : s.currentThy = some name
  · rcases hi : s.thys name with _ | info
    · rw [sendEdit_of_not_entered useTheories isarString (by simp [currentThyInfo, hcur, hi])]
      exact h
    · rcases sendEdit_cases (I := I) useTheories isarString hcur hi with
        ⟨_, hs, _⟩ | ⟨_, frame, _, hs, _⟩ | ⟨_, _, frame, info', headers, _, hinfo, hs⟩
      · rw [hs]
        exact h
      · simp [hs, statusOf, setInfo, ThyInfo.recordEdit, ThyStatus.initial]
      · rcases hinfo with rfl | rfl <;>
          simp [hs, statusOf, setInfo, updateSessionWithEdits, ThyInfo.recordEdit,
            ThyInfo.setHeaderProcessed, ThyStatus.withFrame, ThyStatus.initial]
  · have hframe := (frame_sendEdit (I := I) s useTheories isarString hcur).1
    rw [statusOf, hframe]
    exact h

/-- An accepted edit is a link of the chain. -/
theorem statusOf_sendEdit_of_accepted {name : Text} (useTheories : Text → UseResult)
    {isarString : Text} (hcur : s.currentThy = some name) (ha : Accepted I s isarString) :
    (s.sendEdit I useTheories isarString).session.statusOf name ≠ .initial := by
  obtain ⟨n, info, hn, hi, hu⟩ := id ha
  obtain rfl : name = n := by simpa [hcur] using hn
  rcases sendEdit_cases (I := I) useTheories isarString hcur hi with
    ⟨hnone, _⟩ | ⟨_, frame, _, hs, _⟩ | ⟨_, _, frame, info', headers, _, hinfo, hs⟩
  · rw [hnone] at hu
    cases hu
  · simp [hs, statusOf, setInfo, ThyInfo.recordEdit, ThyStatus.initial]
  · rcases hinfo with rfl | rfl <;>
      simp [hs, statusOf, setInfo, updateSessionWithEdits, ThyInfo.recordEdit,
        ThyInfo.setHeaderProcessed, ThyStatus.withFrame, ThyStatus.initial]

theorem errorTexts_stepResult (useTheories : Text → UseResult) (isarString : Text)
    (results : ℕ → List Message) {errors : List String}
    (herrors : (s.sendEdit I useTheories isarString).errors = errors) :
    ∃ rest, (s.stepResult I useTheories isarString results).errorTexts =
      (errors.foldl (fun result e => result.addError e.toList) {} : ReplResult).errorTexts ++
        rest := by
  unfold stepResult outputCurrentNodeResults
  dsimp only
  rw [herrors]
  split
  · rw [outputNodeResults, errorTexts_foldl]
    exact ⟨_, rfl⟩
  · exact ⟨[], (List.append_nil _).symm⟩

/-- A rejected part fails, whatever the commands before it show. -/
theorem isSyntaxSuccessful_of_not_accepted {name : Text} {info : ThyInfo}
    (useTheories : Text → UseResult) {isarString : Text} (results : ℕ → List Message)
    (hc : s.currentThy = some name) (hi : s.thys name = some info)
    (ha : ¬ Accepted I s isarString) :
    SuccessChecker.isSyntaxSuccessful (s.stepResult I useTheories isarString results) = false := by
  have hnone : info.updateGivenTextEdit I (insertTextEdit isarString info) = none := by
    rw [accepted_iff hc hi] at ha
    simpa using ha
  have herrors : (s.sendEdit I useTheories isarString).errors = [nameMismatch] := by
    have hci : s.currentThyInfo = some info := by simp [currentThyInfo, hc, hi]
    simp only [sendEdit, hc, hci]
    rw [hnone]
  obtain ⟨rest, htexts⟩ := errorTexts_stepResult useTheories isarString results herrors
  have hcons : (s.stepResult I useTheories isarString results).errorTexts =
      nameMismatch.toList :: rest := htexts
  have hlines : PythonStr.splitlines nameMismatch.toList = [nameMismatch.toList] := by
    decide +kernel
  have hsig : SuccessChecker.isSignificant nameMismatch.toList = true := by decide +kernel
  have hfirst : SuccessChecker.firstSignificantLine
      (s.stepResult I useTheories isarString results).errorTexts = some nameMismatch.toList := by
    rw [hcons, SuccessChecker.firstSignificantLine, List.flatMap_cons, hlines,
      List.singleton_append, List.find?_cons_of_pos hsig]
  rw [SuccessChecker.isSyntaxSuccessful_eq_false_iff, SuccessChecker.getErrorMessage_ne_nil_iff
    (t := nameMismatch.toList) (by simp [hcons]) (by decide +kernel), hfirst]
  rintro l hl
  obtain rfl : nameMismatch.toList = l := by simpa using hl
  decide +kernel

end ReplSession

namespace IsabelleSession

open ReplSession

variable (I : Isabelle) (channelId : String) (isWord : Char → Bool)

/-- A blank part is not sent and counts as successful. -/
def stepPart (useTheories : Text → UseResult) (p : BigStepPart) (x : IsabelleSession) :
    Bool × IsabelleSession :=
  if PythonStr.strip p.part = [] then (true, x)
  else
    let r := x.callBackend I channelId (.step useTheories p.part) p.wait
    (r.1 && SuccessChecker.isSyntaxSuccessful
      ((x.drained I channelId).stepResult I useTheories p.part p.results), r.2)

/-- The parts in order, up to the first that fails or raises. -/
def stepParts (useTheories : Text → UseResult) :
    List BigStepPart → IsabelleSession → Bool × IsabelleSession
  | [], x => (true, x)
  | p :: parts, x =>
    let r := x.stepPart I channelId useTheories p
    if r.1 then stepParts useTheories parts r.2 else r

def restoreBigStepState (checkpointId : Option EnvStateID) (previousTheory : Text)
    (run : BigStepRun) (x : IsabelleSession) : IsabelleSession :=
  let x := match checkpointId with
    | some id => (x.callBackend I channelId (.restoreState id) run.restore).2
    | none => x
  if previousTheory ≠ [] ∧ previousTheory ≠ x.enteredThy then
    ((x.noteEntered (.enterThy previousTheory)).callBackend I channelId (.enterThy previousTheory)
      run.reenter).2
  else x

/-- The name of the current theory, empty when the call raises. -/
def previousTheory (run : BigStepRun) (x : IsabelleSession) : Text :=
  match run.currentThy with
  | .answered => (x.drained I channelId).currentThyNameString
  | .timedOut _ => []

def bigStepParts (run : BigStepRun) (header body ending : Text) : List BigStepPart :=
  [⟨header, run.header.1, run.header.2⟩] ++
    (if PythonStr.strip body = [] then []
      else [⟨PythonStr.strip body ++ ['\n'], run.body.1, run.body.2⟩]) ++
    [⟨ending, run.ending.1, run.ending.2⟩]

/-- The part of `big_step` behind the checks of the text: whether it succeeds, with the session
it leaves. -/
def bigStepSend (run : BigStepRun) (previousTheory theoryName : Text) (parts : List BigStepPart)
    (x : IsabelleSession) : Bool × IsabelleSession :=
  let checkpointId := (x.drained I channelId).saveState.1
  let saved := x.callBackend I channelId .saveState run.save
  if !saved.1 then (false, saved.2.restoreBigStepState I channelId none previousTheory run)
  else
    let entered := (saved.2.noteEntered (.enterThy theoryName)).callBackend I channelId
      (.enterThy theoryName) run.enter
    let sent := if entered.1 then entered.2.stepParts I channelId run.useTheories parts
      else entered
    if sent.1 then
      (true, { sent.2 with verifiedTheories := sent.2.verifiedTheories ++ [theoryName] })
    else (false, sent.2.restoreBigStepState I channelId (some checkpointId) previousTheory run)

def bigStep (run : BigStepRun) (theoryName proof : Text) (x : IsabelleSession) :
    Bool × IsabelleSession :=
  let previous := x.previousTheory I channelId run
  let x := (x.callBackend I channelId (.query .currentThyNameString) run.currentThy).2
  match extractTheoryName proof with
  | none => (false, x)
  | some declaredName =>
    if declaredName ≠ theoryName then (false, x)
    else
      match splitCompleteTheory isWord proof with
      | none => (false, x.restoreBigStepState I channelId none previous run)
      | some (header, body, ending) =>
        x.bigStepSend I channelId run previous theoryName (bigStepParts run header body ending)

/-- Every text, chain and the current theory are as before, and no theory counts as verified. -/
structure NoTrace (x x' : IsabelleSession) : Prop where
  broughtBack : BroughtBack (x.drained I channelId) (x'.drained I channelId)
  currentThy : (x'.drained I channelId).currentThy = (x.drained I channelId).currentThy
  verifiedTheories : x'.verifiedTheories = x.verifiedTheories

/-- No part that is sent raises in its header processing. -/
def PartsFit (useTheories : Text → UseResult) : List BigStepPart → ReplSession → Prop
  | [], _ => True
  | p :: parts, s =>
    if PythonStr.strip p.part = [] then PartsFit useTheories parts s
    else
      ¬ EditRaises I useTheories p.part s ∧ (p.wait = .answered →
        SuccessChecker.isSyntaxSuccessful (s.stepResult I useTheories p.part p.results) = true →
          PartsFit useTheories parts (s.sendEdit I useTheories p.part).session)

/-- The session behind the save and the entering of the theory. -/
def savedAndEntered (run : BigStepRun) (theoryName : Text) (x : IsabelleSession) :
    IsabelleSession :=
  (((x.callBackend I channelId .saveState run.save).2.noteEntered
    (.enterThy theoryName)).callBackend I channelId (.enterThy theoryName) run.enter).2

/-- What the body behind the save leaves: the session with the theory entered, and behind an
answered entering the parts. -/
def sentParts (run : BigStepRun) (theoryName : Text) (parts : List BigStepPart)
    (x : IsabelleSession) : IsabelleSession :=
  if run.enter = .answered then
    ((x.savedAndEntered I channelId run theoryName).stepParts I channelId run.useTheories parts).2
  else x.savedAndEntered I channelId run theoryName

/-- The texts that the restore removes stand in the documents that they are removed from. -/
def RemovesFound (run : BigStepRun) (theoryName proof : Text) (x : IsabelleSession) : Prop :=
  let x := (x.callBackend I channelId (.query .currentThyNameString) run.currentThy).2
  extractTheoryName proof = some theoryName → run.save = .answered →
    ∀ header body ending, splitCompleteTheory isWord proof = some (header, body, ending) →
      RestoreApplies I (x.drained I channelId).saveState.1
        ((x.sentParts I channelId run theoryName
          (bigStepParts run header body ending)).drained I channelId)

/-- The current theory is the given one again once the previous theory has been re-entered: it
is, where it is neither empty nor the name noted last and the backend accepts it. -/
def ReturnsTo (current : Option Text) (previous noted : Text) (now : Option Text) : Prop :=
  (if previous ≠ [] ∧ previous ≠ noted then (extractThyName I previous).or now else now) = current

/-- The theory had been entered before, or is refused, or nothing of its header is recorded. -/
def HeaderUnrecorded (s : ReplSession) (run : BigStepRun) (theoryName header : Text) : Prop :=
  ∀ name, extractThyName I theoryName = some name → s.thys name = none →
    run.enter ≠ .answered ∨ ¬ Accepted I (s.saveState.2.enterThy name) header

/-- When a failing `big_step` leaves no trace: the texts where nothing of a new theory is recorded
and nothing raises, and the current theory where the previous one is entered again. -/
def FailsCleanly (run : BigStepRun) (theoryName proof : Text) (x : IsabelleSession) : Prop :=
  let s := x.drained I channelId
  let previous := x.previousTheory I channelId run
  extractTheoryName proof = some theoryName →
    match splitCompleteTheory isWord proof with
    | none => ReturnsTo I s.currentThy previous x.enteredThy s.currentThy
    | some (header, body, ending) =>
      if run.save = .answered then
        HeaderUnrecorded I s run theoryName header ∧
          (run.enter = .answered → PartsFit I run.useTheories (bigStepParts run header body ending)
            (s.saveState.2.enterInputThy I theoryName)) ∧
          ReturnsTo I s.currentThy previous theoryName
            ((extractThyName I theoryName).or s.currentThy)
      else ReturnsTo I s.currentThy previous x.enteredThy s.currentThy

variable {I : Isabelle} {channelId : String} {isWord : Char → Bool} {x : IsabelleSession}

@[simp] theorem enteredThy_callBackend (fn : BackendFn) (w : Wait) :
    (x.callBackend I channelId fn w).2.enteredThy = x.enteredThy := by
  cases w <;> rfl

@[simp] theorem verifiedTheories_callBackend (fn : BackendFn) (w : Wait) :
    (x.callBackend I channelId fn w).2.verifiedTheories = x.verifiedTheories := by
  cases w <;> rfl

@[simp] theorem verifiedTheories_noteEntered (fn : BackendFn) :
    (x.noteEntered fn).verifiedTheories = x.verifiedTheories := by
  cases fn <;> rfl

@[simp] theorem enteredThy_stepPart (useTheories : Text → UseResult) (p : BigStepPart) :
    (x.stepPart I channelId useTheories p).2.enteredThy = x.enteredThy := by
  unfold stepPart
  split_ifs
  · rfl
  · exact enteredThy_callBackend _ _

@[simp] theorem verifiedTheories_stepPart (useTheories : Text → UseResult) (p : BigStepPart) :
    (x.stepPart I channelId useTheories p).2.verifiedTheories = x.verifiedTheories := by
  unfold stepPart
  split_ifs
  · rfl
  · exact verifiedTheories_callBackend _ _

theorem drained_stepPart (useTheories : Text → UseResult) (p : BigStepPart) :
    (x.stepPart I channelId useTheories p).2.drained I channelId =
      if PythonStr.strip p.part = [] then x.drained I channelId
      else ((x.drained I channelId).sendEdit I useTheories p.part).session := by
  unfold stepPart
  split_ifs
  · rfl
  · exact drained_callBackend I channelId x _ _

/-- A part that is sent succeeds when it does not raise, is answered and shows no error. -/
theorem stepPart_fst (useTheories : Text → UseResult) {p : BigStepPart}
    (hblank : PythonStr.strip p.part ≠ []) :
    (x.stepPart I channelId useTheories p).1 = true ↔
      ((x.drained I channelId).sendEdit I useTheories p.part).raised = none ∧
        p.wait = .answered ∧ SuccessChecker.isSyntaxSuccessful
          ((x.drained I channelId).stepResult I useTheories p.part p.results) = true := by
  rw [stepPart, if_neg hblank]
  cases hw : p.wait <;> simp [callBackend, BackendFn.fails]

@[simp] theorem enteredThy_stepParts (useTheories : Text → UseResult) (parts : List BigStepPart) :
    (x.stepParts I channelId useTheories parts).2.enteredThy = x.enteredThy := by
  induction parts generalizing x with
  | nil => rfl
  | cons p parts ih =>
    rw [stepParts]
    split_ifs
    · rw [ih, enteredThy_stepPart]
    · exact enteredThy_stepPart useTheories p

@[simp] theorem verifiedTheories_stepParts (useTheories : Text → UseResult)
    (parts : List BigStepPart) :
    (x.stepParts I channelId useTheories parts).2.verifiedTheories = x.verifiedTheories := by
  induction parts generalizing x with
  | nil => rfl
  | cons p parts ih =>
    rw [stepParts]
    split_ifs
    · rw [ih, verifiedTheories_stepPart]
    · exact verifiedTheories_stepPart useTheories p

theorem editSteps_stepParts (useTheories : Text → UseResult) {parts : List BigStepPart}
    (hfits : PartsFit I useTheories parts (x.drained I channelId)) :
    EditSteps I (x.drained I channelId)
      ((x.stepParts I channelId useTheories parts).2.drained I channelId) := by
  induction parts generalizing x with
  | nil => exact .refl
  | cons p parts ih =>
    rw [PartsFit] at hfits
    rw [stepParts]
    by_cases hblank : PythonStr.strip p.part = []
    · have hsame : x.stepPart I channelId useTheories p = (true, x) := by
        rw [stepPart, if_pos hblank]
      rw [hsame, if_pos rfl]
      exact ih (by simpa [hblank] using hfits)
    · rw [if_neg hblank] at hfits
      obtain ⟨hno, hnext⟩ := hfits
      have hdrained := @drained_stepPart I channelId x useTheories p
      rw [if_neg hblank] at hdrained
      have hfirst : EditSteps I (x.drained I channelId)
          ((x.stepPart I channelId useTheories p).2.drained I channelId) := by
        rw [hdrained]
        exact EditSteps.refl.sendEdit useTheories p.part hno
      split_ifs with hok
      · obtain ⟨_, hanswered, hsuccess⟩ := (stepPart_fst useTheories hblank).mp hok
        exact hfirst.trans (ih (by rw [hdrained]; exact hnext hanswered hsuccess))
      · exact hfirst

/-- Where a part raises it is the last one sent. -/
theorem exists_raises_stepParts (useTheories : Text → UseResult) {parts : List BigStepPart}
    (hfits : ¬ PartsFit I useTheories parts (x.drained I channelId)) :
    ∃ s part, EditSteps I (x.drained I channelId) s ∧ EditRaises I useTheories part s ∧
      (x.stepParts I channelId useTheories parts).2.drained I channelId =
        (s.sendEdit I useTheories part).session := by
  induction parts generalizing x with
  | nil => exact absurd trivial hfits
  | cons p parts ih =>
    rw [PartsFit] at hfits
    rw [stepParts]
    by_cases hblank : PythonStr.strip p.part = []
    · have hsame : x.stepPart I channelId useTheories p = (true, x) := by
        rw [stepPart, if_pos hblank]
      rw [hsame, if_pos rfl]
      exact ih (by simpa [hblank] using hfits)
    · rw [if_neg hblank] at hfits
      have hdrained := @drained_stepPart I channelId x useTheories p
      rw [if_neg hblank] at hdrained
      by_cases hraise : EditRaises I useTheories p.part (x.drained I channelId)
      · have hfail : ¬ (x.stepPart I channelId useTheories p).1 = true := fun hok =>
          not_editRaises_of_raised ((stepPart_fst useTheories hblank).mp hok).1 hraise
        rw [if_neg hfail]
        exact ⟨_, p.part, .refl, hraise, hdrained⟩
      · simp only [not_and, not_forall] at hfits
        obtain ⟨hanswered, hsuccess, hrest⟩ := hfits hraise
        have hnone : ((x.drained I channelId).sendEdit I useTheories p.part).raised = none :=
          raised_of_not_editRaises hraise
        have hok := (@stepPart_fst I channelId x useTheories _ hblank).mpr
          ⟨hnone, hanswered, hsuccess⟩
        rw [if_pos hok]
        rw [← hdrained] at hrest
        obtain ⟨s, part, hsteps, hbad, hlast⟩ := ih hrest
        refine ⟨s, part, ?_, hbad, hlast⟩
        rw [hdrained] at hsteps
        exact (EditSteps.refl.sendEdit useTheories p.part hraise).trans hsteps

theorem statusOf_stepParts_ne_initial {name : Text} (useTheories : Text → UseResult)
    (parts : List BigStepPart) (h : (x.drained I channelId).statusOf name ≠ .initial) :
    ((x.stepParts I channelId useTheories parts).2.drained I channelId).statusOf name ≠
      .initial := by
  induction parts generalizing x with
  | nil => exact h
  | cons p parts ih =>
    have hfirst : ((x.stepPart I channelId useTheories p).2.drained I channelId).statusOf name ≠
        .initial := by
      rw [drained_stepPart]
      split_ifs
      · exact h
      · exact statusOf_sendEdit_ne_initial useTheories p.part h
    rw [stepParts]
    split_ifs
    · exact ih hfirst
    · exact hfirst

theorem drained_restoreBigStepState (I : Isabelle) (channelId : String)
    (checkpointId : Option EnvStateID) (previous : Text) (run : BigStepRun)
    (x : IsabelleSession) :
    (x.restoreBigStepState I channelId checkpointId previous run).drained I channelId =
      let s := match checkpointId with
        | some id => ((x.drained I channelId).restoreState I id).2
        | none => x.drained I channelId
      if previous ≠ [] ∧ previous ≠ x.enteredThy then s.enterInputThy I previous else s := by
  have hrestored : ∀ id, (x.callBackend I channelId (.restoreState id) run.restore).2.drained I
      channelId = ((x.drained I channelId).restoreState I id).2 :=
    fun id => drained_callBackend I channelId x (.restoreState id) run.restore
  have hreenter : ∀ y : IsabelleSession, ((y.noteEntered (.enterThy previous)).callBackend I
      channelId (.enterThy previous) run.reenter).2.drained I channelId =
        (y.drained I channelId).enterInputThy I previous := by
    intro y
    rw [drained_callBackend, drained_noteEntered]
    rfl
  unfold restoreBigStepState
  cases checkpointId with
  | none =>
    dsimp only
    split_ifs
    · exact hreenter x
    · rfl
  | some id =>
    dsimp only
    rw [enteredThy_callBackend]
    split_ifs
    · rw [hreenter, hrestored]
    · exact hrestored id

theorem verifiedTheories_restoreBigStepState (checkpointId : Option EnvStateID) (previous : Text)
    (run : BigStepRun) (x : IsabelleSession) :
    (x.restoreBigStepState I channelId checkpointId previous run).verifiedTheories =
      x.verifiedTheories := by
  unfold restoreBigStepState
  cases checkpointId <;> dsimp only <;> split_ifs <;> simp

/-- What a restoration leaves as it was before: the texts where the restored save has them, and
the current theory where the previous one is entered again. -/
theorem noTrace_restoreBigStepState_iff (checkpointId : Option EnvStateID) (previous : Text)
    (run : BigStepRun) {y : IsabelleSession} (hverified : y.verifiedTheories = x.verifiedTheories) :
    NoTrace I channelId x (y.restoreBigStepState I channelId checkpointId previous run) ↔
      BroughtBack (x.drained I channelId) (match checkpointId with
        | some id => ((y.drained I channelId).restoreState I id).2
        | none => y.drained I channelId) ∧
      ReturnsTo I (x.drained I channelId).currentThy previous y.enteredThy
        (y.drained I channelId).currentThy := by
  have hdrained := drained_restoreBigStepState I channelId checkpointId previous run y
  set s₁ := match checkpointId with
    | some id => ((y.drained I channelId).restoreState I id).2
    | none => y.drained I channelId with hs₁
  have hcur : s₁.currentThy = (y.drained I channelId).currentThy := by
    rw [hs₁]
    cases checkpointId
    · rfl
    · exact currentThy_restoreState _ _
  have hback : BroughtBack (x.drained I channelId)
      ((y.restoreBigStepState I channelId checkpointId previous run).drained I channelId) ↔
        BroughtBack (x.drained I channelId) s₁ := by
    rw [hdrained]
    dsimp only
    split_ifs
    · exact broughtBack_enterInputThy previous
    · exact Iff.rfl
  have hnow : ((y.restoreBigStepState I channelId checkpointId previous run).drained I
      channelId).currentThy = (x.drained I channelId).currentThy ↔
        ReturnsTo I (x.drained I channelId).currentThy previous y.enteredThy
          (y.drained I channelId).currentThy := by
    rw [hdrained, ReturnsTo, ← hcur]
    dsimp only
    split_ifs
    · rw [currentThy_enterInputThy]
    · exact Iff.rfl
  rw [← hback, ← hnow]
  constructor
  · exact fun h => ⟨h.broughtBack, h.currentThy⟩
  · rintro ⟨hb, hc⟩
    exact ⟨hb, hc, (verifiedTheories_restoreBigStepState checkpointId previous run y).trans
      hverified⟩

/-- The new theory is still empty exactly when its header was not recorded. -/
theorem statusOf_stepParts_header_iff (useTheories : Text → UseResult) {header : BigStepPart}
    (parts : List BigStepPart) {name : Text} {info : ThyInfo}
    (hblank : PythonStr.strip header.part ≠ [])
    (hc : (x.drained I channelId).currentThy = some name)
    (hi : (x.drained I channelId).thys name = some info) (hroot : info.currentStatus = .initial) :
    ((x.stepParts I channelId useTheories (header :: parts)).2.drained I channelId).statusOf name =
        .initial ↔ ¬ Accepted I (x.drained I channelId) header.part := by
  have hfirst : (x.stepPart I channelId useTheories header).2.drained I channelId =
      ((x.drained I channelId).sendEdit I useTheories header.part).session := by
    rw [drained_stepPart, if_neg hblank]
  by_cases ha : Accepted I (x.drained I channelId) header.part
  · have hsent := statusOf_sendEdit_of_accepted useTheories hc ha
    rw [← hfirst] at hsent
    have hlast : ((x.stepParts I channelId useTheories (header :: parts)).2.drained I
        channelId).statusOf name ≠ .initial := by
      rw [stepParts]
      split_ifs
      · exact statusOf_stepParts_ne_initial useTheories parts hsent
      · exact hsent
    exact iff_of_false hlast (not_not_intro ha)
  · have hfail : (x.stepPart I channelId useTheories header).1 = false := by
      rw [stepPart, if_neg hblank]
      simp [isSyntaxSuccessful_of_not_accepted useTheories header.results hc hi ha]
    have hsame : ((x.stepParts I channelId useTheories (header :: parts)).2.drained I channelId) =
        x.drained I channelId := by
      rw [stepParts, hfail]
      exact hfirst.trans (sendEdit_of_not_accepted useTheories hc hi ha).1
    rw [hsame]
    exact iff_of_true (by simp [statusOf, hi, hroot]) ha

/-- Whether the calls were answered decides which parts of the body run. -/
theorem callBackend_fst {fn : BackendFn} (w : Wait)
    (hfails : fn.fails I channelId (x.drained I channelId) = false) :
    (x.callBackend I channelId fn w).1 = decide (w = .answered) := by
  cases w <;> simp [callBackend, hfails]

theorem drained_savedAndEntered (run : BigStepRun) (theoryName : Text) :
    (x.savedAndEntered I channelId run theoryName).drained I channelId =
      (x.drained I channelId).saveState.2.enterInputThy I theoryName := by
  rw [savedAndEntered, drained_callBackend, drained_noteEntered, drained_callBackend]
  rfl

theorem enteredThy_sentParts (run : BigStepRun) (theoryName : Text) (parts : List BigStepPart) :
    (x.sentParts I channelId run theoryName parts).enteredThy = theoryName := by
  have hentered : (x.savedAndEntered I channelId run theoryName).enteredThy = theoryName := by
    rw [savedAndEntered, enteredThy_callBackend]
    rfl
  rw [sentParts]
  split_ifs
  · rw [enteredThy_stepParts, hentered]
  · exact hentered

theorem verifiedTheories_sentParts (run : BigStepRun) (theoryName : Text)
    (parts : List BigStepPart) :
    (x.sentParts I channelId run theoryName parts).verifiedTheories = x.verifiedTheories := by
  rw [sentParts]
  split_ifs <;> simp [savedAndEntered]

theorem editSteps_sentParts (run : BigStepRun) (theoryName : Text) {parts : List BigStepPart}
    (hfits : run.enter = .answered → PartsFit I run.useTheories parts
      ((x.drained I channelId).saveState.2.enterInputThy I theoryName)) :
    EditSteps I ((x.drained I channelId).saveState.2.enterInputThy I theoryName)
      ((x.sentParts I channelId run theoryName parts).drained I channelId) := by
  rw [← drained_savedAndEntered run] at hfits ⊢
  rw [sentParts]
  split_ifs with hans
  · exact editSteps_stepParts run.useTheories (hfits hans)
  · exact .refl

theorem statusOf_enterInputThy (s : ReplSession) (inputThyName name : Text) :
    (s.enterInputThy I inputThyName).statusOf name = s.statusOf name := by
  unfold enterInputThy
  cases extractThyName I inputThyName with
  | none => rfl
  | some thyName => exact statusOf_enterThy s thyName name

/-- Behind the parts every theory entered since the save is empty exactly when the header of a
new theory is not recorded. -/
theorem laterTheoriesEmpty_sentParts_iff (run : BigStepRun) (theoryName : Text)
    {header : BigStepPart} {parts : List BigStepPart} (h : (x.drained I channelId).Represented)
    (hblank : PythonStr.strip header.part ≠ [])
    (hfits : run.enter = .answered → PartsFit I run.useTheories (header :: parts)
      ((x.drained I channelId).saveState.2.enterInputThy I theoryName)) :
    LaterTheoriesEmpty (x.drained I channelId)
        ((x.sentParts I channelId run theoryName (header :: parts)).drained I channelId) ↔
      HeaderUnrecorded I (x.drained I channelId) run theoryName header.part := by
  set s := x.drained I channelId with hs
  set e := s.saveState.2.enterInputThy I theoryName with he
  have hsteps := editSteps_sentParts run theoryName hfits
  have hdrained : (x.savedAndEntered I channelId run theoryName).drained I channelId =
      (x.drained I channelId).saveState.2.enterInputThy I theoryName :=
    drained_savedAndEntered run theoryName
  have hempty : ∀ name, s.thys name = none → e.statusOf name = .initial := by
    intro name hnone
    rw [he, statusOf_enterInputThy]
    simp [statusOf, saveState, hnone]
  have hnew : ∀ name, extractThyName I theoryName = some name → s.thys name = none →
      (run.enter = .answered →
        (((x.sentParts I channelId run theoryName (header :: parts)).drained I
          channelId).statusOf name = .initial ↔
            ¬ Accepted I (s.saveState.2.enterThy name) header.part)) := by
    intro name hname hnone hans
    have henter : e = s.saveState.2.enterThy name := by rw [he, enterInputThy, hname]
    have hthys : e.thys name = some { name := name } := by
      have hnone' : s.saveState.2.thys name = none := by simp [saveState, hnone]
      rw [henter, thys_enterThy, hnone']
      simp
    have hcur : e.currentThy = some name := by rw [henter]; rfl
    rw [sentParts, if_pos hans, ← henter]
    rw [← hs, ← he] at hdrained
    rw [← hdrained] at hcur hthys ⊢
    exact statusOf_stepParts_header_iff run.useTheories parts hblank hcur hthys rfl
  constructor
  · intro hlater name hname hnone
    by_cases hans : run.enter = .answered
    · exact Or.inr ((hnew name hname hnone hans).mp (hlater name hnone))
    · exact Or.inl hans
  · intro hunrec name hnone
    by_cases hname : extractThyName I theoryName = some name
    · by_cases hans : run.enter = .answered
      · apply (hnew name hname hnone hans).mpr
        rcases hunrec name hname hnone with hno | hno
        · exact absurd hans hno
        · exact hno
      · rw [sentParts, if_neg hans, hdrained]
        exact hempty name hnone
    · have hother : e.currentThy ≠ some name := by
        intro hcur
        rw [he, currentThy_enterInputThy] at hcur
        cases hx : extractThyName I theoryName with
        | some t =>
          rw [hx] at hcur hname
          exact hname hcur
        | none =>
          rw [hx] at hcur
          obtain ⟨info, hi⟩ := h.entered name hcur
          rw [hnone] at hi
          cases hi
      rw [statusOf, (hsteps.frame hother).1]
      exact hempty name hnone

theorem bigStepSend_of_failed (run : BigStepRun) (previous theoryName : Text)
    (parts : List BigStepPart)
    (hfail : (x.bigStepSend I channelId run previous theoryName parts).1 = false) :
    (x.bigStepSend I channelId run previous theoryName parts).2 =
      if run.save = .answered then
        (x.sentParts I channelId run theoryName parts).restoreBigStepState I channelId
          (some (x.drained I channelId).saveState.1) previous run
      else (x.callBackend I channelId .saveState run.save).2.restoreBigStepState I channelId none
        previous run := by
  have hsaved : (x.callBackend I channelId .saveState run.save).1 = decide (run.save = .answered) :=
    callBackend_fst run.save rfl
  have henter : ((x.callBackend I channelId .saveState run.save).2.noteEntered
      (.enterThy theoryName) |>.callBackend I channelId (.enterThy theoryName) run.enter).1 =
        decide (run.enter = .answered) := callBackend_fst run.enter rfl
  unfold bigStepSend at hfail ⊢
  unfold sentParts savedAndEntered
  dsimp only at hfail ⊢
  rw [hsaved] at hfail ⊢
  generalize ((x.callBackend I channelId .saveState run.save).2.noteEntered
    (.enterThy theoryName)).callBackend I channelId (.enterThy theoryName) run.enter = entered
    at henter hfail ⊢
  by_cases hsave : run.save = .answered
  · by_cases hans : run.enter = .answered
    · simp only [henter, hsave, hans, decide_true, Bool.not_true, Bool.false_eq_true, if_false,
        if_true] at hfail ⊢
      split_ifs at hfail ⊢
      rfl
    · simp [henter, hsave, hans]
  · simp [hsave]

theorem bigStepSend_noTrace_iff (run : BigStepRun) (previous theoryName : Text)
    {header : BigStepPart} {parts : List BigStepPart} (h : (x.drained I channelId).Represented)
    (hblank : PythonStr.strip header.part ≠ [])
    (hfail : (x.bigStepSend I channelId run previous theoryName (header :: parts)).1 = false) :
    NoTrace I channelId x
        (x.bigStepSend I channelId run previous theoryName (header :: parts)).2 ∧
      (run.save = .answered → RestoreApplies I (x.drained I channelId).saveState.1
        ((x.sentParts I channelId run theoryName (header :: parts)).drained I channelId)) ↔
      if run.save = .answered then
        HeaderUnrecorded I (x.drained I channelId) run theoryName header.part ∧
          (run.enter = .answered → PartsFit I run.useTheories (header :: parts)
            ((x.drained I channelId).saveState.2.enterInputThy I theoryName)) ∧
          ReturnsTo I (x.drained I channelId).currentThy previous theoryName
            ((extractThyName I theoryName).or (x.drained I channelId).currentThy)
      else ReturnsTo I (x.drained I channelId).currentThy previous x.enteredThy
        (x.drained I channelId).currentThy := by
  set s := x.drained I channelId with hs
  rw [bigStepSend_of_failed run previous theoryName _ hfail, ← hs]
  have hentered : (s.saveState.2.enterInputThy I theoryName).Represented :=
    h.saveState.enterInputThy theoryName
  have hsame : SameSaves s.saveState.2 (s.saveState.2.enterInputThy I theoryName) :=
    SameSaves.enterInputThy _ theoryName
  by_cases hsave : run.save = .answered
  · simp only [hsave, if_true, forall_const]
    rw [noTrace_restoreBigStepState_iff _ _ _ (verifiedTheories_sentParts run theoryName _),
      enteredThy_sentParts, ← hs]
    dsimp only
    by_cases hfits : run.enter = .answered → PartsFit I run.useTheories (header :: parts)
        (s.saveState.2.enterInputThy I theoryName)
    · have hsteps := @editSteps_sentParts I channelId x run theoryName _ hfits
      have hrep := hsteps.represented hentered
      rw [hsteps.currentThy, currentThy_enterInputThy,
        h.broughtBack_save_iff hrep (hsame.trans hsteps.sameSaves),
        laterTheoriesEmpty_sentParts_iff run theoryName h hblank hfits,
        and_iff_left (hrep.restoreApplies _), and_iff_right hfits]
      rfl
    · refine iff_of_false (fun hall => ?_) fun hall => hfits hall.2.1
      obtain ⟨hans, hbad⟩ := Classical.not_imp.mp hfits
      rw [← @drained_savedAndEntered I channelId x run] at hbad
      obtain ⟨t, part, hsteps, hraise, hlast⟩ := exists_raises_stepParts run.useTheories hbad
      rw [drained_savedAndEntered run, ← hs] at hsteps
      have hsent : (x.sentParts I channelId run theoryName (header :: parts)).drained I channelId =
          (t.sendEdit I run.useTheories part).session := by
        rw [sentParts, if_pos hans, hlast]
      rw [hsent] at hall
      have hcount : (t.sendEdit I run.useTheories part).session.stateIdCount =
          s.stateIdCount + 1 :=
        ((hsame.trans hsteps.sameSaves).trans (.sendEdit t run.useTheories part)).stateIdCount
      have hv : (t.sendEdit I run.useTheories part).session.validStateId s.saveState.1 = true := by
        rw [validStateId, hcount]
        exact decide_eq_true (Nat.le_succ _)
      obtain ⟨name, info, hi, hwell, hunsent⟩ := hraise.unsent (hsteps.represented hentered)
      exact h.not_broughtBack_of_unsent hv hi hwell hunsent hall.2 hall.1.1
  · simp only [hsave, if_false, false_imp_iff, and_true]
    have hdrained : (x.callBackend I channelId .saveState run.save).2.drained I channelId =
        s.saveState.2 := drained_callBackend I channelId x _ _
    rw [noTrace_restoreBigStepState_iff none _ _ (verifiedTheories_callBackend _ _),
      enteredThy_callBackend, hdrained, ← hs]
    apply and_iff_right
    intro name
    refine ⟨?_, rfl⟩
    cases hi : s.thys name <;> simp [statusOf, saveState, hi, ThyInfo.saveCurrentState]

/-- What leaves no trace on a session leaves none on one that the worker arrives at alike. -/
theorem noTrace_congr {y z : IsabelleSession}
    (hdrained : y.drained I channelId = x.drained I channelId)
    (hverified : y.verifiedTheories = x.verifiedTheories) :
    NoTrace I channelId x z ↔ NoTrace I channelId y z := by
  constructor
  · rintro ⟨hb, hc, hv⟩
    exact ⟨by rwa [hdrained], by rwa [hdrained], hv.trans hverified.symm⟩
  · rintro ⟨hb, hc, hv⟩
    exact ⟨by rwa [hdrained] at hb, by rwa [hdrained] at hc, hv.trans hverified⟩

/-- On every session whose documents match their chains, a `big_step` that fails leaves no trace,
and removes only what is there, exactly when it fails cleanly. -/
theorem bigStep_noTrace_iff (run : BigStepRun) (theoryName proof : Text)
    (h : (x.drained I channelId).Represented)
    (hfail : (x.bigStep I channelId isWord run theoryName proof).1 = false) :
    NoTrace I channelId x (x.bigStep I channelId isWord run theoryName proof).2 ∧
        RemovesFound I channelId isWord run theoryName proof x ↔
      FailsCleanly I channelId isWord run theoryName proof x := by
  set y := (x.callBackend I channelId (.query .currentThyNameString) run.currentThy).2 with hy
  have hdrained : y.drained I channelId = x.drained I channelId :=
    drained_callBackend I channelId x _ _
  have hentered : y.enteredThy = x.enteredThy := enteredThy_callBackend _ _
  have hverified : y.verifiedTheories = x.verifiedTheories := verifiedTheories_callBackend _ _
  have hidle : NoTrace I channelId y y := ⟨fun _ => ⟨rfl, rfl⟩, rfl, rfl⟩
  rw [noTrace_congr hdrained hverified]
  unfold bigStep at hfail ⊢
  unfold FailsCleanly RemovesFound
  dsimp only at hfail ⊢
  rw [← hy] at hfail ⊢
  rw [← hdrained, ← hentered]
  cases hname : extractTheoryName proof with
  | none => exact iff_of_true ⟨hidle, fun heq => by cases heq⟩ (fun heq => by cases heq)
  | some declaredName =>
    rw [hname] at hfail
    dsimp only at hfail ⊢
    by_cases hdecl : declaredName = theoryName
    · rw [if_neg (not_not_intro hdecl)] at hfail ⊢
      simp only [hdecl, forall_const]
      cases hsplit : splitCompleteTheory isWord proof with
      | none =>
        dsimp only
        rw [noTrace_restoreBigStepState_iff none _ _ rfl, and_iff_left (fun _ _ _ _ heq => by
          cases heq)]
        exact and_iff_right fun _ => ⟨rfl, rfl⟩
      | some parts =>
        obtain ⟨header, body, ending⟩ := parts
        rw [hsplit] at hfail
        dsimp only at hfail ⊢
        rw [← hdrained] at h
        have hiff : NoTrace I channelId y (y.bigStepSend I channelId run _ theoryName
            (bigStepParts run header body ending)).2 ∧ _ ↔ _ :=
          bigStepSend_noTrace_iff run _ theoryName h (strip_header_ne_nil hsplit) hfail
        refine Iff.trans (and_congr_right' ?_) hiff
        constructor
        · exact fun hall hsave => hall hsave header body ending rfl
        · rintro hall hsave _ _ _ ⟨⟩
          exact hall hsave
    · rw [if_pos hdecl]
      have hne : some declaredName ≠ some theoryName := fun heq => hdecl (Option.some.inj heq)
      exact iff_of_true ⟨hidle, fun heq => absurd heq hne⟩ (fun heq => absurd heq hne)

section Example

def failingBody : BigStepRun where
  useTheories _ := .ok
  currentThy := .answered
  save := .answered
  enter := .answered
  header := (.answered, fun _ => [])
  body := (.answered, fun _ => [⟨.error, "Failed to finish proof".toList⟩])
  ending := (.answered, fun _ => [])
  restore := .answered
  reenter := .answered

def completeTheory : Text := "theory A imports Main begin lemma x end".toList

def asciiWord (c : Char) : Bool := c.isAlphanum || c = '_'

def newSession : IsabelleSession := { backend := fresh [] }

theorem bigStep_failingBody_fails :
    (newSession.bigStep OuterSyntax.isabelle "c" asciiWord failingBody "A".toList
      completeTheory).1 = false := by
  decide +kernel

/-- The header and the body of a failed theory stay behind. -/
theorem failed_bigStep_leaves_text :
    (newSession.bigStep OuterSyntax.isabelle "c" asciiWord failingBody "A".toList
        completeTheory).1 = false ∧
      ¬ NoTrace OuterSyntax.isabelle "c" newSession
        (newSession.bigStep OuterSyntax.isabelle "c" asciiWord failingBody "A".toList
          completeTheory).2 := by
  refine ⟨bigStep_failingBody_fails, fun h => ?_⟩
  have htext := (h.broughtBack "A".toList).2
  revert htext
  decide +kernel

theorem bigStep_noTrace_iff_failingBody :
    NoTrace OuterSyntax.isabelle "c" newSession
          (newSession.bigStep OuterSyntax.isabelle "c" asciiWord failingBody "A".toList
            completeTheory).2 ∧
        RemovesFound OuterSyntax.isabelle "c" asciiWord failingBody "A".toList completeTheory
          newSession ↔
      FailsCleanly OuterSyntax.isabelle "c" asciiWord failingBody "A".toList completeTheory
        newSession :=
  bigStep_noTrace_iff failingBody "A".toList completeTheory (represented_fresh [])
    bigStep_failingBody_fails

end Example

end IsabelleSession
end IsabelleGym
