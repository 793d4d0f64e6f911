import IsabelleGym.ThyInfo

/-!
# The per-session document state

`ReplSession` pairs the bookkeeping of every entered theory with the PIDE
document. Each operation is translated with both effects, so that bookkeeping
and document can disagree where the source lets them disagree: an exception in
the header processing leaves the recorded edit without its document edit.
-/

namespace IsabelleGym

inductive UseResult
  | ok
  | notOk
  | exception (message : String)
deriving DecidableEq

/-- All imports in order, up to the first failing one, with its error message. -/
def importAllTheories (useTheories : Text → UseResult) : List Text → Bool × List String
  | [] => (true, [])
  | localImportName :: rest =>
    let errorMsg := "Failed to import theory: " ++ String.ofList localImportName
    match useTheories localImportName with
    | .ok => importAllTheories useTheories rest
    | .notOk => (false, [errorMsg])
    | .exception message => (false, [errorMsg ++ "\n" ++ message])

/-- The node header for a theory header; `none` when an import is illegal. -/
def dependenciesEdit (I : Isabelle) (nodeName : Text) (thyHeader : ThyHeader) (here : ℕ → String) :
    Option NodeHeader × List String :=
  let imports := thyHeader.imports.map (I.importName nodeName)
  let illegalImports := imports.zipIdx.filter fun (name, _) =>
    I.illegalTheory (I.theoryBaseName name)
  let errors := illegalImports.map fun (name, i) =>
    "Illegal theory name \"" ++ String.ofList (I.theoryBaseName name) ++ "\"" ++ here i
  if illegalImports.isEmpty then
    (some ⟨imports, thyHeader.keywords, thyHeader.abbrevs⟩, errors)
  else (none, errors)

/-- The headers that import one additional theory each, in place of the true imports. -/
def emulateThyImports (I : Isabelle) (nodeName : Text) (thyHeader : ThyHeader) (here : ℕ → String) :
    List Text → Except String (List NodeHeader) × List String
  | [] => (.ok [], [])
  | thy :: rest =>
    match dependenciesEdit I nodeName { thyHeader with imports := [thy] } fun _ => here 0 with
    | (none, errors) =>
      (.error ("Could not emulate header for import of theory " ++ String.ofList thy ++ "."),
        errors)
    | (some header, errors) =>
      let (headers, moreErrors) := emulateThyImports I nodeName thyHeader here rest
      (headers.map (header :: ·), errors ++ moreErrors)

/-- The header edits, the bookkeeping after them and the errors reported. The
edits are an exception, absent, or the header edits in the order they are sent. -/
structure HeaderEdits where
  info : ThyInfo
  edits : Except String (Option (List NodeHeader))
  errors : List String

def getThyHeaderEdits (I : Isabelle) (useTheories : Text → UseResult) (info : ThyInfo)
    (nodeName : Text) (additionalImportsToEmulate : List Text) : HeaderEdits :=
  match I.parseHeader info.accumulatedThyHeaderTokens with
  | none => ⟨info, .ok none, ["Invalid theory header."]⟩
  | some thyHeader =>
    let here := I.importHere info.accumulatedThyHeaderTokens
    let (allImportsSuccessful, errors) := importAllTheories useTheories thyHeader.imports
    if !allImportsSuccessful then ⟨info, .ok none, errors⟩
    else if thyHeader.imports.isEmpty then
      ⟨info, .error "Cannot have theory header with no imports.", errors⟩
    else
      match emulateThyImports I nodeName thyHeader here additionalImportsToEmulate with
      | (.error message, moreErrors) => ⟨info, .error message, errors ++ moreErrors⟩
      | (.ok emulatedImportsEdits, moreErrors) =>
        match dependenciesEdit I nodeName thyHeader here with
        | (none, depsErrors) => ⟨info, .ok none, errors ++ moreErrors ++ depsErrors⟩
        | (some trueDepsEdit, depsErrors) =>
          ⟨info.setHeaderProcessed true, .ok (some (trueDepsEdit :: emulatedImportsEdits)),
            errors ++ moreErrors ++ depsErrors⟩

structure ReplSession where
  initialThys : List Text
  thys : Text → Option ThyInfo := fun _ => none
  currentThy : Option Text := none
  nodes : Text → Node := fun _ => {}
  stateIdCount : ℕ := 0

/-- What an edit operation leaves behind: the session, the errors added to the
result buffer and the exception it ends with, if any. -/
structure Sent where
  session : ReplSession
  errors : List String := []
  raised : Option String := none

def insertTextEdit (string : Text) (info : ThyInfo) : TextEdit :=
  .insert info.insertionPoint (string ++ ['\n'])

def removeInsertEdit (insertEdit : TextEdit) : TextEdit := .remove insertEdit.start insertEdit.text

namespace ReplSession

/-- A session without entered theories, as `new Repl_Session` and `reset` leave it. -/
def fresh (initialThys : List Text) : ReplSession := { initialThys }

variable (I : Isabelle) (s : ReplSession)

def helperThy : Text := s.initialThys.headD "$ISABELLE_REPL_HOME/thys/IsabelleREPL".toList

def currentThyInfo : Option ThyInfo := s.currentThy.bind s.thys

def currentThyBegun : Bool := (s.currentThyInfo.map ThyInfo.headerProcessed).getD false

def setInfo (name : Text) (info : ThyInfo) : ReplSession :=
  { s with thys := Function.update s.thys name (some info) }

def updateSessionWithEdits (name : Text) (edits : List NodeEdit) : ReplSession :=
  { s with nodes := Function.update s.nodes name ((s.nodes name).applyEdits edits) }

def setCurrentRequired (required : Bool) : ReplSession :=
  match s.currentThy with
  | some name => s.updateSessionWithEdits name [.perspective required]
  | none => s

def enterThy (thyName : Text) : ReplSession :=
  let s := if s.currentThyInfo.isSome then s.setCurrentRequired false else s
  let s := if (s.thys thyName).isSome then s else s.setInfo thyName { name := thyName }
  { s with currentThy := some thyName }.setCurrentRequired true

/-- The edit after its acceptance: header processing when the header just became complete,
then the text edit with the header edits in one update. -/
def sendRecorded (useTheories : Text → UseResult) (name : Text) (info : ThyInfo)
    (textEdit : TextEdit) : Sent :=
  if info.needHeaderProcessing then
    let r := getThyHeaderEdits I useTheories info name [s.helperThy]
    match r.edits with
    | .error message =>
      { session := s.setInfo name r.info, errors := r.errors, raised := some message }
    | .ok additionalEdits =>
      { session := (s.setInfo name r.info).updateSessionWithEdits name
          (.edits [textEdit] :: (additionalEdits.getD []).map .deps)
        errors := r.errors }
  else
    { session := (s.setInfo name info).updateSessionWithEdits name [.edits [textEdit]] }

def sendEdit (useTheories : Text → UseResult) (isarString : Text) : Sent :=
  match s.currentThy, s.currentThyInfo with
  | some name, some info =>
    let textEdit := insertTextEdit isarString info
    match info.updateGivenTextEdit I textEdit with
    | none => { session := s, errors := [nameMismatch] }
    | some info => s.sendRecorded I useTheories name info textEdit
  | _, _ => { session := s, errors := ["Cannot make edits without entering theory."] }

def discardLastEdit : ReplSession :=
  match s.currentThy, s.currentThyInfo with
  | some name, some info =>
    match info.lastTextEdit with
    | some lastEdit =>
      (s.updateSessionWithEdits name [.edits [removeInsertEdit lastEdit]]).setInfo name
        info.rollbackLastTextEditIfExists
    | none => s
  | _, _ => s

def rollbackLastTextEdit : Sent :=
  match s.currentThyInfo with
  | none => { session := s, errors := ["Cannot rollback without entering theory."] }
  | some info =>
    match info.lastTextEdit with
    | none => { session := s, errors := ["No text edits have been made to rollback."] }
    | some _ => { session := s.discardLastEdit }

def saveState : EnvStateID × ReplSession :=
  (s.stateIdCount,
    { s with
      stateIdCount := s.stateIdCount + 1
      thys := fun n => (s.thys n).map (·.saveCurrentState s.stateIdCount) })

def validStateId (stateId : EnvStateID) : Bool := stateId ≤ s.stateIdCount

/-- One theory brought back to a saved state, with its document. A chain with an edit that is
no insert would fail the requirement of the source; here it is left alone. -/
def restoreThy (stateId : EnvStateID) (info : ThyInfo) (node : Node) : ThyInfo × Node :=
  match info.restoreState I stateId with
  | some (info, editsRequired) => (info, node.applyEdits [.edits editsRequired])
  | none => (info, node)

def restoreState (stateId : EnvStateID) : Bool × ReplSession :=
  if !s.validStateId stateId then (false, s)
  else
    (true, { s with
      thys := fun n => (s.thys n).map fun info => (restoreThy I stateId info (s.nodes n)).1
      nodes := fun n => match s.thys n with
        | some info => (restoreThy I stateId info (s.nodes n)).2
        | none => s.nodes n })

end ReplSession
end IsabelleGym
