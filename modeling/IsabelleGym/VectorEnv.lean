import IsabelleGym.Dict
import IsabelleGym.OuterSyntax
import IsabelleGym.Representation
import IsabelleGym.Runs

/-!
# Vectorised environments

`vectorise` puts a new `Vector_Env` into the session, which has the duplicates of
the theories that were entered into it. A vector step sends one command to each
of the current duplicates, and `scalarise` looks up the duplicates to keep.
-/

namespace IsabelleGym

/-- The maps are by the names of the theories. -/
structure VectorEnv where
  vectorSize : ℕ
  originalToDuplicates : Dict Text (List ThyInfo) := []
  duplicatesToOriginal : Dict Text Text := []
  currentDuplicates : Option (List ThyInfo) := none

/-- The duplicate has the status that the original was constructed with, and that is none. -/
def ThyInfo.duplicate (_info : ThyInfo) (duplicateName : Text) : ThyInfo :=
  { name := duplicateName }

namespace VectorEnv

variable (v : VectorEnv) (original : ThyInfo)

def duplicate (randomString : Text) : ThyInfo × VectorEnv :=
  let duplicate := original.duplicate (original.name ++ "_dup_".toList ++ randomString)
  let dups := (v.originalToDuplicates.lookup original.name).getD []
  (duplicate, { v with
    originalToDuplicates := Dict.put v.originalToDuplicates original.name (dups ++ [duplicate])
    duplicatesToOriginal := Dict.put v.duplicatesToOriginal duplicate.name original.name })

/-- One duplicate for each of the random strings. -/
def fill (v : VectorEnv) : List Text → List ThyInfo × VectorEnv
  | [] => ([], v)
  | randomString :: rest =>
    let (duplicate, v) := v.duplicate original randomString
    let (duplicates, v) := v.fill rest
    (duplicate :: duplicates, v)

def enter (randomStrings : ℕ → Text) : VectorEnv :=
  match v.originalToDuplicates.lookup original.name with
  | some duplicates => { v with currentDuplicates := some duplicates }
  | none =>
    let (duplicates, v) := v.fill original ((List.range v.vectorSize).map randomStrings)
    { v with currentDuplicates := some duplicates }

/-- `none` is an index out of bounds. -/
def scalarise (envToKeep : ℕ) : Option (List (Text × ThyInfo)) :=
  v.originalToDuplicates.mapM fun entry => (entry.2[envToKeep]?).map fun kept => (entry.1, kept)

variable {v} {original}

end VectorEnv

namespace ReplSession

variable (I : Isabelle) (s : ReplSession)

/-- `send_edit` with the node that the edits are sent to. The edit itself is made and recorded for
the current theory. -/
def sendEditTo (useTheories : Text → UseResult) (isarString : Text) (node : Text) : Sent :=
  match s.currentThy, s.currentThyInfo with
  | some name, some info =>
    let textEdit := insertTextEdit isarString info
    match info.updateGivenTextEdit I textEdit with
    | none => { session := s, errors := [nameMismatch] }
    | some info =>
      if info.needHeaderProcessing then
        let r := getThyHeaderEdits I useTheories info name [s.helperThy]
        match r.edits with
        | .error message =>
          { session := s.setInfo name r.info, errors := r.errors, raised := some message }
        | .ok additionalEdits =>
          { session := (s.setInfo name r.info).updateSessionWithEdits node
              (.edits [textEdit] :: (additionalEdits.getD []).map .deps)
            errors := r.errors }
      else
        { session := (s.setInfo name info).updateSessionWithEdits node [.edits [textEdit]] }
  | _, _ => { session := s, errors := ["Cannot make edits without entering theory."] }

/-- Sent to the node of the current theory it is a scalar edit. -/
theorem sendEditTo_current (useTheories : Text → UseResult) (isarString : Text) {name : Text}
    (h : s.currentThy = some name) :
    s.sendEditTo I useTheories isarString name = s.sendEdit I useTheories isarString := by
  unfold sendEditTo sendEdit sendRecorded
  rw [h]
  cases s.currentThyInfo with
  | none => rfl
  | some info => rfl

def sendVectorEdits (useTheories : Text → UseResult) : ReplSession → List (Text × Text) → Sent
  | s, [] => { session := s }
  | s, (node, isarString) :: rest =>
    let sent := s.sendEditTo I useTheories isarString node
    match sent.raised with
    | some _ => sent
    | none =>
      let more := sendVectorEdits useTheories sent.session rest
      { more with errors := sent.errors ++ more.errors }

def currentDocument : Text := ((s.currentThy.map s.nodes).map Node.text).getD []

end ReplSession

structure VectorStep where
  useTheories : Text → UseResult
  isarStrings : List Text

structure VectorSession where
  session : ReplSession
  vectorEnv : Option VectorEnv := none

namespace VectorSession

variable (I : Isabelle) (s : VectorSession)

def vectorise (size : ℤ) : Except String VectorSession :=
  if 0 < size then .ok { s with vectorEnv := some { vectorSize := size.toNat } }
  else .error "requirement failed: Vector size must be positive"

def scalarise (envToKeep : ℕ) : Except String VectorSession :=
  match s.vectorEnv with
  | none => .error "can't scalarise when already in scalar mode"
  | some v =>
    match v.scalarise envToKeep with
    | none => .error "index out of bounds"
    | some _ => .ok s

def vectorCurrentDuplicates : Option (List ThyInfo) := s.vectorEnv.bind VectorEnv.currentDuplicates

def sendVectorEdit (step : VectorStep) : Sent :=
  match s.vectorCurrentDuplicates with
  | none => { session := s.session }
  | some thyInfos =>
    ReplSession.sendVectorEdits I step.useTheories s.session
      ((thyInfos.map ThyInfo.name).zip step.isarStrings)

def vectorStep (step : VectorStep) : VectorSession :=
  { s with session := (s.sendVectorEdit I step).session }

def scalarStep (k : ℕ) (s : ReplSession) (step : VectorStep) : ReplSession :=
  (s.sendEdit I step.useTheories (step.isarStrings.getD k [])).session

/-- The `k`-th duplicate behind the steps has the document of the theory with the `k`-th components
behind it, the nodes of no other theory are changed, and `scalarise` leaves the document of a
scalar session. -/
def SimulatesCopy (n : ℤ) (k : ℕ) (steps : List VectorStep) : Prop :=
  ∃ start, s.vectorise n = .ok start ∧
    (∃ duplicates d, (steps.foldl (vectorStep I) start).vectorCurrentDuplicates = some duplicates ∧
      duplicates[k]? = some d ∧
      ((steps.foldl (vectorStep I) start).session.nodes d.name).text =
        s.session.currentDocument ++
          steps.flatMap fun step => step.isarStrings.getD k [] ++ ['\n']) ∧
    (∀ name, (∀ duplicates,
        (steps.foldl (vectorStep I) start).vectorCurrentDuplicates = some duplicates →
          ∀ d ∈ duplicates, d.name ≠ name) →
      (steps.foldl (vectorStep I) start).session.nodes name = s.session.nodes name) ∧
    ∃ kept, (steps.foldl (vectorStep I) start).scalarise k = .ok kept ∧
      kept.session.currentDocument =
        (steps.foldl (scalarStep I k) s.session).currentDocument

variable {I} {s}

theorem vectorStep_of_none (h : s.vectorCurrentDuplicates = none) (step : VectorStep) :
    s.vectorStep I step = s := by
  simp [vectorStep, sendVectorEdit, h]

/-- Without current duplicates no vector step changes anything. -/
theorem foldl_vectorStep_of_none (h : s.vectorCurrentDuplicates = none) (steps : List VectorStep) :
    steps.foldl (vectorStep I) s = s := by
  induction steps with
  | nil => rfl
  | cons step steps ih => rw [List.foldl_cons, vectorStep_of_none h, ih]

theorem vectorise_eq_ok {n : ℤ} {start : VectorSession} (h : s.vectorise n = .ok start) :
    0 < n ∧ start = { s with vectorEnv := some { vectorSize := n.toNat } } := by
  unfold vectorise at h
  split at h
  · rename_i hn
    exact ⟨hn, (Except.ok.inj h).symm⟩
  · cases h

/-- A new environment has no duplicates, and a run of vector steps makes none. -/
theorem foldl_vectorStep_vectorise {n : ℤ} {start : VectorSession} (h : s.vectorise n = .ok start)
    (steps : List VectorStep) : steps.foldl (vectorStep I) start = start := by
  obtain ⟨-, rfl⟩ := vectorise_eq_ok h
  exact foldl_vectorStep_of_none rfl steps

theorem vectorCurrentDuplicates_run {n : ℤ} {start : VectorSession}
    (h : s.vectorise n = .ok start) (steps : List VectorStep) :
    (steps.foldl (vectorStep I) start).vectorCurrentDuplicates = none := by
  rw [foldl_vectorStep_vectorise h]
  obtain ⟨-, rfl⟩ := vectorise_eq_ok h
  rfl

theorem not_simulatesCopy_of_none {n : ℤ} {k : ℕ} {steps : List VectorStep}
    (h : ∀ start, s.vectorise n = .ok start →
      (steps.foldl (vectorStep I) start).vectorCurrentDuplicates = none) :
    ¬ s.SimulatesCopy I n k steps := by
  rintro ⟨start, hstart, ⟨duplicates, d, hdups, -⟩, -⟩
  rw [h start hstart] at hdups
  cases hdups

/-- No vectorised environment simulates a copy: there is none. -/
theorem not_simulatesCopy (I : Isabelle) (s : VectorSession) (n : ℤ) (k : ℕ)
    (steps : List VectorStep) : ¬ s.SimulatesCopy I n k steps :=
  not_simulatesCopy_of_none fun _ hstart => vectorCurrentDuplicates_run hstart steps

/-- Two environments for a new theory and one step: nothing is stepped. -/
theorem not_simulatesCopy_new_theory : ¬ SimulatesCopy OuterSyntax.isabelle
    { session := (ReplSession.fresh []).enterThy "A".toList } 2 0
    [⟨fun _ => .ok,
      ["theory A imports Main begin".toList, "theory A imports Pure begin".toList]⟩] :=
  not_simulatesCopy_of_none fun _ hstart => vectorCurrentDuplicates_run hstart _

section Scalar

/-- A scalar step leaves the document or makes it longer. -/
theorem currentDocument_scalarStep (k : ℕ) (s : ReplSession) (step : VectorStep) :
    (scalarStep I k s step).currentDocument = s.currentDocument ∨
      s.currentDocument.length < (scalarStep I k s step).currentDocument.length := by
  cases hc : s.currentThy with
  | none =>
    left
    simp [scalarStep, ReplSession.sendEdit, hc]
  | some name =>
    cases hi : s.thys name with
    | none =>
      left
      simp [scalarStep, ReplSession.sendEdit, ReplSession.currentThyInfo, hc, hi]
    | some info =>
      rcases ReplSession.sendEdit_cases (I := I) step.useTheories (step.isarStrings.getD k []) hc hi
        with ⟨-, hs, -⟩ | ⟨-, frame, -, hs, -⟩ | ⟨-, -, frame, info', headers, -, -, hs⟩
      · left
        rw [scalarStep, hs]
      · left
        rw [scalarStep, hs]
        rfl
      · right
        rw [scalarStep, hs]
        have hnode : (((s.setInfo name info').updateSessionWithEdits name
            (.edits [insertTextEdit (step.isarStrings.getD k []) info] ::
              headers.map .deps)).nodes name).text =
            (insertTextEdit (step.isarStrings.getD k []) info).apply (s.nodes name).text := by
          rw [← ReplSession.text_applyEdits_insert (s.nodes name) _ headers]
          simp [ReplSession.updateSessionWithEdits, ReplSession.setInfo]
        have hdoc : ((s.setInfo name info').updateSessionWithEdits name
            (.edits [insertTextEdit (step.isarStrings.getD k []) info] ::
              headers.map .deps)).currentDocument =
            (insertTextEdit (step.isarStrings.getD k []) info).apply (s.nodes name).text := by
          rw [← hnode]
          simp [ReplSession.currentDocument, ReplSession.updateSessionWithEdits,
            ReplSession.setInfo, hc]
        rw [hdoc]
        have hold : s.currentDocument = (s.nodes name).text := by
          simp [ReplSession.currentDocument, hc]
        rw [hold]
        simp only [insertTextEdit, EditScript.Edit.apply, EditScript.Edit.insert_isInsert, if_true,
          EditScript.Edit.insert_start, EditScript.Edit.insert_text, List.length_append,
          List.length_take, List.length_drop, List.length_singleton]
        omega

theorem length_currentDocument_le (k : ℕ) (s : ReplSession) (steps : List VectorStep) :
    s.currentDocument.length ≤ (steps.foldl (scalarStep I k) s).currentDocument.length := by
  induction steps generalizing s with
  | nil => exact Nat.le_refl _
  | cons step steps ih =>
    refine Nat.le_trans ?_ (ih (scalarStep I k s step))
    rcases currentDocument_scalarStep (I := I) k s step with hsame | hlonger
    · rw [hsame]
    · exact Nat.le_of_lt hlonger

/-- `scalarise` leaves the document of a scalar session exactly where that session has refused
every component. -/
theorem currentDocument_scalarised_iff (k : ℕ) (s : ReplSession) (steps : List VectorStep) :
    s.currentDocument = (steps.foldl (scalarStep I k) s).currentDocument ↔
      Runs.EveryStep (scalarStep I k)
        (fun s step => (scalarStep I k s step).currentDocument = s.currentDocument) s steps := by
  induction steps generalizing s with
  | nil => simp
  | cons step steps ih =>
    rw [List.foldl_cons, Runs.everyStep_cons, ← ih (scalarStep I k s step)]
    constructor
    · intro hsame
      rcases currentDocument_scalarStep (I := I) k s step with hstep | hlonger
      · exact ⟨hstep, by rw [hstep, hsame]⟩
      · have hle := length_currentDocument_le (I := I) k (scalarStep I k s step) steps
        rw [← hsame] at hle
        omega
    · rintro ⟨hstep, hrest⟩
      rw [← hstep, hrest]

end Scalar

end VectorSession

end IsabelleGym
