import Mathlib.Data.List.Dedup
import Mathlib.Data.List.Sort
import Mathlib.Data.Rat.Floor
import IsabelleGym.HeapPool
import IsabelleGym.Runs
import IsabelleGym.TheoryHeader

/-!
# The build verifier

A theory is verified by a build of its own session in a temporary directory. What
Isabelle does with the files is part of the environment. Successful results are
cached under a hash of the parent, the dependencies and the text; calls with one
hash build one after the other, and a semaphore bounds all builds.
-/

namespace IsabelleGym

open PythonStr TheoryParsing

structure BigStepExecuteResult where
  success : Bool
  output : Option Text := none
  error : Option Text := none
  executionTime : ℚ
  mode : Text := "build_strict".toList
  theoryVerified : Bool := false
deriving DecidableEq

structure VerifyRequest where
  theoryName : Text
  theoryText : Text
  dependencies : List Text := []
  field : Option Text := none
  timeout : ℚ
deriving DecidableEq

/-- What a build leaves in the temporary directory, and the session that Isabelle builds there. -/
structure BuildFiles where
  theoryFile : Text
  theoryText : Text
  rootText : Text
  sessionName : Text
deriving DecidableEq

structure BuildRun where
  exitCode : ℤ
  stdout : Text := []
  stderr : Text := []
  duration : ℚ

/-- Isabelle and the libraries of Python around the verifier. Without a run the files cannot be
written, or Isabelle cannot be started. Where the normaliser raises it has no result. -/
structure BuildEnv where
  sha256 : Text → Digest
  isWord : Char → Bool
  normaliseForIsabelle : Text → Option Text
  build : BuildFiles → Option BuildRun

section Normalisation

inductive LinePart
  | start | inside | cut

/-- `_strip_mlval` behind the start of a line, inside one, or inside one that is cut out. -/
def stripMlvalFrom (isWord : Char → Bool) : LinePart → Text → Text
  | _, [] => []
  | .cut, c :: t => stripMlvalFrom isWord (if c = '\n' then .start else .cut) t
  | .inside, c :: t => c :: stripMlvalFrom isWord (if c = '\n' then .start else .inside) t
  | .start, c :: t =>
    if "ML_val".toList.isPrefixOf (c :: t) && !(t.drop 5).head?.any isWord then
      stripMlvalFrom isWord .cut t
    else c :: stripMlvalFrom isWord (if c = '\n' then .start else .inside) t

def stripMlval (isWord : Char → Bool) (text : Text) : Text := stripMlvalFrom isWord .start text

def sortedSet (names : List Text) : List Text :=
  names.dedup.insertionSort fun s t => textLE s t = true

def normalizeTheories (theories : List Text) : List Text :=
  sortedSet ((theories.map strip).filter fun s => !s.isEmpty)

/-- The `.1f` format, which rounds halves to even. -/
def fixedOne (x : ℚ) : Text :=
  let tenths := |x| * 10
  let below := ⌊tenths⌋.toNat
  let rounded :=
    if tenths - below < 1 / 2 ∨ tenths - below = 1 / 2 ∧ below % 2 = 0 then below else below + 1
  (if x < 0 then ['-'] else []) ++ (toString (rounded / 10)).toList ++ ['.'] ++
    (toString (rounded % 10)).toList

def lastCharacters (t : Text) : Text := t.drop (t.length - 4000)

end Normalisation

section Keys

variable (env : BuildEnv)

def dependencyKeyText (field : Text) (theories : List Text) : Text :=
  field ++ "::".toList ++ ['|'].intercalate (normalizeTheories theories)

def buildDependencyKey (field : Text) (theories : List Text) : Digest :=
  env.sha256 (dependencyKeyText field theories)

def theoryHashText (field : Text) (dependencyKey : Digest) (theoryText : Text) : Text :=
  field ++ "::".toList ++ dependencyKey.hex ++ "::".toList ++ theoryText

def stableTheoryHash (field : Text) (dependencyKey : Digest) (theoryText : Text) : Digest :=
  env.sha256 (theoryHashText field dependencyKey theoryText)

def extractImports (text : Text) : List Text :=
  let imports := sortedSet (parseTheoryHeader env.isWord text).2
  if imports.isEmpty then ["Main".toList] else imports

end Keys

def writeRoot (sessionName parentSession theoryName : Text) : Text :=
  "session \"".toList ++ sessionName ++ "\" = \"".toList ++ parentSession ++ "\" +\n".toList ++
    "  options [document = false, browser_info = false]\n  theories\n    \"".toList ++ theoryName ++
    "\"\n".toList

namespace VerifyRequest

variable (env : BuildEnv) (r : VerifyRequest)

def parentSession : Text :=
  let field := strip (match r.field with
    | none | some [] => "HOL".toList
    | some f => f)
  if field.isEmpty then "HOL".toList else field

def deps : List Text :=
  normalizeTheories (if r.dependencies.isEmpty then extractImports env r.theoryText
    else r.dependencies)

def dependencyKey : Digest := buildDependencyKey env r.parentSession (r.deps env)

def theoryHash : Digest := stableTheoryHash env r.parentSession (r.dependencyKey env) r.theoryText

def normalised : Text :=
  let stripped := stripMlval env.isWord r.theoryText
  (env.normaliseForIsabelle stripped).getD stripped

def sessionName : Text :=
  "Build_".toList ++ (r.dependencyKey env).hex.take 10 ++ ['_'] ++
    (env.sha256 r.theoryText).hex.take 10

def files : BuildFiles where
  theoryFile := r.theoryName ++ ".thy".toList
  theoryText := r.normalised env
  rootText := writeRoot (r.sessionName env) r.parentSession r.theoryName
  sessionName := r.sessionName env

def failed (error : Text) (executionTime : ℚ) : BigStepExecuteResult where
  success := false
  error := some error
  executionTime

def nameError : Option Text :=
  match extractTheoryName r.theoryText with
  | none => some "Could not extract theory name from submitted theory text.".toList
  | some declared =>
    if declared ≠ r.theoryName then
      some ("Declared theory name '".toList ++ declared ++
        "' does not match request theory_name '".toList ++ r.theoryName ++ "'.".toList)
    else none

/-- The result of a build, which is killed behind the timeout. -/
def resultOf (run : BuildRun) : BigStepExecuteResult :=
  if r.timeout < run.duration then
    failed ("isabelle build timed out after ".toList ++ fixedOne r.timeout ++ ['s']) r.timeout
  else
    let ok := run.exitCode = 0
    let stdout := lastCharacters run.stdout
    let stderr := lastCharacters run.stderr
    { success := ok
      output := if stdout.isEmpty then none else some stdout
      error :=
        if ok then none
        else if !stderr.isEmpty then some stderr
        else if !stdout.isEmpty then some stdout
        else some ("isabelle build failed with exit code ".toList ++ (toString run.exitCode).toList)
      executionTime := run.duration
      theoryVerified := ok }

/-- `_run_build`; `none` where it raises. -/
def runBuild : Option BigStepExecuteResult :=
  match r.nameError with
  | some error => some (failed error 0)
  | none => (env.build (r.files env)).map r.resultOf

theorem nameError_eq_none_iff {r : VerifyRequest} :
    r.nameError = none ↔ extractTheoryName r.theoryText = some r.theoryName := by
  unfold nameError
  cases extractTheoryName r.theoryText with
  | none => simp
  | some declared =>
    by_cases h : declared = r.theoryName
    · simp [h]
    · simp [h]

end VerifyRequest

/-- A call of `verify`: it waits for the lock of its hash, holds it and waits for the semaphore, or
builds. Behind that it has its result, or has raised, or has been cancelled. -/
inductive VerifyStage
  | waiting | locked | building | answered (result : Option BigStepExecuteResult) | cancelled
deriving DecidableEq

structure VerifyCall where
  request : VerifyRequest
  stage : VerifyStage
deriving DecidableEq

structure BuildVerifier where
  cache : Dict Digest BigStepExecuteResult := []
  locks : Digest → Option ℕ := fun _ => none
  permits : ℕ
  calls : List VerifyCall := []

inductive VerifyEvent
  | verify (r : VerifyRequest)
  | lock (i : ℕ)
  | start (i : ℕ)
  | finish (i : ℕ)
  | cancel (i : ℕ)

namespace BuildVerifier

variable (env : BuildEnv) (v : BuildVerifier)

def cached (r : VerifyRequest) : Option BigStepExecuteResult :=
  (v.cache.lookup (r.theoryHash env)).map fun result => { result with executionTime := 0 }

def setStage (i : ℕ) (r : VerifyRequest) (stage : VerifyStage) : BuildVerifier :=
  { v with calls := v.calls.set i ⟨r, stage⟩ }

def unlock (key : Digest) : BuildVerifier := { v with locks := Function.update v.locks key none }

/-- A call leaves with a result: the permit and the lock are free, and a success is cached. -/
def leave (i : ℕ) (r : VerifyRequest) (result : Option BigStepExecuteResult) : BuildVerifier :=
  let v := (v.setStage i r (.answered result)).unlock (r.theoryHash env)
  match result with
  | some result =>
    if result.success then { v with cache := Dict.put v.cache (r.theoryHash env) result } else v
  | none => v

def verify (r : VerifyRequest) : BuildVerifier :=
  { v with calls := v.calls ++ [⟨r, ((v.cached env r).map (.answered ∘ some)).getD .waiting⟩] }

/-- Behind the lock the cache is looked up again. -/
def lock (i : ℕ) (r : VerifyRequest) : BuildVerifier :=
  if (v.locks (r.theoryHash env)).isSome then v
  else
    match v.cached env r with
    | some result => v.setStage i r (.answered (some result))
    | none =>
      { v.setStage i r .locked with locks := Function.update v.locks (r.theoryHash env) (some i) }

def start (i : ℕ) (r : VerifyRequest) : BuildVerifier :=
  if v.permits = 0 then v
  else if r.nameError.isSome || (env.build (r.files env)).isNone then
    v.leave env i r (r.runBuild env)
  else { v.setStage i r .building with permits := v.permits - 1 }

def finish (i : ℕ) (r : VerifyRequest) : BuildVerifier :=
  { v.leave env i r (r.runBuild env) with permits := v.permits + 1 }

def cancel (i : ℕ) (c : VerifyCall) : BuildVerifier :=
  match c.stage with
  | .waiting => v.setStage i c.request .cancelled
  | .locked => (v.setStage i c.request .cancelled).unlock (c.request.theoryHash env)
  | .building =>
    { (v.setStage i c.request .cancelled).unlock (c.request.theoryHash env) with
      permits := v.permits + 1 }
  | .answered _ | .cancelled => v

def step (e : VerifyEvent) : BuildVerifier :=
  match e with
  | .verify r => v.verify env r
  | .lock i =>
    match v.calls[i]? with
    | some ⟨r, .waiting⟩ => v.lock env i r
    | _ => v
  | .start i =>
    match v.calls[i]? with
    | some ⟨r, .locked⟩ => v.start env i r
    | _ => v
  | .finish i =>
    match v.calls[i]? with
    | some ⟨r, .building⟩ => v.finish env i r
    | _ => v
  | .cancel i => (v.calls[i]?.map (v.cancel env i)).getD v

end BuildVerifier

end IsabelleGym
