import IsabelleGym.Dict
import IsabelleGym.FileGlob
import IsabelleGym.PythonStr
import IsabelleGym.ThyStatus
import Mathlib.Algebra.Group.Nat.Defs
import Mathlib.Data.List.Sort
import Mathlib.Logic.Function.Basic

/-!
# The heap pool

The registry of heaps with its manifests, the builds as coroutines that stop at
their awaits, and the `isabelle build` processes, which go on by themselves. The
project directories, the scratch ROOT files, the manifests and the heap images
are separate stores, under the paths that the pool computes for them.
-/

namespace IsabelleGym

def isHexDigit (c : Char) : Bool := c.isDigit || ('a' ≤ c && c ≤ 'f')

/-- `hexdigest` of SHA-256. -/
@[ext] structure Digest where
  hex : Text
  length_hex : hex.length = 64
  isHex : ∀ c ∈ hex, isHexDigit c = true
deriving DecidableEq

/-- `task_group` and `project` as the request has them. -/
abbrev HeapKey := Text × Text

inductive HeapStatus
  | building | ready | stale | failed
deriving DecidableEq

inductive HeapError
  | heapPoolError | heapNotFound | heapCrossGroup | heapBuildInProgress | heapNotReady
  | heapBuildFailed | osError | badPattern
deriving DecidableEq

structure TheoryFile where
  path : Text
  sha256 : Digest
  mtime : ℕ
deriving DecidableEq

structure HeapEntry where
  taskGroup : Text
  project : Text
  sessionName : Text
  rootDir : Text
  rootText : Text
  theoryFiles : List TheoryFile
  fingerprint : Digest
  status : HeapStatus
  buildLogTail : Text
  builtAt : Option ℕ
  builtBy : Option Text
deriving DecidableEq

structure SourceFile where
  name : FileName
  content : Text
  mtime : ℕ
  noSlash : '/' ∉ name

structure ProjectDir where
  root : Option Text
  files : List SourceFile
  readable : Bool := true

/-- The constants of `Heap`, where Isabelle has its heaps and whether `isabelle getenv` tells, and
which paths can be written. -/
structure HeapConfig where
  stateDir : Text
  maxConcurrentBuilds : ℕ
  gcImages : Bool
  homeUser : FilePath
  plainHome : ∀ c ∈ homeUser, PosixPath.IsPlain c
  answersGetenv : Bool
  platform : FileName
  workingDir : FilePath
  sha256 : Text → Digest
  accepts : FilePath → Bool

/-- A build request waits for the semaphore with the lock of its key, or has registered its entry
and starts the process, or waits for the process, or is over. -/
inductive BuildStage
  | queued
  | registered (entry : HeapEntry)
  | running (entry : HeapEntry) (process : ℕ)
  | ended

structure BuildCall where
  key : HeapKey
  sessionName : Option Text
  builtBy : Option Text
  stage : BuildStage

structure BuildProcess where
  key : HeapKey
  session : Text
  exit : Option Bool
deriving DecidableEq

/-- The pool with what it finds on disk. A heap image is kept with the process that wrote it, if a
build of the pool did. -/
structure HeapPool where
  entries : Dict HeapKey HeapEntry := []
  manifests : Dict FilePath HeapEntry := []
  roots : Dict FilePath Text := []
  projects : Text → Option ProjectDir := fun _ => none
  heaps : FileTree (Option ℕ) := []
  builds : List BuildCall := []
  processes : List BuildProcess := []

def textLE : Text → Text → Bool
  | [], _ => true
  | _ :: _, [] => false
  | a :: s, b :: t => if a = b then textLE s t else a.toNat < b.toNat

section SessionNames

def isNameStart (c : Char) : Bool := c.isAlpha

def isNameChar (c : Char) : Bool := c.isAlphanum || c = '_'

/-- `_SESSION_NAME_RE`, whose dollar also stands before a newline at the end. -/
def matchesSessionName (name : Text) : Bool :=
  let name := if name.getLast? = some '\n' then name.dropLast else name
  match name with
  | [] => false
  | c :: t => isNameStart c && t.all isNameChar

/-- The name behind `session`, where `_ROOT_SESSION_RE` matches at the start of a line. -/
def sessionOfLine (t : Text) : Option Text :=
  let t := PythonStr.lstrip t
  if "session".toList.isPrefixOf t then
    let rest := t.drop 7
    if (rest.head?).any PythonStr.isSpace then
      let rest := PythonStr.lstrip rest
      let rest := if rest.head? = some '"' then rest.drop 1 else rest
      if (rest.head?).any isNameStart then some (rest.takeWhile isNameChar) else none
    else none
  else none

def parseRootSession : Text → Option Text
  | t => (sessionOfLine t).or ((t.tails.filterMap fun s =>
      match s with
      | '\n' :: rest => sessionOfLine rest
      | _ => none).head?)

def defaultSessionName (project : PosixPath) : Text :=
  let base := project.name.map fun c => if isNameChar c then c else '_'
  if (base.head?).any Char.isAlpha then base else "Heap_".toList ++ base

end SessionNames

namespace HeapConfig

variable (cfg : HeapConfig)

def isabelleHomeUser : Option FilePath := if cfg.answersGetenv then some cfg.homeUser else none

def heapsDir : FilePath := cfg.homeUser ++ ["heaps".toList]

/-- Where `isabelle build -b` writes the image of a session. -/
def imagePath (session : Text) : FilePath := cfg.homeUser ++ ["heaps".toList, cfg.platform, session]

def projectHash (project : Text) : Text := (cfg.sha256 project).hex.take 16

def absolute (p : PosixPath) : FilePath :=
  PosixPath.resolve (if p.anchor = [] then cfg.workingDir ++ p.parts else p.parts)

def manifestPath (key : HeapKey) : PosixPath :=
  ((PosixPath.ofText cfg.stateDir).join (PosixPath.ofText key.1)).child
    (cfg.projectHash key.2 ++ ".json".toList)

def scratchRoot (taskGroup : Text) (project : PosixPath) : PosixPath :=
  (((PosixPath.ofText cfg.stateDir).child "_roots".toList).join (PosixPath.ofText taskGroup)).child
    (cfg.projectHash project.toText)

/-- The text that `_fingerprint` hashes. -/
def fingerprintText (rootText : Text) (files : List TheoryFile) : Text :=
  rootText ++ files.flatMap fun f => f.path ++ f.sha256.hex

def fingerprint (rootText : Text) (files : List TheoryFile) : Digest :=
  cfg.sha256 (fingerprintText rootText files)

end HeapConfig

namespace HeapPool

variable (cfg : HeapConfig) (s : HeapPool)

section Sources

def projectDir (project : PosixPath) : Option ProjectDir := s.projects project.toText

/-- `_theory_files`: a missing directory has none. -/
def theoryFiles (project : PosixPath) : List SourceFile :=
  (((s.projectDir project).elim [] ProjectDir.files).filter fun f =>
    FileGlob.fnmatch "*.thy".toList f.name).insertionSort fun f g => textLE f.name g.name = true

def scannedFile (project : PosixPath) (f : SourceFile) : TheoryFile :=
  ⟨(project.child f.name).toText, cfg.sha256 f.content, f.mtime⟩

def scanSources (project : PosixPath) : Except HeapError (List TheoryFile) :=
  if (s.projectDir project).all ProjectDir.readable then
    .ok ((s.theoryFiles project).map (scannedFile cfg project))
  else .error .osError

def rootAndSession (taskGroup : Text) (project : PosixPath) (sessionName : Option Text) :
    Except HeapError (PosixPath × Text × Text) :=
  let given := sessionName.filter (· ≠ [])
  match (s.projectDir project).bind ProjectDir.root with
  | some rootText =>
    match given.or (parseRootSession rootText) with
    | some name => .ok (project, name, rootText)
    | none => .error .heapPoolError
  | none =>
    let name := given.getD (defaultSessionName project)
    if matchesSessionName name then
      match s.theoryFiles project with
      | [] => .error .heapPoolError
      | files => .ok (cfg.scratchRoot taskGroup project, name,
          "session ".toList ++ name ++ " = HOL +\n  directories \"".toList ++ project.toText ++
            "\"\n  theories\n".toList ++ files.flatMap fun f =>
              "    ".toList ++ (PosixPath.mk [] [f.name]).stem ++ "\n".toList)
    else .error .heapPoolError

end Sources

section Build

/-- `lock.locked()` of the key: a build request for it is under way. -/
def locked (key : HeapKey) : Bool :=
  s.builds.any fun c => c.key = key && match c.stage with
    | .ended => false
    | _ => true

/-- The builds that have the semaphore. -/
def admitted : ℕ :=
  s.builds.countP fun c => match c.stage with
    | .registered _ | .running _ _ => true
    | .queued | .ended => false

def setBuild (i : ℕ) (c : BuildCall) (stage : BuildStage) : HeapPool :=
  { s with builds := s.builds.set i { c with stage } }

/-- `build` up to the semaphore, or its refusal. -/
def build (key : HeapKey) (sessionName builtBy : Option Text) : HeapPool :=
  if s.locked key then s
  else { s with builds := s.builds ++ [⟨key, sessionName, builtBy, .queued⟩] }

def persist (entry : HeapEntry) : HeapPool :=
  { s with
    manifests := Dict.put s.manifests
      (cfg.absolute (cfg.manifestPath (entry.taskGroup, entry.project))) entry }

/-- The scratch ROOT of a build, where the project has no ROOT of its own. -/
def writeRoot (project rootDir : PosixPath) (rootText : Text) : Except HeapError HeapPool :=
  if rootDir.toText = project.toText then .ok s
  else if cfg.accepts (cfg.absolute rootDir) then
    .ok { s with roots := Dict.put s.roots (cfg.absolute rootDir) rootText }
  else .error .osError

/-- The entry of a build that begins, with the pool behind its scratch ROOT. An error leaves the
pool as it comes to it. -/
def newEntry (key : HeapKey) (sessionName builtBy : Option Text) :
    HeapPool × Except HeapError HeapEntry :=
  let project := PosixPath.ofText key.2
  if (s.projectDir project).isNone then (s, .error .heapNotFound)
  else
    let sessionName := sessionName.or ((s.entries.lookup key).map HeapEntry.sessionName)
    match s.rootAndSession cfg key.1 project sessionName with
    | .error e => (s, .error e)
    | .ok (rootDir, name, rootText) =>
      match s.writeRoot cfg project rootDir rootText with
      | .error e => (s, .error e)
      | .ok s' =>
        match s'.scanSources cfg project with
        | .error e => (s', .error e)
        | .ok files => (s', .ok
          { taskGroup := key.1
            project := key.2
            sessionName := name
            rootDir := rootDir.toText
            rootText
            theoryFiles := files
            fingerprint := cfg.fingerprint rootText files
            status := .building
            buildLogTail := []
            builtAt := none
            builtBy })

/-- `_build_locked` up to the start of the process. Where the manifest cannot be written, the
entry stays behind. -/
def register (i : ℕ) (c : BuildCall) : HeapPool :=
  match c.stage with
  | .queued =>
    if s.admitted < cfg.maxConcurrentBuilds then
      match s.newEntry cfg c.key c.sessionName c.builtBy with
      | (s', .error _) => s'.setBuild i c .ended
      | (s', .ok entry) =>
        let s' := { s' with entries := Dict.put s'.entries c.key entry }
        if cfg.accepts (cfg.absolute (cfg.manifestPath c.key)) then
          (s'.persist cfg entry).setBuild i c (.registered entry)
        else s'.setBuild i c .ended
    else s
  | _ => s

/-- `create_subprocess_exec`. -/
def spawn (i : ℕ) (c : BuildCall) : HeapPool :=
  match c.stage with
  | .registered entry =>
    { s.setBuild i c (.running entry s.processes.length) with
      processes := s.processes ++ [⟨c.key, entry.sessionName, none⟩] }
  | _ => s

/-- The end of `_build_locked`: the build writes to its own entry, which is in the registry unless
it has been deleted there. -/
def record (i : ℕ) (c : BuildCall) (entry : HeapEntry) (ok : Bool) (log : Text) (time : ℕ) :
    HeapPool :=
  let entry := { entry with
    buildLogTail := log.drop (log.length - 4000)
    builtAt := if ok then some time else none
    status := if ok then .ready else .failed }
  let s := if (s.entries.lookup c.key).isSome then
    { s with entries := Dict.put s.entries c.key entry } else s
  (s.persist cfg entry).setBuild i c .ended

def spawnFails (i : ℕ) (c : BuildCall) (error : Text) : HeapPool :=
  match c.stage with
  | .registered entry =>
    s.record cfg i c entry false ("failed to run isabelle build: ".toList ++ error) 0
  | _ => s

def finish (i : ℕ) (c : BuildCall) (log : Text) (time : ℕ) : HeapPool :=
  match c.stage with
  | .running entry p =>
    match (s.processes[p]?).bind BuildProcess.exit with
    | some ok => s.record cfg i c entry ok log time
    | none => s
  | _ => s

/-- `wait_for` gives up, and leaves the process alone. -/
def timeOut (i : ℕ) (c : BuildCall) (message : Text) : HeapPool :=
  match c.stage with
  | .running entry _ => s.record cfg i c entry false message 0
  | _ => s

/-- The request is cancelled at an await, and no exception handler catches that. -/
def cancel (i : ℕ) (c : BuildCall) : HeapPool := s.setBuild i c .ended

/-- `isabelle build -b` ends; where it succeeds, it has written the image of its session. -/
def processEnds (p : ℕ) (ok : Bool) : HeapPool :=
  match s.processes[p]? with
  | none => s
  | some process =>
    if process.exit.isSome then s
    else
      let s := { s with processes := s.processes.set p { process with exit := some ok } }
      if ok then { s with heaps := s.heaps.write (cfg.imagePath process.session) (some p) } else s

end Build

section Resolve

def findBySession (taskGroup sessionName : Text) : Option HeapEntry :=
  match (s.entries.filter fun e => e.1.1 = taskGroup && e.2.sessionName = sessionName) with
  | [e] => some e.2
  | _ => none

def existsElsewhere (taskGroup : Text) (sessionName project : Option Text) : Bool :=
  s.entries.any fun e => e.1.1 ≠ taskGroup &&
    (project = some e.1.2 || sessionName = some e.2.sessionName)

/-- The sources still have the fingerprint of the entry. -/
def isFresh (entry : HeapEntry) : Bool :=
  match s.scanSources cfg (PosixPath.ofText entry.project) with
  | .ok files => cfg.fingerprint entry.rootText files = entry.fingerprint
  | .error _ => false

/-- `check_stale` of a ready entry that is not fresh. -/
def markStale (key : HeapKey) (entry : HeapEntry) : HeapPool :=
  let entry := { entry with status := .stale }
  ({ s with entries := Dict.put s.entries key entry }).persist cfg entry

def selectEntry (taskGroup : Text) (heapSession project : Option Text) : Option HeapEntry :=
  (project.bind fun p => s.entries.lookup (taskGroup, p)).or
    (heapSession.bind fun n => s.findBySession taskGroup n)

def resolveForSession (taskGroup : Text) (heapSession project : Option Text) :
    HeapPool × Except HeapError HeapEntry :=
  match s.selectEntry taskGroup heapSession project with
  | none =>
    (s, .error (if s.existsElsewhere taskGroup heapSession project then .heapCrossGroup
      else .heapNotFound))
  | some entry =>
    match entry.status with
    | .building | .failed | .stale => (s, .error .heapNotReady)
    | .ready =>
      if s.isFresh cfg entry then (s, .ok entry)
      else (s.markStale cfg (entry.taskGroup, entry.project) entry, .error .heapNotReady)

end Resolve

section Deletion

/-- What `delete` answers: whether it found the entry, or that its end was an exception. -/
inductive DeleteResult
  | missing | deleted | raised
deriving DecidableEq

/-- The images of `_gc_heap_image` and then the logs, each where `glob` selects it. -/
def removeImages (heaps : FileTree (Option ℕ)) (images : List FilePath) : FileTree (Option ℕ) :=
  images.foldl FileTree.remove heaps

/-- The logs up to one that is a directory, which no `unlink` removes. -/
def removeLogs (heaps : FileTree (Option ℕ)) (logs : List FilePath) : FileTree (Option ℕ) :=
  (logs.takeWhile heaps.isFile).foldl FileTree.unlink heaps

def gcHeapImage (sessionName : Text) : HeapPool × DeleteResult :=
  if !cfg.gcImages || s.entries.any fun e => e.2.sessionName = sessionName then (s, .deleted)
  else
    match cfg.isabelleHomeUser with
    | none => (s, .deleted)
    | some home =>
      let base := home ++ ["heaps".toList]
      match FileGlob.glob s.heaps base ("*/".toList ++ sessionName) with
      | none => (s, .raised)
      | some images =>
        let heaps := removeImages s.heaps images
        match FileGlob.glob heaps base ("*/log/".toList ++ sessionName ++ ".*".toList) with
        | none => ({ s with heaps }, .raised)
        | some logs =>
          ({ s with heaps := removeLogs heaps logs },
            if logs.all heaps.isFile then .deleted else .raised)

/-- The scratch ROOT of a deleted entry goes with its directory. -/
def dropRoot (key : HeapKey) (entry : HeapEntry) : HeapPool :=
  if PosixPath.ofText entry.rootDir = PosixPath.ofText key.2 then s
  else { s with roots := Dict.del s.roots (cfg.absolute (PosixPath.ofText entry.rootDir)) }

def delete (key : HeapKey) : HeapPool × DeleteResult :=
  match s.entries.lookup key with
  | none => (s, .missing)
  | some entry =>
    let s := { s with
      entries := Dict.del s.entries key
      manifests := Dict.del s.manifests (cfg.absolute (cfg.manifestPath key)) }
    (s.dropRoot cfg key entry).gcHeapImage cfg entry.sessionName

/-- An exception ends the loop of `delete_group`. -/
def deleteKeys : List HeapKey → HeapPool → HeapPool
  | [], s => s
  | key :: keys, s =>
    match s.delete cfg key with
    | (s', .raised) => s'
    | (s', _) => deleteKeys keys s'

def deleteGroup (taskGroup : Text) : HeapPool :=
  deleteKeys cfg ((s.entries.map Prod.fst).filter fun key => key.1 = taskGroup) s

end Deletion

section Reload

/-- A manifest as it is read at the start of the server. -/
def interrupted (entry : HeapEntry) : HeapEntry :=
  if entry.status = .building then
    { entry with
      status := .failed
      buildLogTail := PythonStr.strip (entry.buildLogTail ++
        "\n[heap_pool] build interrupted by server restart".toList) }
  else entry

/-- The paths below the state directory that `*/*.json` matches. -/
def isManifestPath (p : FilePath) : Bool :=
  let base := cfg.absolute (PosixPath.ofText cfg.stateDir)
  base.isPrefixOf p && p.length = base.length + 2 &&
    (p.getLast?).any fun name => FileGlob.fnmatch "*.json".toList name

def pathLE : FilePath → FilePath → Bool
  | [], _ => true
  | _ :: _, [] => false
  | a :: p, b :: q => if a = b then pathLE p q else textLE a b

def loadManifests : Dict HeapKey HeapEntry :=
  ((s.manifests.filter fun m => isManifestPath cfg m.1).insertionSort
    fun m n => pathLE m.1 n.1 = true).foldl
      (fun d m => Dict.put d (m.2.taskGroup, m.2.project) (interrupted m.2)) []

end Reload

end HeapPool

/-- What happens to the pool besides deletions: the requests, the processes and the disk. -/
inductive HeapEvent
  | build (key : HeapKey) (sessionName builtBy : Option Text)
  | register (i : ℕ)
  | spawn (i : ℕ)
  | spawnFails (i : ℕ) (error : Text)
  | processEnds (p : ℕ) (ok : Bool)
  | finish (i : ℕ) (log : Text) (time : ℕ)
  | timeOut (i : ℕ) (message : Text)
  | cancel (i : ℕ)
  | resolveForSession (taskGroup : Text) (heapSession project : Option Text)
  | changeProject (project : Text) (dir : Option ProjectDir)
  | changeRoot (dir : FilePath) (rootText : Option Text)

inductive RegistryEvent
  | pool (e : HeapEvent)
  | delete (key : HeapKey)
  | deleteGroup (taskGroup : Text)

namespace HeapPool

variable (cfg : HeapConfig) (s : HeapPool)

def withBuild (i : ℕ) (f : BuildCall → HeapPool) : HeapPool := ((s.builds[i]?).map f).getD s

def step : HeapEvent → HeapPool
  | .build key sessionName builtBy => s.build key sessionName builtBy
  | .register i => s.withBuild i (s.register cfg i)
  | .spawn i => s.withBuild i (s.spawn i)
  | .spawnFails i error => s.withBuild i fun c => s.spawnFails cfg i c error
  | .processEnds p ok => s.processEnds cfg p ok
  | .finish i log time => s.withBuild i fun c => s.finish cfg i c log time
  | .timeOut i message => s.withBuild i fun c => s.timeOut cfg i c message
  | .cancel i => s.withBuild i (s.cancel i)
  | .resolveForSession taskGroup heapSession project =>
    (s.resolveForSession cfg taskGroup heapSession project).1
  | .changeProject project dir => { s with projects := Function.update s.projects project dir }
  | .changeRoot dir rootText =>
    { s with roots := rootText.elim (Dict.del s.roots dir) (Dict.put s.roots dir) }

def registryStep : RegistryEvent → HeapPool
  | .pool e => s.step cfg e
  | .delete key => (s.delete cfg key).1
  | .deleteGroup taskGroup => s.deleteGroup cfg taskGroup

end HeapPool

namespace HeapPool

section Frames

variable (cfg : HeapConfig) (s : HeapPool)

variable {s} in
theorem withBuild_of {i : ℕ} {f : BuildCall → HeapPool} {P : HeapPool → Prop} (h : P s)
    (h' : ∀ c, s.builds[i]? = some c → P (f c)) : P (s.withBuild i f) := by
  unfold withBuild
  cases hc : s.builds[i]? with
  | none => exact h
  | some c => exact h' c hc

theorem newEntry_frame (key : HeapKey) (sessionName builtBy : Option Text) :
    ∃ roots, (s.newEntry cfg key sessionName builtBy).1 = { s with roots } := by
  unfold newEntry
  dsimp only
  split
  · exact ⟨s.roots, rfl⟩
  · split
    · exact ⟨s.roots, rfl⟩
    · split
      · exact ⟨s.roots, rfl⟩
      case h_2 s' hwrite =>
        have hroots : ∃ roots, s' = { s with roots } := by
          unfold writeRoot at hwrite
          split_ifs at hwrite
          · cases hwrite
            exact ⟨s.roots, rfl⟩
          · cases hwrite
            exact ⟨_, rfl⟩
        split <;> exact hroots

/-- The entry of a build that begins is made of what the pool finds then. -/
theorem newEntry_ok {key : HeapKey} {sessionName builtBy : Option Text} {s' : HeapPool}
    {entry : HeapEntry} (h : s.newEntry cfg key sessionName builtBy = (s', .ok entry)) :
    ∃ rootDir name rootText files,
      s.rootAndSession cfg key.1 (PosixPath.ofText key.2)
        (sessionName.or ((s.entries.lookup key).map HeapEntry.sessionName)) =
          .ok (rootDir, name, rootText) ∧
      s.writeRoot cfg (PosixPath.ofText key.2) rootDir rootText = .ok s' ∧
      s'.scanSources cfg (PosixPath.ofText key.2) = .ok files ∧
      entry =
        { taskGroup := key.1
          project := key.2
          sessionName := name
          rootDir := rootDir.toText
          rootText
          theoryFiles := files
          fingerprint := cfg.fingerprint rootText files
          status := .building
          buildLogTail := []
          builtAt := none
          builtBy } := by
  unfold newEntry at h
  dsimp only at h
  split at h
  · cases h
  · split at h
    · cases h
    case h_2 rootDir name rootText hroot =>
      split at h
      · cases h
      case h_2 hwrite =>
        split at h
        · cases h
        case h_2 files hscan =>
          cases h
          exact ⟨rootDir, name, rootText, files, hroot, hwrite, hscan, rfl⟩

/-- The entry is the one of the project, or the only one of that session in its group where the
group has none of the project. -/
theorem mem_of_selectEntry {taskGroup : Text} {heapSession project : Option Text}
    {entry : HeapEntry} (h : s.selectEntry taskGroup heapSession project = some entry) :
    ∃ key, (key, entry) ∈ s.entries ∧ key.1 = taskGroup ∧
      (project = some key.2 ∨ heapSession = some entry.sessionName ∧
        ∀ p ∈ project, s.entries.lookup (taskGroup, p) = none) := by
  rw [selectEntry, Option.or_eq_some_iff] at h
  rcases h with hproject | ⟨hnone, hsession⟩
  · obtain ⟨p, rfl, hlookup⟩ := Option.bind_eq_some_iff.mp hproject
    exact ⟨(taskGroup, p), Dict.mem_of_lookup hlookup, rfl, .inl rfl⟩
  · obtain ⟨n, rfl, hfind⟩ := Option.bind_eq_some_iff.mp hsession
    unfold findBySession at hfind
    split at hfind
    case h_1 e heq =>
      cases hfind
      have hin : e ∈ s.entries.filter fun e => e.1.1 = taskGroup && e.2.sessionName = n := by
        rw [heq]
        exact List.mem_singleton_self e
      obtain ⟨hin, hmatch⟩ := List.mem_filter.mp hin
      simp only [Bool.and_eq_true, decide_eq_true_eq] at hmatch
      refine ⟨e.1, hin, hmatch.1, .inr ⟨by rw [hmatch.2], fun p hp => ?_⟩⟩
      rw [hp, Option.bind_some] at hnone
      exact hnone
    case h_2 => cases hfind

theorem resolveForSession_eq_ok {taskGroup : Text} {heapSession project : Option Text}
    {entry : HeapEntry} :
    (s.resolveForSession cfg taskGroup heapSession project).2 = .ok entry ↔
      s.selectEntry taskGroup heapSession project = some entry ∧ entry.status = .ready ∧
        s.isFresh cfg entry = true := by
  unfold resolveForSession
  cases s.selectEntry taskGroup heapSession project with
  | none => simp
  | some found =>
    dsimp only
    split
    case h_4 hready =>
      split_ifs with hfresh
      · simp only [Except.ok.injEq, Option.some.injEq]
        constructor
        · rintro rfl
          exact ⟨rfl, hready, hfresh⟩
        · exact fun h => h.1
      · simp only [Option.some.injEq, false_iff]
        rintro ⟨rfl, -, hcontra⟩
        exact hfresh hcontra
    all_goals
      rename_i hstatus
      simp only [reduceCtorEq, Option.some.injEq, false_iff]
      rintro ⟨rfl, hcontra, -⟩
      rw [hstatus] at hcontra
      cases hcontra

theorem gcHeapImage_frame (sessionName : Text) :
    ∃ heaps, (s.gcHeapImage cfg sessionName).1 = { s with heaps } := by
  unfold gcHeapImage
  split
  · exact ⟨s.heaps, rfl⟩
  · dsimp only
    (repeat' split) <;> exact ⟨_, rfl⟩

theorem dropRoot_frame (key : HeapKey) (entry : HeapEntry) :
    ∃ roots, s.dropRoot cfg key entry = { s with roots } := by
  unfold dropRoot
  split <;> exact ⟨_, rfl⟩

/-- `delete` finds no entry, or drops the entry with its manifest. -/
theorem delete_cases (key : HeapKey) :
    (s.delete cfg key).1 = s ∨
      ∃ entry, s.entries.lookup key = some entry ∧ ∃ roots heaps, (s.delete cfg key).1 =
        { s with
          entries := Dict.del s.entries key
          manifests := Dict.del s.manifests (cfg.absolute (cfg.manifestPath key))
          roots
          heaps } := by
  unfold delete
  cases hlookup : s.entries.lookup key with
  | none => exact .inl rfl
  | some entry =>
    refine .inr ⟨entry, rfl, ?_⟩
    dsimp only
    generalize hs' : HeapPool.mk _ _ _ _ _ _ _ = s'
    obtain ⟨roots, hroot⟩ := dropRoot_frame cfg s' key entry
    obtain ⟨heaps, himage⟩ := gcHeapImage_frame cfg (s'.dropRoot cfg key entry) entry.sessionName
    exact ⟨roots, heaps, by rw [himage, hroot, ← hs']⟩

/-- What every deletion of the keys keeps holds behind all of them. -/
theorem deleteKeys_of {P : HeapPool → Prop} (keys : List HeapKey) {s : HeapPool} (h : P s)
    (hdelete : ∀ s', ∀ key ∈ keys, P s' → P (s'.delete cfg key).1) :
    P (deleteKeys cfg keys s) := by
  induction keys generalizing s with
  | nil => exact h
  | cons key keys ih =>
    have hfirst := hdelete s key List.mem_cons_self h
    unfold deleteKeys
    split
    case h_1 s' heq =>
      rw [heq] at hfirst
      exact hfirst
    case h_2 s' _ _ heq =>
      rw [heq] at hfirst
      exact ih hfirst fun s' key hkey => hdelete s' key (List.mem_cons_of_mem _ hkey)

end Frames

end HeapPool

section Sample

theorem isHexDigit_digitChar (n : ℕ) : isHexDigit (Nat.digitChar (n % 16)) = true := by
  have hall : ∀ d : Fin 16, isHexDigit (Nat.digitChar d) = true := by decide
  exact hall ⟨n % 16, Nat.mod_lt n (by omega)⟩

/-- A digest for the examples: the characters as the digits of a number, in hexadecimal. -/
def sampleDigest (t : Text) : Digest where
  hex := (List.range 64).map fun i =>
    Nat.digitChar (t.foldl (fun n c => (257 * n + c.toNat + 1) % 16 ^ 64) 0 / 16 ^ i % 16)
  length_hex := by simp
  isHex := by
    intro c hc
    obtain ⟨i, -, rfl⟩ := List.mem_map.mp hc
    exact isHexDigit_digitChar _

def HeapConfig.sample : HeapConfig where
  stateDir := "/s".toList
  maxConcurrentBuilds := 2
  gcImages := true
  homeUser := ["u".toList]
  plainHome := by decide
  answersGetenv := true
  platform := "x".toList
  workingDir := []
  sha256 := sampleDigest
  accepts := fun _ => true

theorem noSlash_sample : '/' ∉ "a.thy".toList := by decide

/-- Nothing has been built, and each of the projects has one theory and no ROOT. -/
def HeapPool.sample (projects : List Text) : HeapPool where
  projects := fun t =>
    if projects.contains t then
      some { root := none, files := [⟨"a.thy".toList, "A".toList, 0, noSlash_sample⟩] }
    else none

end Sample

end IsabelleGym
