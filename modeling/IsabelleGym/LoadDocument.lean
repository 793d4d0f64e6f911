import IsabelleGym.BigStep
import IsabelleGym.SessionManager

/-!
# Loading a whole document

`load_document` resets the backend, enters the theory and sends the text. The
reset forgets every theory, but with the cache on it is handed the Isabelle
session that it has just released, with the nodes as they were. Such a node keeps
its text behind everything the load inserts.
-/

namespace IsabelleGym

open TheoryParsing

structure BackendConfig where
  cache : CacheConfig
  initialThys : List Text
  field : Text
  sessionDirs : List Text

namespace BackendConfig

variable (cfg : BackendConfig)

def sessionOptions : SessionOptions := ⟨cfg.initialThys, cfg.field, cfg.sessionDirs⟩

def key : CacheKey := SessionManager.getCacheKey cfg.initialThys

/-- The cache keeps the session of the backend, so that a reset is handed it again. -/
def Caches : Prop :=
  cfg.cache.enableCache = true ∧ cfg.sessionDirs = [] ∧ 1 ≤ cfg.cache.maxCacheSize

instance : Decidable cfg.Caches := inferInstanceAs (Decidable (_ ∧ _ ∧ _))

end BackendConfig

/-- A backend with the session manager of its own. The documents are those of the Isabelle
sessions it has left; the nodes of its present session are in `repl`. -/
structure ReplBackend where
  manager : SessionManager
  session : HeadlessId
  documents : HeadlessId → Text → Node
  repl : ReplSession

/-- A session without entered theories on an Isabelle session with these nodes. -/
def ReplSession.freshOn (initialThys : List Text) (nodes : Text → Node) : ReplSession :=
  { initialThys, nodes }

namespace ReplBackend

variable (I : Isabelle) (channelId : String) (cfg : BackendConfig) (now : ℕ) (b : ReplBackend)

def newReplSession (manager : SessionManager) (documents : HeadlessId → Text → Node) :
    ReplBackend :=
  let r := manager.getNewSession cfg.cache now cfg.sessionOptions
  { manager := r.2
    session := r.1
    documents
    repl := ReplSession.freshOn cfg.initialThys (documents r.1) }

def create : ReplBackend := newReplSession cfg now {} fun _ _ => {}

def reset : ReplBackend :=
  let left := Function.update b.documents b.session b.repl.nodes
  if cfg.cache.enableCache then
    newReplSession cfg now (b.manager.releaseSession cfg.cache b.session) left
  else newReplSession cfg now (b.manager.removeSessionAsync b.session) left

def run (b : ReplBackend) (call : ℕ × BackendFn) : ReplBackend :=
  match call.2 with
  | .reset => b.reset cfg call.1
  | fn => { b with repl := b.repl.runBackend I channelId fn }

/-- The backend behind its calls so far, each with its time. -/
def history (created : ℕ) (calls : List (ℕ × BackendFn)) : ReplBackend :=
  calls.foldl (run I channelId cfg) (create cfg created)

end ReplBackend

structure LoadArgs where
  text : Text
  thyName : Option Text
  imports : List Text
  report : Bool

structure LoadRun where
  now : ℕ
  headerTheories : Text → UseResult
  headerResults : ℕ → List Message
  chunk : ChunkRun

/-- The last non-blank line is the `end` of the theory. -/
def endsWithTheoryEnd (text : Text) : Bool :=
  (((PythonStr.splitlines (PythonStr.strip text)).map PythonStr.strip).filter
    (!·.isEmpty)).getLast? = some "end".toList

section Header

variable (isWord : Char → Bool)

def quoteImport (i : Text) : Text :=
  match i with
  | c :: rest =>
    if c.isAlpha && rest.all (fun d => isWord d || d = Char.ofNat 39) then i
    else quote :: (i ++ [quote])
  | [] => [quote, quote]

def buildTheoryHeader (name : Text) (imports : List Text) : Text :=
  let given := imports.filter (!·.isEmpty)
  let names := if given.isEmpty then ["Main".toList] else given
  "theory ".toList ++ name ++ " imports ".toList ++
    [' '].intercalate (names.map (quoteImport isWord)) ++ " begin".toList

namespace LoadArgs

variable (args : LoadArgs)

/-- The name to enter, taken from the text when neither a name nor imports are given. -/
def name : Option Text :=
  (args.thyName.filter (!·.isEmpty)).or
    (if args.imports.isEmpty then (extractTheoryName args.text).filter (!·.isEmpty) else none)

def header (name : Text) : Option Text :=
  if args.imports.isEmpty then none else some (buildTheoryHeader isWord name args.imports)

/-- The theory that is loaded, as the backend names its node. -/
def theory (I : Isabelle) : Option Text := args.name.bind (extractThyName I)

/-- What the node of the theory is to hold: header and text, each with its newline. -/
def document : Text :=
  ((args.name.bind (args.header isWord)).map (· ++ ['\n'])).getD [] ++ (args.text ++ ['\n'])

/-- A blank text is sent with a report only. -/
def Blank : Prop := PythonStr.strip args.text = [] ∧ args.report = false

instance : Decidable args.Blank := inferInstanceAs (Decidable (_ ∧ _))

/-- The part of the document that the load does not send. -/
def unsent : Text := if args.Blank then args.text ++ ['\n'] else []

variable {args} {isWord}

theorem strip_header_ne_nil {name header : Text} (h : args.header isWord name = some header) :
    PythonStr.strip header ≠ [] := by
  unfold LoadArgs.header at h
  split_ifs at h
  obtain rfl := Option.some.inj h
  have hmem : 't' ∈ buildTheoryHeader isWord name args.imports := by
    have htheory : 't' ∈ "theory ".toList := by decide
    unfold buildTheoryHeader
    exact List.mem_append_left _ (List.mem_append_left _ (List.mem_append_left _
      (List.mem_append_left _ htheory)))
  intro hnil
  have hspace := PythonStr.strip_eq_nil_iff.mp hnil 't' hmem
  revert hspace
  decide

end LoadArgs

end Header

namespace ReplSession

variable (I : Isabelle) (channelId : String) (isWord : Char → Bool)

/-- `step`, and whether it returns without an exception. -/
def stepCommand (useTheories : Text → UseResult) (command : Text) (s : ReplSession) :
    Bool × ReplSession :=
  if PythonStr.strip command = [] then (true, s)
  else
    let r := s.sendEdit I useTheories command
    (r.raised.isNone, r.session)

/-- `enter_thy` of the server, which raises when the header it sends fails. -/
def enterWithHeader (name : Text) (header : Option Text) (run : LoadRun) (s : ReplSession) :
    Bool × ReplSession :=
  let entered := s.enterInputThy I name
  match header with
  | none => (true, entered)
  | some header =>
    let r := entered.stepCommand I run.headerTheories header
    (r.1 && SuccessChecker.isSyntaxSuccessful
      (entered.stepResult I run.headerTheories header run.headerResults), r.2)

def loadText (args : LoadArgs) (run : LoadRun) (s : ReplSession) : Bool × ReplSession :=
  if args.report then
    let r := s.stepChunkReport I channelId args.text run.chunk (!endsWithTheoryEnd args.text)
    (r.value.isSome, r.session)
  else s.stepCommand I run.chunk.useTheories args.text

def readyForText (args : LoadArgs) (run : LoadRun) (name : Text) (s : ReplSession) :
    Bool × ReplSession :=
  s.enterWithHeader I name (args.header isWord name) run

section TextBehind

variable {I : Isabelle} {channelId : String} {s : ReplSession} {name sent behind : Text}

/-- The current theory has inserted a text, and its node holds more behind it. -/
structure InFrontOf (name sent behind : Text) (s : ReplSession) : Prop where
  currentThy : s.currentThy = some name
  info : ∃ info, s.thys name = some info ∧ info.insertionPoint = sent.length
  text : (s.nodes name).text = sent ++ behind

theorem inFrontOf_enterThy (initialThys : List Text) (nodes : Text → Node) (name : Text) :
    InFrontOf name [] (nodes name).text
      ((freshOn initialThys nodes).enterThy name) where
  currentThy := rfl
  info := ⟨{ name }, by simp [thys_enterThy, freshOn], rfl⟩
  text := congrFun (document_enterThy (freshOn initialThys nodes) name) name

/-- An edit goes between the text sent before and what stands behind it. -/
theorem InFrontOf.sendEdit (h : s.InFrontOf name sent behind) (useTheories : Text → UseResult)
    {isarString : Text} (ha : Accepted I s isarString)
    (hraised : (s.sendEdit I useTheories isarString).raised = none) :
    (s.sendEdit I useTheories isarString).session.InFrontOf name (sent ++ (isarString ++ ['\n']))
      behind := by
  obtain ⟨info, hi, hpoint⟩ := h.info
  rcases sendEdit_cases (I := I) useTheories isarString h.currentThy hi with
    ⟨hnone, _⟩ | ⟨_, _, _, _, m, hm⟩ | ⟨_, _, frame, info', headers, _, hinfo, hs⟩
  · rw [accepted_iff h.currentThy hi, hnone] at ha
    cases ha
  · rw [hm] at hraised
    cases hraised
  · rw [hs]
    refine ⟨h.currentThy, ⟨info', by simp [setInfo, updateSessionWithEdits], ?_⟩, ?_⟩
    · have hrecorded : info'.insertionPoint =
          info.insertionPoint + (isarString ++ ['\n']).length := by
        rcases hinfo with rfl | rfl <;> rfl
      simp [hrecorded, hpoint]
    · have happly := EditScript.Edit.apply_insert_append sent (isarString ++ ['\n']) behind
      simp only [updateSessionWithEdits, setInfo, Function.update_self, text_applyEdits_insert,
        insertTextEdit, h.text, hpoint]
      rw [happly, List.append_assoc]

theorem InFrontOf.insertionPoint_le (h : s.InFrontOf name sent behind) {info : ThyInfo}
    (hi : s.thys name = some info) : info.insertionPoint ≤ (s.nodes name).text.length := by
  obtain ⟨info', hi', hpoint⟩ := h.info
  obtain rfl : info = info' := by simpa [hi] using hi'
  rw [h.text, hpoint, List.length_append]
  omega

/-- A probe that is answered in time is gone again, whatever stands behind it. -/
theorem InFrontOf.appendedProbe (h : s.InFrontOf name sent behind)
    (hb : s.currentThyBegun = true) (useTheories : Text → UseResult) (mlText : String)
    {replies : Replies} (hr : replies.first.isSome = true) :
    (s.appendedProbe I useTheories mlText replies).session = s := by
  obtain ⟨cur, info, hc, hi, hp⟩ := exists_of_currentThyBegun hb
  obtain rfl : name = cur := by simpa [h.currentThy] using hc
  have hraised : (s.sendEdit I useTheories (mlCommandText mlText)).raised = none := by
    rw [sendEdit_of_headerProcessed (mlCommandText mlText) hc hi hp]
  have hback := discardLastEdit_sendEdit_of_le I useTheories (mlCommandText mlText) hc hi hp
    (h.insertionPoint_le hi)
  simp [ReplSession.appendedProbe, withProbeSettle, sendMlCommand, hraised, hr, hback]

theorem InFrontOf.probeKept (h : s.InFrontOf name sent behind) {run : ChunkRun}
    (hrun : run.RepliesInTime) (report : ChunkReport) :
    (s.probeKept I channelId run report).session = s := by
  have hin : (s.inProof I run.useTheories channelId run.inProofReplies).session = s := by
    unfold inProof
    split_ifs with hb
    · rfl
    · rfl
    · exact h.appendedProbe (by simpa using hb) run.useTheories _ hrun.inProof
  have hsub : (s.openSubgoals I run.useTheories channelId run.subgoalReplies).session = s := by
    unfold openSubgoals
    split_ifs with hb
    · rfl
    · rfl
    · exact h.appendedProbe (by simpa using hb) run.useTheories _ hrun.subgoals
  unfold ReplSession.probeKept
  dsimp only
  split
  · exact hin
  · exact hin
  · rw [hin]
    exact hsub

theorem InFrontOf.stepChunkReport (h : s.InFrontOf name sent behind) {isarString : Text}
    {run : ChunkRun} (probeState : Bool) (ha : Accepted I s isarString)
    (hvalue : (s.stepChunkReport I channelId isarString run probeState).value.isSome = true)
    (htime : ((s.sendEdit I run.useTheories isarString).session.chunkStatusReport I
      run.evaluation).timedOut = false) (hrun : run.RepliesInTime) :
    (s.stepChunkReport I channelId isarString run probeState).session.InFrontOf name
      (sent ++ (isarString ++ ['\n'])) behind := by
  obtain ⟨info, hi, _⟩ := h.info
  have hentered : s.currentThyInfo.isNone = false := by
    simp [currentThyInfo, h.currentThy, hi]
  unfold ReplSession.stepChunkReport at hvalue ⊢
  rw [hentered, if_neg Bool.false_ne_true] at hvalue ⊢
  dsimp only at hvalue ⊢
  rw [htime] at hvalue ⊢
  by_cases hraised : (s.sendEdit I run.useTheories isarString).raised.isSome = true
  · rw [if_pos hraised] at hvalue
    cases hvalue
  · have hsent := h.sendEdit run.useTheories ha (by simpa using hraised)
    rw [if_neg hraised, if_neg Bool.false_ne_true]
    split_ifs
    · exact hsent
    · exact hsent
    · exact hsent
    · rw [hsent.probeKept hrun]
      exact hsent

end TextBehind

end ReplSession

namespace ReplBackend

open ReplSession

variable (I : Isabelle) (channelId : String) (isWord : Char → Bool) (cfg : BackendConfig)

/-- `load_document` with every call answered: whether it returns without an exception, and the
backend it leaves. -/
def loadDocument (args : LoadArgs) (run : LoadRun) (b : ReplBackend) : Bool × ReplBackend :=
  let b := b.reset cfg run.now
  match args.name with
  | none => (false, b)
  | some name =>
    let ready := b.repl.readyForText I isWord args run name
    let loaded := if ready.1 then ready.2.loadText I channelId args run else ready
    (loaded.1, { b with repl := loaded.2 })

def ready (args : LoadArgs) (run : LoadRun) (b : ReplBackend) : ReplSession :=
  ((b.reset cfg run.now).repl.readyForText I isWord args run (args.name.getD [])).2

/-- The load goes through: it ends without an exception, enters the theory and has its text
accepted, all on an Isabelle session that is not being stopped and with every reply in time. -/
structure Loads (args : LoadArgs) (run : LoadRun) (name : Text) (b : ReplBackend) : Prop where
  returned : (b.loadDocument I channelId isWord cfg args run).1 = true
  theory : args.theory I = some name
  running : (b.reset cfg run.now).session ∉ (b.reset cfg run.now).manager.removed
  accepted : ¬ args.Blank → Accepted I (b.ready I isWord cfg args run) args.text
  inTime : args.report = true → run.chunk.RepliesInTime ∧
    (((b.ready I isWord cfg args run).sendEdit I run.chunk.useTheories
      args.text).session.chunkStatusReport I run.chunk.evaluation).timedOut = false

def source (args : LoadArgs) (run : LoadRun) (name : Text) (b : ReplBackend) : Text :=
  ((b.loadDocument I channelId isWord cfg args run).2.repl.nodes name).text

/-- The text of a theory that the reset of a load does not remove. -/
def leftText (name : Text) (b : ReplBackend) : Text :=
  if cfg.Caches then (b.repl.nodes name).text else []

/-- The sessions the manager has not created yet hold nothing, and the cache, where it keeps
sessions at all, holds the present one. -/
structure Held (b : ReplBackend) : Prop where
  created : b.session < b.manager.created.length
  documents : ∀ id, b.manager.created.length ≤ id → b.documents id = fun _ => {}
  kept : cfg.Caches → b.manager.sessionCache = [(cfg.key, [b.session])]
  empty : ¬ cfg.Caches → cfg.cache.enableCache = true → cfg.sessionDirs = [] →
    b.manager.sessionCache = [] ∧ b.manager.lruOrder = []

variable {cfg} {b : ReplBackend} {now : ℕ}

/-- A new session of a manager whose cache is empty is filed, or evicted at once where the cache
has no room for it. -/
theorem held_newReplSession_of_empty (now : ℕ) {manager : SessionManager}
    {documents : HeadlessId → Text → Node}
    (hdoc : ∀ id, manager.created.length ≤ id → documents id = fun _ => {})
    (hempty : cfg.cache.enableCache = true → cfg.sessionDirs = [] →
      manager.sessionCache = [] ∧ manager.lruOrder = []) :
    (newReplSession cfg now manager documents).Held cfg ∧
      (newReplSession cfg now manager documents).repl.nodes = fun _ => {} := by
  have hmiss : cfg.cache.enableCache = true → cfg.sessionOptions.dirs = [] →
      manager.sessionCache.lookup (SessionManager.getCacheKey cfg.sessionOptions.initialThys) =
        none := by
    intro hon hdirs
    rw [(hempty hon hdirs).1]
    rfl
  obtain ⟨hid, hcreated⟩ := SessionManager.getNewSession_of_miss now hmiss
  constructor
  · constructor
    · simp [newReplSession, hid, hcreated]
    · intro id hge
      apply hdoc
      simp only [newReplSession, hcreated, List.length_append] at hge
      omega
    · rintro ⟨hon, hdirs, hroom⟩
      obtain ⟨hcache, hlru⟩ := hempty hon hdirs
      have hfiled := SessionManager.getNewSession_of_empty now cfg.sessionOptions
        hon hdirs hcache hlru
      simp only [newReplSession, hfiled.1, if_pos hroom, hid]
      rfl
    · intro hno hon hdirs
      obtain ⟨hcache, hlru⟩ := hempty hon hdirs
      have hfull : ¬ 1 ≤ cfg.cache.maxCacheSize := fun hroom => hno ⟨hon, hdirs, hroom⟩
      have hevicted := SessionManager.getNewSession_of_empty now cfg.sessionOptions
        hon hdirs hcache hlru
      simpa only [newReplSession, if_neg hfull] using hevicted
  · simp [newReplSession, ReplSession.freshOn, hid, hdoc]

theorem held_create (cfg : BackendConfig) (now : ℕ) : (create cfg now).Held cfg :=
  (held_newReplSession_of_empty now (fun _ _ => rfl) fun _ _ => ⟨rfl, rfl⟩).1

/-- The nodes a reset starts with are the old ones where the cache keeps the session, and empty
otherwise. -/
theorem Held.reset (h : b.Held cfg) (now : ℕ) :
    (b.reset cfg now).Held cfg ∧
      (b.reset cfg now).repl =
        ReplSession.freshOn cfg.initialThys (if cfg.Caches then b.repl.nodes else fun _ => {}) := by
  have hleft : ∀ id, b.manager.created.length ≤ id →
      Function.update b.documents b.session b.repl.nodes id = fun _ => {} := by
    intro id hge
    have hne : id ≠ b.session := by
      rintro rfl
      exact absurd h.created (not_lt.mpr hge)
    rw [Function.update_of_ne hne]
    exact h.documents id hge
  by_cases hcaches : cfg.Caches
  · obtain ⟨hon, hdirs, hroom⟩ := hcaches
    set released := b.manager.releaseSession cfg.cache b.session with hreleased
    have hcache : released.sessionCache = [(cfg.key, [b.session])] := by
      rw [hreleased, SessionManager.sessionCache_releaseSession]
      exact h.kept ⟨hon, hdirs, hroom⟩
    have hcreated : released.created = b.manager.created :=
      SessionManager.created_releaseSession _
    have hhit : released.sessionCache.lookup
        (SessionManager.getCacheKey cfg.sessionOptions.initialThys) = some [b.session] := by
      rw [hcache]
      simp [BackendConfig.key, BackendConfig.sessionOptions]
    obtain ⟨hid, hsame, hfiled⟩ := SessionManager.getNewSession_of_hit now hon hdirs hhit
    have hreset : b.reset cfg now = newReplSession cfg now released
        (Function.update b.documents b.session b.repl.nodes) := by
      rw [ReplBackend.reset, if_pos hon]
    rw [hreset]
    refine ⟨⟨?_, ?_, ?_, ?_⟩, ?_⟩
    · simp only [newReplSession, hid, hsame, hcreated]
      exact h.created
    · simp only [newReplSession, hsame, hcreated]
      exact hleft
    · intro _
      simp only [newReplSession, hid, hfiled]
      exact hcache
    · exact fun hno => absurd ⟨hon, hdirs, hroom⟩ hno
    · have hkeeps : cfg.Caches := ⟨hon, hdirs, hroom⟩
      simp [newReplSession, hid, hkeeps]
  · have hempty : cfg.cache.enableCache = true → cfg.sessionDirs = [] →
        b.manager.sessionCache = [] ∧ b.manager.lruOrder = [] := h.empty hcaches
    obtain ⟨manager, hreset, hcreated, hcache, hlru⟩ : ∃ manager : SessionManager,
        b.reset cfg now = newReplSession cfg now manager
          (Function.update b.documents b.session b.repl.nodes) ∧
        manager.created = b.manager.created ∧
        manager.sessionCache = b.manager.sessionCache ∧ manager.lruOrder = b.manager.lruOrder := by
      unfold ReplBackend.reset
      split_ifs
      · exact ⟨_, rfl, SessionManager.created_releaseSession _,
          SessionManager.sessionCache_releaseSession _, SessionManager.lruOrder_releaseSession _⟩
      · exact ⟨_, rfl, rfl, rfl, rfl⟩
    rw [← hcreated] at hleft
    rw [← hcache, ← hlru] at hempty
    obtain ⟨hheld, hnodes⟩ := held_newReplSession_of_empty now hleft hempty
    rw [hreset, if_neg hcaches]
    refine ⟨hheld, ?_⟩
    rw [← hnodes]
    rfl

theorem Held.run (h : b.Held cfg) (I : Isabelle) (channelId : String) (call : ℕ × BackendFn) :
    (b.run I channelId cfg call).Held cfg := by
  obtain ⟨now, fn⟩ := call
  cases fn with
  | reset => exact (h.reset now).1
  | _ => exact ⟨h.created, h.documents, h.kept, h.empty⟩

theorem held_history (I : Isabelle) (channelId : String) (cfg : BackendConfig) (created : ℕ)
    (calls : List (ℕ × BackendFn)) : (history I channelId cfg created calls).Held cfg := by
  have hfold : ∀ b : ReplBackend, b.Held cfg → (calls.foldl (run I channelId cfg) b).Held cfg := by
    induction calls with
    | nil => exact fun b hb => hb
    | cons call calls ih => exact fun b hb => ih _ (hb.run I channelId call)
  exact hfold _ (held_create cfg created)

variable {I : Isabelle} {channelId : String} {isWord : Char → Bool} {args : LoadArgs}
  {run : LoadRun} {name : Text}

/-- Behind the entering and the header, the node holds the header in front of the text left
from before. -/
theorem Loads.inFrontOf_ready (hl : b.Loads I channelId isWord cfg args run name)
    (h : b.Held cfg) :
    (b.ready I isWord cfg args run).InFrontOf name
      (((args.name.bind (args.header isWord)).map (· ++ ['\n'])).getD [])
      (b.leftText cfg name) := by
  obtain ⟨declared, hname, hextract⟩ := Option.bind_eq_some_iff.mp hl.theory
  have hrepl := (h.reset run.now).2
  have hreturned := hl.returned
  have hentered : ((b.reset cfg run.now).repl.enterInputThy I declared).InFrontOf name []
      (b.leftText cfg name) := by
    have hnodes := inFrontOf_enterThy cfg.initialThys
      (if cfg.Caches then b.repl.nodes else fun _ => {}) name
    have hleft : ((if cfg.Caches then b.repl.nodes else fun _ => {}) name).text =
        b.leftText cfg name := by
      unfold leftText
      split_ifs <;> rfl
    rw [hleft] at hnodes
    rw [hrepl, enterInputThy, hextract]
    exact hnodes
  simp only [loadDocument, hname] at hreturned
  simp only [ready, hname, Option.getD_some, Option.bind_some]
  unfold readyForText enterWithHeader at hreturned ⊢
  cases hheader : args.header isWord declared with
  | none => exact hentered
  | some header =>
    rw [hheader] at hreturned
    dsimp only at hreturned ⊢
    set entered := (b.reset cfg run.now).repl.enterInputThy I declared
    obtain ⟨info, hi, _⟩ := hentered.info
    have hblank : PythonStr.strip header ≠ [] := args.strip_header_ne_nil hheader
    have hok : ((entered.stepCommand I run.headerTheories header).1 &&
        SuccessChecker.isSyntaxSuccessful
          (entered.stepResult I run.headerTheories header run.headerResults)) = true := by
      by_contra hno
      rw [if_neg hno] at hreturned
      exact hno hreturned
    obtain ⟨hstep, hsuccess⟩ := Bool.and_eq_true_iff.mp hok
    have ha : Accepted I entered header := by
      by_contra ha
      rw [isSyntaxSuccessful_of_not_accepted run.headerTheories run.headerResults
        hentered.currentThy hi ha] at hsuccess
      cases hsuccess
    rw [stepCommand, if_neg hblank] at hstep ⊢
    exact hentered.sendEdit run.headerTheories ha (by simpa using hstep)

/-- A load puts header and text in front of the text left from before. -/
theorem Loads.source_eq (hl : b.Loads I channelId isWord cfg args run name) (h : b.Held cfg) :
    b.source I channelId isWord cfg args run name =
      ((args.name.bind (args.header isWord)).map (· ++ ['\n'])).getD [] ++
        ((if args.Blank then [] else args.text ++ ['\n']) ++ b.leftText cfg name) := by
  have hready := hl.inFrontOf_ready h
  obtain ⟨declared, hname, _⟩ := Option.bind_eq_some_iff.mp hl.theory
  have hreturned := hl.returned
  have haccepted := hl.accepted
  have htime := hl.inTime
  unfold source
  simp only [ready, hname, Option.getD_some] at hready haccepted htime
  simp only [loadDocument, hname] at hreturned ⊢
  generalize (b.reset cfg run.now).repl.readyForText I isWord args run declared = r
    at hready haccepted htime hreturned ⊢
  by_cases hr : r.1 = true
  · rw [if_pos hr] at hreturned ⊢
    unfold loadText at hreturned ⊢
    cases hreport : args.report with
    | true =>
      have hnot : ¬ args.Blank := by simp [LoadArgs.Blank, hreport]
      rw [hreport, if_pos rfl] at hreturned
      obtain ⟨hreplies, hin⟩ := htime hreport
      have hloaded := hready.stepChunkReport (!endsWithTheoryEnd args.text) (haccepted hnot)
        hreturned hin hreplies
      rw [if_pos rfl, if_neg hnot]
      simpa only [List.append_assoc] using hloaded.text
    | false =>
      rw [hreport, if_neg Bool.false_ne_true] at hreturned
      rw [if_neg Bool.false_ne_true]
      unfold stepCommand at hreturned ⊢
      by_cases hblank : PythonStr.strip args.text = []
      · rw [if_pos hblank, if_pos ⟨hblank, hreport⟩]
        exact hready.text
      · have hnot : ¬ args.Blank := fun hb => hblank hb.1
        rw [if_neg hblank] at hreturned ⊢
        have hloaded := hready.sendEdit run.chunk.useTheories (haccepted hnot)
          (by simpa using hreturned)
        rw [if_neg hnot]
        simpa only [List.append_assoc] using hloaded.text
  · rw [if_neg hr] at hreturned
    exact absurd hreturned hr

theorem Loads.source_eq_document_iff (hl : b.Loads I channelId isWord cfg args run name)
    (h : b.Held cfg) :
    b.source I channelId isWord cfg args run name = args.document isWord ↔
      b.leftText cfg name = args.unsent := by
  rw [hl.source_eq h, LoadArgs.document, List.append_cancel_left_eq, LoadArgs.unsent]
  by_cases hb : args.Blank
  · rw [if_pos hb, if_pos hb, List.nil_append]
  · rw [if_neg hb, if_neg hb]
    exact List.append_right_eq_self

end ReplBackend

structure PriorHistory where
  cfg : BackendConfig
  channelId : String
  created : ℕ
  calls : List (ℕ × BackendFn)

namespace PriorHistory

open ReplBackend

variable (I : Isabelle) (isWord : Char → Bool) (args : LoadArgs) (run : LoadRun) (name : Text)
  (h : PriorHistory)

def backend : ReplBackend := history I h.channelId h.cfg h.created h.calls

def Loads : Prop := (h.backend I).Loads I h.channelId isWord h.cfg args run name

def source : Text := (h.backend I).source I h.channelId isWord h.cfg args run name

def leftText : Text := (h.backend I).leftText h.cfg name

variable {I} {isWord} {args} {name}

/-- Two loads behind any histories leave the same source, the document and nothing else, exactly
when each history has left just the part of the document that a load does not send. -/
theorem loadDocument_historyIndependent_iff {h₁ h₂ : PriorHistory} {run₁ run₂ : LoadRun}
    (hl₁ : h₁.Loads I isWord args run₁ name) (hl₂ : h₂.Loads I isWord args run₂ name) :
    (h₁.source I isWord args run₁ name = h₂.source I isWord args run₂ name ∧
        h₁.source I isWord args run₁ name = args.document isWord) ↔
      h₁.leftText I name = args.unsent ∧ h₂.leftText I name = args.unsent := by
  have hdoc₁ := ReplBackend.Loads.source_eq_document_iff hl₁ (held_history I _ _ _ _)
  have hdoc₂ := ReplBackend.Loads.source_eq_document_iff hl₂ (held_history I _ _ _ _)
  constructor
  · rintro ⟨hsame, hdoc⟩
    exact ⟨hdoc₁.mp hdoc, hdoc₂.mp (hsame.symm.trans hdoc)⟩
  · rintro ⟨hleft₁, hleft₂⟩
    have hsource₁ := hdoc₁.mpr hleft₁
    exact ⟨hsource₁.trans (hdoc₂.mpr hleft₂).symm, hsource₁⟩

section Example

def quietLoad : LoadRun :=
  ⟨0, fun _ => .ok, fun _ => [], ReplSession.answeredRun ReplSession.finishedEvaluation⟩

/-- The text of a complete theory, to be loaded under the name in its header. -/
def loadedTheory : LoadArgs :=
  ⟨"theory A imports Main begin end".toList, none, [], false⟩

def cachedBackend : BackendConfig := ⟨⟨true, 1⟩, [], "HOL".toList, []⟩

def newSession : PriorHistory := ⟨cachedBackend, "c", 0, []⟩

/-- The calls of one load of the same text. -/
def loadedOnce : PriorHistory :=
  ⟨cachedBackend, "c", 0, [(1, .reset), (1, .enterThy "A".toList),
    (1, .step (fun _ => .ok) loadedTheory.text)]⟩

theorem loads_newSession :
    newSession.Loads OuterSyntax.isabelle IsabelleSession.asciiWord loadedTheory quietLoad
      "A".toList where
  returned := by decide +kernel
  theory := by decide +kernel
  running := by decide +kernel
  accepted _ := ⟨"A".toList, { name := "A".toList }, rfl, rfl, by decide +kernel⟩
  inTime h := by cases h

theorem loads_loadedOnce :
    loadedOnce.Loads OuterSyntax.isabelle IsabelleSession.asciiWord loadedTheory quietLoad
      "A".toList where
  returned := by decide +kernel
  theory := by decide +kernel
  running := by decide +kernel
  accepted _ := ⟨"A".toList, { name := "A".toList }, rfl, rfl, by decide +kernel⟩
  inTime h := by cases h

/-- With the cache on, a text loaded a second time stands in the theory twice. -/
theorem second_load_doubles_text :
    newSession.Loads OuterSyntax.isabelle IsabelleSession.asciiWord loadedTheory quietLoad
        "A".toList ∧
      loadedOnce.Loads OuterSyntax.isabelle IsabelleSession.asciiWord loadedTheory quietLoad
        "A".toList ∧
      newSession.source OuterSyntax.isabelle IsabelleSession.asciiWord loadedTheory quietLoad
          "A".toList = loadedTheory.document IsabelleSession.asciiWord ∧
      loadedOnce.source OuterSyntax.isabelle IsabelleSession.asciiWord loadedTheory quietLoad
          "A".toList = loadedTheory.document IsabelleSession.asciiWord ++
            loadedTheory.document IsabelleSession.asciiWord ∧
      newSession.source OuterSyntax.isabelle IsabelleSession.asciiWord loadedTheory quietLoad
          "A".toList ≠
        loadedOnce.source OuterSyntax.isabelle IsabelleSession.asciiWord loadedTheory quietLoad
          "A".toList := by
  refine ⟨loads_newSession, loads_loadedOnce, ?_, ?_, ?_⟩ <;> decide +kernel

theorem loadDocument_historyIndependent_iff_loadedOnce :
    (newSession.source OuterSyntax.isabelle IsabelleSession.asciiWord loadedTheory quietLoad
          "A".toList =
        loadedOnce.source OuterSyntax.isabelle IsabelleSession.asciiWord loadedTheory quietLoad
          "A".toList ∧
      newSession.source OuterSyntax.isabelle IsabelleSession.asciiWord loadedTheory quietLoad
          "A".toList = loadedTheory.document IsabelleSession.asciiWord) ↔
      newSession.leftText OuterSyntax.isabelle "A".toList = loadedTheory.unsent ∧
        loadedOnce.leftText OuterSyntax.isabelle "A".toList = loadedTheory.unsent :=
  loadDocument_historyIndependent_iff loads_newSession loads_loadedOnce

end Example

end PriorHistory
end IsabelleGym
