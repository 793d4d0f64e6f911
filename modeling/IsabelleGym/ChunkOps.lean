import IsabelleGym.Probes

/-!
# Verifying a chunk

A chunk is inserted, reported on and kept exactly when the report is a success;
otherwise the edit is discarded. A kept chunk is probed for an open proof. The
server computes the success flag of its response from the command list again.
-/

namespace IsabelleGym

/-- The report sent to the server, without the elapsed time. -/
structure BackendReport where
  timedOut : Bool := false
  success : Bool := false
  usedSorry : Bool := false
  commands : List ReportedCommand := []
  proofOpen : Bool := false
  pendingQed : Bool := false
  error : Option String := none
deriving DecidableEq

def failedChunkReport (error : String) : BackendReport := { error := some error }

def ChunkReport.toBackendReport (report : ChunkReport) (proofOpen pendingQed : Bool) :
    BackendReport where
  timedOut := report.timedOut
  success := report.success
  usedSorry := report.usedSorry
  commands := report.commands
  proofOpen := proofOpen
  pendingQed := pendingQed

structure ChunkVerifyResponse where
  success : Bool
  proofOpen : Bool
  pendingQed : Bool
  usedSorry : Bool
  timedOut : Bool
  stuckLine : Option ℕ
  commands : List ReportedCommand
  error : Option String
deriving DecidableEq

/-- The response built in the router, with its own computation of the success flag. -/
def chunkVerifyResponse (report : BackendReport) : ChunkVerifyResponse where
  success := !report.timedOut && decide (0 < report.commands.length) &&
    report.commands.all (·.status = .ok)
  proofOpen := report.proofOpen
  pendingQed := report.pendingQed
  usedSorry := report.usedSorry
  timedOut := report.timedOut
  stuckLine := (report.commands.find? (·.status = .running)).map ReportedCommand.line
  commands := report.commands
  error := report.error

structure ChunkRun where
  useTheories : Text → UseResult
  evaluation : Evaluation
  inProofReplies : Replies
  subgoalReplies : Replies

structure ChunkRun.RepliesInTime (run : ChunkRun) : Prop where
  inProof : run.inProofReplies.first.isSome = true
  subgoals : run.subgoalReplies.first.isSome = true

namespace ReplSession

variable (I : Isabelle) (s : ReplSession)

def probeKept (channelId : String) (run : ChunkRun) (report : ChunkReport) :
    Outcome BackendReport :=
  let p := s.inProof I run.useTheories channelId run.inProofReplies
  match p.value with
  | none => ⟨p.session, none⟩
  | some false => ⟨p.session, some (report.toBackendReport false false)⟩
  | some true =>
    let q := p.session.openSubgoals I run.useTheories channelId run.subgoalReplies
    ⟨q.session, q.value.map fun goals => report.toBackendReport true goals.isEmpty⟩

def verifyChunk (channelId : String) (isarString : Text) (run : ChunkRun) :
    Outcome BackendReport :=
  if !s.currentThyBegun then ⟨s, some (failedChunkReport "theory not begun")⟩
  else
    let r := s.sendEdit I run.useTheories isarString
    if r.raised.isSome then ⟨r.session, none⟩
    else
      let report := r.session.chunkStatusReport I run.evaluation
      if !report.success then
        ⟨r.session.discardLastEdit, some (report.toBackendReport false false)⟩
      else r.session.probeKept I channelId run report

variable {I} {s}

/-- The session holds the text as one new edit of the current theory: the document grows by
the text and a newline, the chain by one step, and nothing else changes. -/
structure Kept (s : ReplSession) (isarString : Text) (s' : ReplSession) : Prop where
  text : ∀ name, s.currentThy = some name →
    (s'.nodes name).text = (s.nodes name).text ++ (isarString ++ ['\n'])
  oneStep : ∀ name info, s.currentThy = some name → s.thys name = some info →
    ∃ info', s'.thys name = some info' ∧
      info'.currentStatus.parent = some info.currentStatus ∧ info'.savedStates = info.savedStates
  undo : s'.discardLastEdit = s

theorem Begun.kept_sendEdit (h : s.Begun) (I : Isabelle) (useTheories : Text → UseResult)
    (isarString : Text) : Kept s isarString (s.sendEdit I useTheories isarString).session where
  text := (h.sendEdit I useTheories isarString).2.2.2.2
  oneStep name info hc hi := by
    obtain ⟨n, i, hc', hi', hp⟩ := exists_of_currentThyBegun h.begun
    obtain rfl : name = n := by simpa [hc] using hc'
    obtain rfl : info = i := by simpa [hi] using hi'
    rw [sendEdit_of_headerProcessed isarString hc hi hp]
    exact ⟨_, Function.update_self .., rfl, rfl⟩
  undo := (h.sendEdit I useTheories isarString).2.2.1

theorem Begun.not_kept_self (h : s.Begun) (isarString : Text) : ¬ Kept s isarString s := by
  intro hk
  obtain ⟨name, _, hc, _⟩ := exists_of_currentThyBegun h.begun
  have htext := hk.text name hc
  simp at htext

theorem chunkVerifyResponse_success (node : Node) (sinceLine : ℕ) (ev : Evaluation)
    (proofOpen pendingQed : Bool) :
    (chunkVerifyResponse ((nodeStatusReport I node sinceLine ev).toBackendReport proofOpen
      pendingQed)).success = (nodeStatusReport I node sinceLine ev).success := by
  rw [Bool.eq_iff_iff]
  simp [chunkVerifyResponse, ChunkReport.toBackendReport, nodeStatusReport, List.length_pos_iff]

theorem chunkStatusReport_success_eq (s : ReplSession) (ev : Evaluation)
    (proofOpen pendingQed : Bool) :
    (chunkVerifyResponse ((s.chunkStatusReport I ev).toBackendReport proofOpen
      pendingQed)).success = (s.chunkStatusReport I ev).success := by
  unfold chunkStatusReport
  split
  · exact chunkVerifyResponse_success _ _ _ _ _
  · rfl

/-- What keeps a report from being a success: a time-out, no command, or a command not ok. -/
theorem chunkStatusReport_failure_iff {s : ReplSession} {ev : Evaluation} :
    (s.chunkStatusReport I ev).success = false ↔
      (s.chunkStatusReport I ev).timedOut = true ∨ (s.chunkStatusReport I ev).commands = [] ∨
        ∃ c ∈ (s.chunkStatusReport I ev).commands, c.status ≠ .ok := by
  unfold chunkStatusReport
  split
  · rw [← Bool.not_eq_true, nodeStatusReport_success_iff]
    simp only [not_and_or, Bool.not_eq_false, not_not, not_forall, exists_prop, ne_eq]
  · simp [emptyChunkFields]

theorem Begun.probeKept (h : s.Begun) (channelId : String) {run : ChunkRun}
    (hrun : run.RepliesInTime) (report : ChunkReport) :
    (s.probeKept I channelId run report).session = s ∧
      ∃ proofOpen pendingQed, (s.probeKept I channelId run report).value =
        some (report.toBackendReport proofOpen pendingQed) := by
  have hin : (s.inProof I run.useTheories channelId run.inProofReplies).session = s ∧
      (s.inProof I run.useTheories channelId run.inProofReplies).value.isSome = true := by
    unfold inProof
    split_ifs
    · exact ⟨rfl, rfl⟩
    · exact ⟨rfl, rfl⟩
    · simp [h.appendedProbe I run.useTheories _ hrun.inProof, hrun.inProof]
  have hsub : (s.openSubgoals I run.useTheories channelId run.subgoalReplies).session = s ∧
      (s.openSubgoals I run.useTheories channelId run.subgoalReplies).value.isSome = true := by
    unfold openSubgoals
    split_ifs
    · exact ⟨rfl, rfl⟩
    · exact ⟨rfl, rfl⟩
    · simp [h.appendedProbe I run.useTheories _ hrun.subgoals, hrun.subgoals]
  obtain ⟨b, hb⟩ := Option.isSome_iff_exists.mp hin.2
  obtain ⟨goals, hgoals⟩ := Option.isSome_iff_exists.mp hsub.2
  cases b with
  | false => exact ⟨by simp [ReplSession.probeKept, hb, hin.1], false, false,
      by simp [ReplSession.probeKept, hb]⟩
  | true => exact ⟨by simp [ReplSession.probeKept, hb, hin.1, hsub.1], true, goals.isEmpty,
      by simp [ReplSession.probeKept, hb, hin.1, hgoals]⟩

/-- The two ends of a call on a begun theory with replies in time: the edit
kept as it was sent, or discarded. -/
theorem Begun.verifyChunk_cases (h : s.Begun) (I : Isabelle) (channelId : String)
    (isarString : Text) {run : ChunkRun} (hrun : run.RepliesInTime) :
    let sent := (s.sendEdit I run.useTheories isarString).session
    let report := sent.chunkStatusReport I run.evaluation
    ∃ proofOpen pendingQed,
      (s.verifyChunk I channelId isarString run).value =
        some (report.toBackendReport proofOpen pendingQed) ∧
      (s.verifyChunk I channelId isarString run).session =
        if report.success then sent else s := by
  intro sent report
  obtain ⟨hbegun, hraised, hdiscard, _⟩ := h.sendEdit I run.useTheories isarString
  by_cases hs : report.success = true
  · obtain ⟨hsession, proofOpen, pendingQed, hvalue⟩ :=
      hbegun.probeKept (I := I) channelId hrun report
    have hcall : s.verifyChunk I channelId isarString run =
        sent.probeKept I channelId run report := by
      have hs' : (sent.chunkStatusReport I run.evaluation).success = true := hs
      simp [ReplSession.verifyChunk, h.begun, hraised, sent, hs', report]
    refine ⟨proofOpen, pendingQed, ?_, ?_⟩
    · rw [hcall]
      exact hvalue
    · rw [hcall, if_pos hs]
      exact hsession
  · have hs' : (sent.chunkStatusReport I run.evaluation).success = false := by simpa using hs
    have hcall : s.verifyChunk I channelId isarString run =
        ⟨s, some (report.toBackendReport false false)⟩ := by
      simp [ReplSession.verifyChunk, h.begun, hraised, sent, hs', report, hdiscard]
    refine ⟨false, false, ?_, ?_⟩
    · rw [hcall]
    · rw [hcall, if_neg hs]

/-- Verifying a chunk is transactional. The answer carries the report on the session with the
chunk sent; that session is kept when the report is a success, and otherwise the session is the one
before the call. A success is a report in time of at least one command, all of them ok, and the
client's flag is the report's. -/
theorem verifyChunk_transactional (I : Isabelle) (channelId : String) (isarString : Text)
    (run : ChunkRun) (h : s.Begun) (hrun : run.RepliesInTime) :
    let sent := (s.sendEdit I run.useTheories isarString).session
    let report := sent.chunkStatusReport I run.evaluation
    let call := s.verifyChunk I channelId isarString run
    (∃ proofOpen pendingQed,
        call.value = some (report.toBackendReport proofOpen pendingQed) ∧
        (chunkVerifyResponse (report.toBackendReport proofOpen pendingQed)).success =
          report.success) ∧
      call.session = (if report.success then sent else s) ∧
      (report.success = true ↔ Kept s isarString call.session) ∧
      ((report.timedOut = true ∨ report.commands = [] ∨ ∃ c ∈ report.commands, c.status ≠ .ok) ↔
        call.session = s) := by
  intro sent report call
  obtain ⟨proofOpen, pendingQed, hvalue, hsession⟩ :=
    h.verifyChunk_cases I channelId isarString hrun
  have hkept : Kept s isarString sent := h.kept_sendEdit I run.useTheories isarString
  have hne : sent ≠ s := fun heq => h.not_kept_self isarString (heq ▸ hkept)
  have hsession : call.session = if report.success then sent else s := hsession
  refine ⟨⟨proofOpen, pendingQed, hvalue, chunkStatusReport_success_eq ..⟩, hsession, ?_, ?_⟩
  · rw [hsession]
    split_ifs with hs
    · exact iff_of_true hs hkept
    · exact iff_of_false hs (h.not_kept_self isarString)
  · rw [← chunkStatusReport_failure_iff, hsession]
    split_ifs with hs
    · exact iff_of_false (by simpa using hs) hne
    · exact iff_of_true (by simpa using hs) rfl

section Example

def finishedEvaluation : Evaluation where
  before := []
  last _ := some ⟨false, true, false⟩
  final _ := some ⟨false, true, false⟩
  results _ := []

def answeredRun (ev : Evaluation) : ChunkRun :=
  ⟨fun _ => .ok, ev, ⟨some ["0"], none⟩, ⟨some [], none⟩⟩

theorem answeredRun_inTime (ev : Evaluation) : (answeredRun ev).RepliesInTime := ⟨rfl, rfl⟩

/-- The chunk is kept: every command of it is ok at the first poll. -/
theorem verifyChunk_transactional_mainSession :
    let sent := (mainSession.sendEdit OuterSyntax.isabelle (fun _ => .ok)
      "lemma True by simp".toList).session
    let report := sent.chunkStatusReport OuterSyntax.isabelle finishedEvaluation
    let call := mainSession.verifyChunk OuterSyntax.isabelle "c" "lemma True by simp".toList
      (answeredRun finishedEvaluation)
    (∃ proofOpen pendingQed,
        call.value = some (report.toBackendReport proofOpen pendingQed) ∧
        (chunkVerifyResponse (report.toBackendReport proofOpen pendingQed)).success =
          report.success) ∧
      call.session = (if report.success then sent else mainSession) ∧
      (report.success = true ↔ Kept mainSession "lemma True by simp".toList call.session) ∧
      ((report.timedOut = true ∨ report.commands = [] ∨ ∃ c ∈ report.commands, c.status ≠ .ok) ↔
        call.session = mainSession) :=
  verifyChunk_transactional OuterSyntax.isabelle "c" "lemma True by simp".toList
    (answeredRun finishedEvaluation) mainSession_begun (answeredRun_inTime finishedEvaluation)

end Example

end ReplSession
end IsabelleGym
