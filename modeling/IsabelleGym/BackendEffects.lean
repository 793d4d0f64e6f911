import IsabelleGym.Endpoints

/-!
# Entering and leaving a theory

Only `enter_thy` and `reset` change whether a theory is entered, and before one
is entered no backend function writes to a document. So a backend is as clean as
a new one exactly when no theory is entered.
-/

namespace IsabelleGym

def BackendFn.enters (I : Isabelle) : BackendFn → Bool
  | .enterThy inputThyName => (extractThyName I inputThyName).isSome
  | _ => false

def BackendFn.resets : BackendFn → Bool
  | .reset => true
  | _ => false

namespace ReplSession

structure Clean (s : ReplSession) : Prop where
  currentThy : s.currentThy = none
  text : ∀ name, (s.nodes name).text = []

/-- Without an entered theory there is neither bookkeeping nor text. -/
structure Tidy (s : ReplSession) : Prop where
  thys : s.currentThy = none → ∀ name, s.thys name = none
  text : s.currentThy = none → ∀ name, (s.nodes name).text = []

variable {I : Isabelle} {s : ReplSession}

theorem Tidy.clean_iff (h : s.Tidy) : s.Clean ↔ s.currentThy = none :=
  ⟨Clean.currentThy, fun hc => ⟨hc, h.text hc⟩⟩

theorem tidy_fresh (initialThys : List Text) : (fresh initialThys).Tidy :=
  ⟨fun _ _ => rfl, fun _ _ => rfl⟩

theorem currentThy_sendEdit (s : ReplSession) (useTheories : Text → UseResult)
    (isarString : Text) :
    (s.sendEdit I useTheories isarString).session.currentThy = s.currentThy := by
  unfold sendEdit
  split
  · dsimp only
    split
    · rfl
    · unfold sendRecorded
      split_ifs
      · dsimp only
        split <;> rfl
      · rfl
  · rfl

theorem currentThy_sendMlCommand (s : ReplSession) (useTheories : Text → UseResult)
    (mlText : String) (reply : Reply) :
    (sendMlCommand I useTheories mlText s reply).session.currentThy = s.currentThy :=
  currentThy_sendEdit s useTheories (mlCommandText mlText)

theorem currentThy_settledProbe (s : ReplSession) (useTheories : Text → UseResult)
    (mlText : String) (replies : Replies) :
    (s.withProbeSettle (sendMlCommand I useTheories mlText) replies).session.currentThy =
      s.currentThy := by
  unfold withProbeSettle
  dsimp only
  split_ifs
  · exact currentThy_sendMlCommand s useTheories mlText replies.first
  · rw [currentThy_sendMlCommand, currentThy_sendMlCommand]

theorem currentThy_appendedProbe (s : ReplSession) (useTheories : Text → UseResult)
    (mlText : String) (replies : Replies) :
    (s.appendedProbe I useTheories mlText replies).session.currentThy = s.currentThy := by
  unfold appendedProbe
  dsimp only
  split_ifs
  · rw [discardLastEdit_currentThy, currentThy_settledProbe]
  · exact currentThy_settledProbe s useTheories mlText replies

theorem currentThy_transientOutput (s : ReplSession) (useTheories : Text → UseResult)
    (isarString : Text) (results : ℕ → List Message) :
    (s.transientOutput I useTheories isarString results).session.currentThy = s.currentThy := by
  unfold transientOutput
  dsimp only
  split_ifs
  · exact currentThy_sendEdit s useTheories isarString
  · rw [discardLastEdit_currentThy, currentThy_sendEdit]

theorem currentThy_runProbe (s : ReplSession) (useTheories : Text → UseResult)
    (channelId : String) (replies : Replies) (results : ℕ → List Message) (p : Probe) :
    (runProbe I useTheories s channelId replies results p).currentThy = s.currentThy := by
  have happended := currentThy_appendedProbe (I := I) s useTheories
  cases p with
  | openSubgoals =>
    simp only [runProbe, openSubgoals]
    split_ifs <;> simp [happended]
  | inProof =>
    simp only [runProbe, inProof]
    split_ifs <;> simp [happended]
  | localFacts =>
    simp only [runProbe, localFacts]
    split_ifs <;> simp [happended, bracketedProbe_session]
  | globalFacts limit =>
    simp only [runProbe, globalFacts]
    split_ifs <;> simp [happended, bracketedProbe_session]
  | sledgehammer timeoutS =>
    simp only [runProbe, sledgehammer]
    split_ifs <;> simp [discardLastEdit_currentThy, currentThy_settledProbe]
  | probeTransient isarString =>
    simp only [runProbe, probeTransient]
    split_ifs <;> simp [withProbeBeforeEnd_session, currentThy_transientOutput]

theorem currentThy_probeKept (s : ReplSession) (channelId : String) (run : ChunkRun)
    (report : ChunkReport) :
    (s.probeKept I channelId run report).session.currentThy = s.currentThy := by
  have hin := currentThy_runProbe (I := I) s run.useTheories channelId run.inProofReplies
    (fun _ => []) .inProof
  have hsub := fun t : ReplSession => currentThy_runProbe (I := I) t run.useTheories channelId
    run.subgoalReplies (fun _ => []) .openSubgoals
  unfold probeKept
  dsimp only
  split
  · exact hin
  · exact hin
  · exact (hsub _).trans hin

theorem currentThy_verifyChunk (s : ReplSession) (channelId : String) (isarString : Text)
    (run : ChunkRun) :
    (s.verifyChunk I channelId isarString run).session.currentThy = s.currentThy := by
  unfold verifyChunk
  dsimp only
  split_ifs
  · rfl
  · exact currentThy_sendEdit s run.useTheories isarString
  · rw [discardLastEdit_currentThy, currentThy_sendEdit]
  · rw [currentThy_probeKept, currentThy_sendEdit]

theorem currentThy_stepChunkReport (s : ReplSession) (channelId : String) (isarString : Text)
    (run : ChunkRun) (probeState : Bool) :
    (s.stepChunkReport I channelId isarString run probeState).session.currentThy =
      s.currentThy := by
  unfold stepChunkReport
  dsimp only
  split_ifs
  · rfl
  · exact currentThy_sendEdit s run.useTheories isarString
  · rw [discardLastEdit_currentThy, currentThy_sendEdit]
  · exact currentThy_sendEdit s run.useTheories isarString
  · exact currentThy_sendEdit s run.useTheories isarString
  · exact currentThy_sendEdit s run.useTheories isarString
  · rw [currentThy_probeKept, currentThy_sendEdit]

theorem currentThy_enterThy (s : ReplSession) (thyName : Text) :
    (s.enterThy thyName).currentThy = some thyName := rfl

theorem currentThy_runBackend (s : ReplSession) (channelId : String) (fn : BackendFn) :
    (s.runBackend I channelId fn).currentThy.isSome =
      (!fn.resets && (fn.enters I || s.currentThy.isSome)) := by
  cases fn with
  | enterThy inputThyName =>
    simp only [runBackend, enterInputThy, BackendFn.resets, BackendFn.enters]
    cases extractThyName I inputThyName with
    | none => simp
    | some thyName => simp [currentThy_enterThy]
  | reset => rfl
  | step useTheories isarString =>
    simp [runBackend, currentThy_sendEdit, BackendFn.resets, BackendFn.enters]
  | rollback =>
    simp [runBackend, rollbackLastTextEdit_session, discardLastEdit_currentThy, BackendFn.resets,
      BackendFn.enters]
  | verifyChunk isarString run =>
    simp [runBackend, currentThy_verifyChunk, BackendFn.resets, BackendFn.enters]
  | stepChunkReport isarString run probeState =>
    simp [runBackend, currentThy_stepChunkReport, BackendFn.resets, BackendFn.enters]
  | saveState => simp [runBackend, saveState, BackendFn.resets, BackendFn.enters]
  | restoreState stateId =>
    simp only [runBackend, restoreState, BackendFn.resets, BackendFn.enters]
    split_ifs <;> simp
  | probe p useTheories replies results =>
    simp [runBackend, currentThy_runProbe, BackendFn.resets, BackendFn.enters]
  | query q => simp [runBackend, BackendFn.resets, BackendFn.enters]

/-- Before a theory is entered nothing but entering one changes bookkeeping or text. -/
theorem runBackend_of_not_entered (h : s.Tidy) (hc : s.currentThy = none) (channelId : String)
    (fn : BackendFn) (hfn : fn.enters I = false) :
    (∀ name, (s.runBackend I channelId fn).thys name = none) ∧
      ∀ name, ((s.runBackend I channelId fn).nodes name).text = [] := by
  have hci : s.currentThyInfo = none := by simp [currentThyInfo, hc]
  have hb : s.currentThyBegun = false := by simp [currentThyBegun, hci]
  have hsame : (∀ name, s.thys name = none) ∧ ∀ name, (s.nodes name).text = [] :=
    ⟨h.thys hc, h.text hc⟩
  cases fn with
  | enterThy inputThyName =>
    have hnone : extractThyName I inputThyName = none := by simpa [BackendFn.enters] using hfn
    simpa [runBackend, enterInputThy, hnone] using hsame
  | reset => exact ⟨fun _ => rfl, fun _ => rfl⟩
  | step useTheories isarString => simpa [runBackend, sendEdit, hc] using hsame
  | rollback => simpa [runBackend, rollbackLastTextEdit, hci] using hsame
  | verifyChunk isarString run => simpa [runBackend, verifyChunk, hb] using hsame
  | stepChunkReport isarString run probeState =>
    simpa [runBackend, stepChunkReport, hci] using hsame
  | saveState => exact ⟨fun name => by simp [runBackend, saveState, h.thys hc], h.text hc⟩
  | restoreState stateId =>
    simp only [runBackend, restoreState]
    split_ifs
    · exact hsame
    · simpa [h.thys hc] using h.text hc
  | probe p useTheories replies results =>
    cases p with
    | globalFacts limit =>
      by_cases hl : limit ≤ 0 <;> simpa [runBackend, runProbe, globalFacts, hl, hb] using hsame
    | openSubgoals | inProof | localFacts | sledgehammer timeoutS | probeTransient isarString =>
      simpa [runBackend, runProbe, openSubgoals, inProof, localFacts, sledgehammer, probeTransient,
        hb] using hsame
  | query q => exact hsame

theorem Tidy.runBackend (h : s.Tidy) (channelId : String) (fn : BackendFn) :
    (s.runBackend I channelId fn).Tidy := by
  have hthy := currentThy_runBackend (I := I) s channelId fn
  by_cases hreset : fn.resets = true
  · cases fn <;> cases hreset
    exact tidy_fresh s.initialThys
  · have hkept : (s.runBackend I channelId fn).currentThy = none →
        s.currentThy = none ∧ fn.enters I = false := by
      intro hnone
      rw [hnone] at hthy
      simpa [hreset, and_comm] using hthy
    constructor
    · intro hnone
      obtain ⟨hc, hfn⟩ := hkept hnone
      exact (runBackend_of_not_entered h hc channelId fn hfn).1
    · intro hnone
      obtain ⟨hc, hfn⟩ := hkept hnone
      exact (runBackend_of_not_entered h hc channelId fn hfn).2

end ReplSession
end IsabelleGym
