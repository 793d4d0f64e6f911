import IsabelleGym.BackendEffects
import IsabelleGym.Checkpoints

/-!
# Backend functions as edits of the current theory

Apart from entering a theory, resetting, saving and restoring, a backend function
does nothing to the session but send edits and discard the last one, as often
as its probes, retries and reports need. What every such sequence keeps is proved
once: the saved states, the other theories and which theory is entered.
-/

namespace IsabelleGym
namespace ReplSession

variable {I : Isabelle} {s s' : ReplSession}

/-- Edits that do not raise and discardings, one after another. -/
inductive EditSteps (I : Isabelle) (s : ReplSession) : ReplSession → Prop
  | refl : EditSteps I s s
  | sendEdit {s' : ReplSession} (h : EditSteps I s s') (useTheories : Text → UseResult)
      (isarString : Text) (hno : ¬ EditRaises I useTheories isarString s') :
      EditSteps I s (s'.sendEdit I useTheories isarString).session
  | discardLastEdit {s' : ReplSession} (h : EditSteps I s s') : EditSteps I s s'.discardLastEdit

theorem sendEdit_of_not_entered (useTheories : Text → UseResult) (isarString : Text)
    (hc : s.currentThyInfo = none) :
    (s.sendEdit I useTheories isarString).session = s := by
  unfold ReplSession.sendEdit
  cases s.currentThy <;> simp [hc]

theorem frame_sendEdit (s : ReplSession) (useTheories : Text → UseResult) (isarString : Text)
    {name : Text} (hname : s.currentThy ≠ some name) :
    (s.sendEdit I useTheories isarString).session.thys name = s.thys name ∧
      (s.sendEdit I useTheories isarString).session.nodes name = s.nodes name := by
  rcases hc : s.currentThy with _ | cur
  · rw [sendEdit_of_not_entered useTheories isarString (by simp [currentThyInfo, hc])]
    exact ⟨rfl, rfl⟩
  · rcases hi : s.thys cur with _ | info
    · rw [sendEdit_of_not_entered useTheories isarString (by simp [currentThyInfo, hc, hi])]
      exact ⟨rfl, rfl⟩
    · have hne : name ≠ cur := fun heq => hname (by rw [hc, heq])
      rcases sendEdit_cases (I := I) useTheories isarString hc hi with
        ⟨_, hs, _⟩ | ⟨_, frame, _, hs, _⟩ | ⟨_, _, frame, info', headers, _, _, hs⟩ <;>
        simp [hs, setInfo, updateSessionWithEdits, Function.update_of_ne hne]

theorem frame_discardLastEdit (s : ReplSession) {name : Text}
    (hname : s.currentThy ≠ some name) :
    s.discardLastEdit.thys name = s.thys name ∧
      s.discardLastEdit.nodes name = s.nodes name := by
  unfold ReplSession.discardLastEdit
  split
  · rename_i cur info hc hi
    have hne : name ≠ cur := fun heq => hname (by rw [hc, heq])
    split <;> simp [setInfo, updateSessionWithEdits, Function.update_of_ne hne]
  · exact ⟨rfl, rfl⟩

namespace EditSteps

theorem trans {s'' : ReplSession} (h : EditSteps I s s') (h' : EditSteps I s' s'') :
    EditSteps I s s'' := by
  induction h' with
  | refl => exact h
  | sendEdit _ useTheories isarString hno ih => exact ih.sendEdit useTheories isarString hno
  | discardLastEdit _ ih => exact ih.discardLastEdit

theorem represented (h : EditSteps I s s') (hs : s.Represented) : s'.Represented := by
  induction h with
  | refl => exact hs
  | sendEdit _ useTheories isarString hno ih => exact ih.sendEdit useTheories isarString hno
  | discardLastEdit _ ih => exact ih.discardLastEdit.1

theorem sameSaves (h : EditSteps I s s') : SameSaves s s' := by
  induction h with
  | refl => exact .refl s
  | sendEdit _ useTheories isarString _ ih => exact ih.trans (.sendEdit _ useTheories isarString)
  | discardLastEdit _ ih => exact ih.trans (.discardLastEdit _)

theorem currentThy (h : EditSteps I s s') : s'.currentThy = s.currentThy := by
  induction h with
  | refl => rfl
  | sendEdit _ useTheories isarString _ ih => rw [currentThy_sendEdit, ih]
  | discardLastEdit _ ih => rw [discardLastEdit_currentThy, ih]

/-- The theories that are not entered are left alone. -/
theorem frame (h : EditSteps I s s') {name : Text} (hname : s.currentThy ≠ some name) :
    s'.thys name = s.thys name ∧ s'.nodes name = s.nodes name := by
  induction h with
  | refl => exact ⟨rfl, rfl⟩
  | sendEdit hsteps useTheories isarString _ ih =>
    rw [← hsteps.currentThy] at hname
    have hsent := frame_sendEdit (I := I) _ useTheories isarString hname
    exact ⟨hsent.1.trans ih.1, hsent.2.trans ih.2⟩
  | discardLastEdit hsteps ih =>
    rw [← hsteps.currentThy] at hname
    have hdisc := frame_discardLastEdit _ hname
    exact ⟨hdisc.1.trans ih.1, hdisc.2.trans ih.2⟩

end EditSteps

theorem Begun.editSteps_sendEdit (h : s.Begun) (useTheories : Text → UseResult)
    (isarString : Text) : EditSteps I s (s.sendEdit I useTheories isarString).session :=
  EditSteps.refl.sendEdit useTheories isarString
    (not_editRaises_of_raised (h.sendEdit I useTheories isarString).2.1)

theorem Begun.editSteps_settledProbe (h : s.Begun) (useTheories : Text → UseResult)
    (mlText : String) (replies : Replies) :
    EditSteps I s
      (s.withProbeSettle (sendMlCommand I useTheories mlText) replies).session := by
  have honce := h.editSteps_sendEdit (I := I) useTheories (mlCommandText mlText)
  have hbegun := (h.sendEdit I useTheories (mlCommandText mlText)).1
  rw [h.withProbeSettle]
  split_ifs
  · exact honce
  · exact honce.trans (hbegun.editSteps_sendEdit useTheories (mlCommandText mlText))

theorem Begun.editSteps_appendedProbe (h : s.Begun) (useTheories : Text → UseResult)
    (mlText : String) (replies : Replies) :
    EditSteps I s (s.appendedProbe I useTheories mlText replies).session := by
  have hsettled := h.editSteps_settledProbe (I := I) useTheories mlText replies
  unfold ReplSession.appendedProbe
  dsimp only
  split_ifs
  · exact hsettled.discardLastEdit
  · exact hsettled

theorem Represented.editSteps_runProbe (h : s.Represented) (useTheories : Text → UseResult)
    (channelId : String) (replies : Replies) (results : ℕ → List Message) (p : Probe) :
    EditSteps I s (runProbe I useTheories s channelId replies results p) := by
  by_cases hb : s.currentThyBegun = true
  · have hbegun : s.Begun := h.begun hb
    have happended := hbegun.editSteps_appendedProbe (I := I) useTheories
    cases p with
    | openSubgoals =>
      simp only [runProbe, openSubgoals]
      split_ifs
      · exact .refl
      · exact .refl
      · exact happended _ replies
    | inProof =>
      simp only [runProbe, inProof]
      split_ifs
      · exact .refl
      · exact .refl
      · exact happended _ replies
    | localFacts =>
      simp only [runProbe, localFacts]
      split_ifs
      · exact .refl
      · rw [bracketedProbe_session]
        exact .refl
      · exact happended _ replies
    | globalFacts limit =>
      simp only [runProbe, globalFacts]
      split_ifs
      · exact .refl
      · exact .refl
      · rw [bracketedProbe_session]
        exact .refl
      · exact happended _ replies
    | sledgehammer timeoutS =>
      simp only [runProbe, sledgehammer]
      split_ifs
      · exact .refl
      · exact .refl
      · exact (hbegun.editSteps_settledProbe useTheories _ replies).discardLastEdit
    | probeTransient isarString =>
      simp only [runProbe, probeTransient]
      split_ifs
      · exact .refl
      · rw [withProbeBeforeEnd_session]
        exact .refl
      · rw [hbegun.transientOutput_session]
        exact .refl
  · have hsame : runProbe I useTheories s channelId replies results p = s := by
      cases p <;> simp [runProbe, openSubgoals, inProof, localFacts, globalFacts, sledgehammer,
        probeTransient, hb]
      split_ifs <;> rfl
    rw [hsame]
    exact .refl

theorem Represented.editSteps_probeKept (h : s.Represented) (channelId : String)
    (run : ChunkRun) (report : ChunkReport) :
    EditSteps I s (s.probeKept I channelId run report).session := by
  have hin := h.editSteps_runProbe (I := I) run.useTheories channelId run.inProofReplies
    (fun _ => []) .inProof
  have hsub := (hin.represented h).editSteps_runProbe (I := I) run.useTheories channelId
    run.subgoalReplies (fun _ => []) .openSubgoals
  unfold ReplSession.probeKept
  dsimp only
  split
  · exact hin
  · exact hin
  · exact hin.trans hsub

theorem Represented.editSteps_verifyChunk (h : s.Represented) (channelId : String)
    (isarString : Text) (run : ChunkRun) :
    EditSteps I s (s.verifyChunk I channelId isarString run).session := by
  unfold ReplSession.verifyChunk
  dsimp only
  split_ifs with hb hr hf
  · exact .refl
  all_goals
    have hbegun : s.Begun := h.begun (by simpa using hb)
    have hsent := hbegun.editSteps_sendEdit (I := I) run.useTheories isarString
  · exact hsent
  · exact hsent.discardLastEdit
  · exact hsent.trans ((hsent.represented h).editSteps_probeKept channelId run _)

theorem Represented.editSteps_stepChunkReport (h : s.Represented) (channelId : String)
    (isarString : Text) (run : ChunkRun) (probeState : Bool)
    (hno : ¬ EditRaises I run.useTheories isarString s) :
    EditSteps I s (s.stepChunkReport I channelId isarString run probeState).session := by
  have hsent := EditSteps.refl.sendEdit run.useTheories isarString hno
  unfold ReplSession.stepChunkReport
  dsimp only
  split_ifs
  · exact .refl
  · exact hsent
  · exact hsent.discardLastEdit
  · exact hsent
  · exact hsent
  · exact hsent
  · exact hsent.trans ((hsent.represented h).editSteps_probeKept channelId run _)

end ReplSession

namespace BackendFn

/-- The function sends an edit whose header processing raises. -/
def Raises (I : Isabelle) (s : ReplSession) : BackendFn → Prop
  | .step useTheories isarString => ReplSession.EditRaises I useTheories isarString s
  | .stepChunkReport isarString run _ => ReplSession.EditRaises I run.useTheories isarString s
  | _ => False

def moves : BackendFn → Bool
  | .enterThy _ | .reset | .saveState | .restoreState _ => true
  | _ => false

end BackendFn

namespace ReplSession

variable {I : Isabelle} {s : ReplSession}

theorem Represented.enterInputThy (h : s.Represented) (inputThyName : Text) :
    (s.enterInputThy I inputThyName).Represented := by
  unfold ReplSession.enterInputThy
  cases extractThyName I inputThyName with
  | none => exact h
  | some thyName => exact h.enterThy thyName

theorem SameSaves.enterInputThy (s : ReplSession) (inputThyName : Text) :
    SameSaves s (s.enterInputThy I inputThyName) := by
  unfold ReplSession.enterInputThy
  cases extractThyName I inputThyName with
  | none => exact .refl s
  | some thyName => exact .enterThy s thyName

theorem Represented.editSteps_runBackend (h : s.Represented) (channelId : String)
    {fn : BackendFn} (hmoves : fn.moves = false) (hno : ¬ fn.Raises I s) :
    EditSteps I s (s.runBackend I channelId fn) := by
  cases fn with
  | enterThy | reset | saveState | restoreState => cases hmoves
  | step useTheories isarString => exact EditSteps.refl.sendEdit useTheories isarString hno
  | rollback =>
    rw [runBackend, rollbackLastTextEdit_session]
    exact EditSteps.refl.discardLastEdit
  | verifyChunk isarString run => exact h.editSteps_verifyChunk channelId isarString run
  | stepChunkReport isarString run probeState =>
    exact h.editSteps_stepChunkReport channelId isarString run probeState hno
  | probe p useTheories replies results =>
    exact h.editSteps_runProbe useTheories channelId replies results p
  | query => exact .refl

end ReplSession
end IsabelleGym
