import IsabelleGym.PythonSession

/-!
# The checkpoint endpoints

The Python session keeps a table of the ids that its backend returned. A reset
starts the ids of the backend anew, so the table is cleared behind it, but only
when the answer of the reset arrives. While the table is in step with the saves
of the drained backend, `restore_checkpoint` returns `True` for the right document
whenever the restore itself brings that document back.
-/

namespace IsabelleGym

def BackendFn.keepsSaves : BackendFn → Bool
  | .reset | .saveState | .restoreState _ => false
  | _ => true

def Instr.keepsSaves : Instr BackendFn → Bool
  | .callBackend fn _ => fn.keepsSaves
  | .resetBookkeeping => false
  | .appendHistory _ => true

namespace ReplSession

variable {I : Isabelle} {s : ReplSession} {saves : List (EnvStateID × ReplSession)}

theorem Remembers.runBackend (h : s.Remembers saves) (channelId : String) {fn : BackendFn}
    (hkeeps : fn.keepsSaves = true) (hno : ¬ fn.Raises I s) :
    (s.runBackend I channelId fn).Remembers saves := by
  cases fn with
  | reset | saveState | restoreState => cases hkeeps
  | enterThy inputThyName =>
    exact h.of_sameSaves (.enterInputThy s inputThyName) (h.represented.enterInputThy inputThyName)
  | step | rollback | verifyChunk | stepChunkReport | probe | query =>
    have hsteps := h.represented.editSteps_runBackend channelId rfl hno
    exact h.of_sameSaves hsteps.sameSaves (hsteps.represented h.represented)

end ReplSession

namespace IsabelleSession

open ReplSession

/-- The calls made for the endpoints, each with how its waits end, and the progress that the
worker makes between them. -/
inductive ApiCall
  | saveCheckpoint (w : Wait)
  | restoreCheckpoint (checkpointId : ℤ) (w : Wait)
  | loadDocument (text : Text) (thyName header : Option Text) (useTheories : Text → UseResult)
      (report : Option (ChunkRun × Bool)) (waits : List Wait)
  | executeCommand (useTheories : Text → UseResult) (command : Text) (subgoals : Option Replies)
      (waits : List Wait)
  | verifyChunk (chunk : Text) (run : ChunkRun) (waits : List Wait)
  | enterThy (useTheories : Text → UseResult) (thyName : Text) (header : Option Text)
      (waits : List Wait)
  | workerRuns (n : ℕ)

variable (I : Isabelle) (channelId : String)

def apiCall (x : IsabelleSession) : ApiCall → IsabelleSession
  | .saveCheckpoint w => x.saveCheckpoint I channelId w
  | .restoreCheckpoint checkpointId w => (x.restoreCheckpoint I channelId checkpointId w).2
  | .loadDocument text thyName header useTheories report waits =>
    runBody I channelId (SessionMethod.loadDocument text thyName header useTheories report).body
      waits x
  | .executeCommand useTheories command subgoals waits =>
    runBody I channelId (SessionMethod.executeCommand useTheories command subgoals).body waits x
  | .verifyChunk chunk run waits =>
    runBody I channelId (SessionMethod.verifyChunk chunk run).body waits x
  | .enterThy useTheories thyName header waits =>
    runBody I channelId (SessionMethod.enterThy useTheories thyName header).body waits x
  | .workerRuns n => x.workerRuns I channelId n

/-- The id that `save_checkpoint` returns, with the backend session as it is then. -/
def returnedBy (x : IsabelleSession) : ApiCall → List (EnvStateID × ReplSession)
  | .saveCheckpoint w =>
    if (x.callBackend I channelId .saveState w).1 then
      [((x.drained I channelId).saveState.1, (x.saveCheckpoint I channelId w).drained I channelId)]
    else []
  | _ => []

/-- Where `restore_checkpoint` returns `True`, the drained backend has the document that existed
when `save_checkpoint` last returned the id. -/
def HonestTrue (x : IsabelleSession × List (EnvStateID × ReplSession)) : ApiCall → Prop
  | .restoreCheckpoint checkpointId w =>
    (x.1.restoreCheckpoint I channelId checkpointId w).1 = true →
      ∃ saved, x.2.lookup checkpointId.toNat = some saved ∧
        ((x.1.restoreCheckpoint I channelId checkpointId w).2.drained I channelId).document =
          saved.document
  | _ => True

/-- Where it returns `True`, no theory entered since that save has text. -/
def LaterTextsEmpty (x : IsabelleSession × List (EnvStateID × ReplSession)) : ApiCall → Prop
  | .restoreCheckpoint checkpointId w =>
    (x.1.restoreCheckpoint I channelId checkpointId w).1 = true →
      ∀ saved, x.2.lookup checkpointId.toNat = some saved →
        ∀ name, saved.thys name = none → (x.1.drained I channelId).document name = []
  | _ => True

/-- No edit that a method body sends has a header whose processing raises. -/
def BodyFits : List (Instr BackendFn) → List Wait → IsabelleSession → Prop
  | [], _, _ => True
  | .callBackend fn caught :: rest, waits, x =>
    let r := (x.noteEntered fn).callBackend I channelId fn (waits.headD .answered)
    ¬ fn.Raises I (x.drained I channelId) ∧ ((r.1 || caught) = true → BodyFits rest waits.tail r.2)
  | .resetBookkeeping :: rest, waits, x => BodyFits rest waits x.resetBookkeeping
  | .appendHistory _ :: rest, waits, x => BodyFits rest waits x

/-- No edit raises, and the reset of a load is answered unless the table is empty. -/
def StaysInStep (x : IsabelleSession) : ApiCall → Prop
  | .loadDocument text thyName header useTheories report waits =>
    (waits.headD .answered = .answered ∨ x.checkpoints = []) ∧
      BodyFits I channelId
        (SessionMethod.loadDocument text thyName header useTheories report).body waits x
  | .executeCommand useTheories command subgoals waits =>
    BodyFits I channelId (SessionMethod.executeCommand useTheories command subgoals).body waits x
  | .verifyChunk chunk run waits =>
    BodyFits I channelId (SessionMethod.verifyChunk chunk run).body waits x
  | .enterThy useTheories thyName header waits =>
    BodyFits I channelId (SessionMethod.enterThy useTheories thyName header).body waits x
  | _ => True

structure Synced (x : IsabelleSession) (returned saves : List (EnvStateID × ReplSession)) :
    Prop where
  remembers : (x.drained I channelId).Remembers saves
  checkpoints : ∀ id ∈ x.checkpoints, ∃ saved : ReplSession, (id, saved) ∈ saves ∧
    returned.lookup id = some saved.saveState.2

def InStep (x : IsabelleSession × List (EnvStateID × ReplSession)) : Prop :=
  ∃ saves, Synced I channelId x.1 x.2 saves

variable {I : Isabelle} {channelId : String} {x : IsabelleSession}
  {returned saves : List (EnvStateID × ReplSession)}

theorem Synced.callBackend (h : Synced I channelId x returned saves) {fn : BackendFn} (w : Wait)
    (hkeeps : fn.keepsSaves = true) (hno : ¬ fn.Raises I (x.drained I channelId)) :
    Synced I channelId ((x.noteEntered fn).callBackend I channelId fn w).2 returned saves where
  remembers := by
    rw [drained_callBackend, drained_noteEntered]
    exact h.remembers.runBackend channelId hkeeps hno
  checkpoints := by
    rw [checkpoints_callBackend, checkpoints_noteEntered]
    exact h.checkpoints

theorem Synced.runBody (h : Synced I channelId x returned saves) {body : List (Instr BackendFn)}
    {waits : List Wait} (hbody : ∀ i ∈ body, i.keepsSaves = true)
    (hfits : BodyFits I channelId body waits x) :
    Synced I channelId (runBody I channelId body waits x) returned saves := by
  induction body generalizing x waits with
  | nil => exact h
  | cons i rest ih =>
    have hrest : ∀ i ∈ rest, i.keepsSaves = true :=
      fun i hi => hbody i (List.mem_cons_of_mem _ hi)
    have hkeeps := hbody i List.mem_cons_self
    cases i with
    | callBackend fn caught =>
      obtain ⟨hno, hnext⟩ := hfits
      have hcall := h.callBackend (waits.headD .answered) hkeeps hno
      simp only [IsabelleSession.runBody]
      split_ifs with hgo
      · exact ih hcall hrest (hnext hgo)
      · exact hcall
    | resetBookkeeping => cases hkeeps
    | appendHistory command => exact ih h hrest hfits

theorem keepsSaves_step (useTheories : Text → UseResult) (command : Text) :
    ∀ i ∈ SessionMethod.step useTheories command, i.keepsSaves = true := by
  unfold SessionMethod.step
  split_ifs <;> simp [SessionMethod.call, Instr.keepsSaves, BackendFn.keepsSaves]

theorem keepsSaves_enterThyBody (useTheories : Text → UseResult) (thyName : Text)
    (header : Option Text) :
    ∀ i ∈ SessionMethod.enterThyBody useTheories thyName header, i.keepsSaves = true := by
  intro i hi
  rcases List.mem_cons.mp hi with rfl | hi
  · rfl
  · cases header with
    | none => cases hi
    | some header => exact keepsSaves_step useTheories header i hi

theorem keepsSaves_executeCommand (useTheories : Text → UseResult) (command : Text)
    (subgoals : Option Replies) :
    ∀ i ∈ (SessionMethod.executeCommand useTheories command subgoals).body,
      i.keepsSaves = true := by
  intro i hi
  rcases List.mem_append.mp hi with hi | hi
  · rcases List.mem_append.mp hi with hi | hi
    · exact keepsSaves_step useTheories command i hi
    · cases subgoals with
      | none => cases hi
      | some replies =>
        obtain rfl := List.mem_singleton.mp hi
        rfl
  · obtain rfl := List.mem_singleton.mp hi
    rfl

def loadRest (text : Text) (thyName header : Option Text) (useTheories : Text → UseResult)
    (report : Option (ChunkRun × Bool)) : List (Instr BackendFn) :=
  (thyName.map fun name => SessionMethod.enterThyBody useTheories name header ++
    (match report with
      | some (run, probeState) => [SessionMethod.call (.stepChunkReport text run probeState)]
      | none => SessionMethod.step useTheories text) ++ [.appendHistory text]).getD []

theorem keepsSaves_loadRest (text : Text) (thyName header : Option Text)
    (useTheories : Text → UseResult) (report : Option (ChunkRun × Bool)) :
    ∀ i ∈ loadRest text thyName header useTheories report, i.keepsSaves = true := by
  intro i hi
  cases thyName with
  | none => cases hi
  | some name =>
    rcases List.mem_append.mp hi with hi | hi
    · rcases List.mem_append.mp hi with hi | hi
      · exact keepsSaves_enterThyBody useTheories name header i hi
      · rcases report with _ | ⟨run, probeState⟩
        · exact keepsSaves_step useTheories text i hi
        · obtain rfl := List.mem_singleton.mp hi
          rfl
    · obtain rfl := List.mem_singleton.mp hi
      rfl

/-- Behind the reset of a load the backend has no saves, and the table is empty: it is cleared
with the answer, and it was empty before a wait that times out. -/
theorem synced_loadDocument (returned : List (EnvStateID × ReplSession)) (text : Text)
    (thyName header : Option Text) (useTheories : Text → UseResult)
    (report : Option (ChunkRun × Bool)) (waits : List Wait)
    (hfits : StaysInStep I channelId x
      (.loadDocument text thyName header useTheories report waits)) :
    Synced I channelId (IsabelleSession.runBody I channelId
      (SessionMethod.loadDocument text thyName header useTheories report).body waits x)
      returned [] := by
  obtain ⟨hwait, hno, hnext⟩ := hfits
  have hbody : (SessionMethod.loadDocument text thyName header useTheories report).body =
      .callBackend .reset false :: .resetBookkeeping ::
        loadRest text thyName header useTheories report := rfl
  rw [hbody, IsabelleSession.runBody]
  set r := (x.noteEntered .reset).callBackend I channelId .reset (waits.headD .answered) with hr
  have hremembers : (r.2.drained I channelId).Remembers [] := by
    rw [hr, drained_callBackend]
    exact remembers_fresh _
  by_cases hgo : r.1 = true
  · have hgo' : (r.1 || false) = true := by simpa using hgo
    rw [if_pos hgo']
    have hcleared : Synced I channelId r.2.resetBookkeeping returned [] :=
      ⟨hremembers, fun id hid => absurd hid List.not_mem_nil⟩
    exact hcleared.runBody (keepsSaves_loadRest text thyName header useTheories report)
      (hnext hgo')
  · have hgo' : ¬ (r.1 || false) = true := by simpa using hgo
    rw [if_neg hgo']
    have hempty : x.checkpoints = [] := by
      rcases hwait with hw | hempty
      · rw [hr, hw] at hgo
        exact absurd rfl hgo
      · exact hempty
    have hcheck : r.2.checkpoints = [] := by rw [hr, checkpoints_callBackend]; exact hempty
    exact ⟨hremembers, by simp [hcheck]⟩

theorem Synced.saveCheckpoint (h : Synced I channelId x returned saves) (w : Wait) :
    Synced I channelId (x.saveCheckpoint I channelId w)
      (returnedBy I channelId x (.saveCheckpoint w) ++ returned)
      (((x.drained I channelId).saveState.1, x.drained I channelId) :: saves) := by
  set s := x.drained I channelId with hs
  have hdrained : (x.saveCheckpoint I channelId w).drained I channelId = s.saveState.2 := by
    have hcall := drained_callBackend I channelId x .saveState w
    unfold IsabelleSession.saveCheckpoint
    dsimp only
    split_ifs <;> exact hcall
  refine ⟨?_, fun id hid => ?_⟩
  · rw [hdrained]
    exact h.remembers.saveState
  · by_cases hans : (x.callBackend I channelId .saveState w).1 = true
    · have hret : returnedBy I channelId x (.saveCheckpoint w) =
          [(s.saveState.1, s.saveState.2)] := by
        rw [returnedBy, if_pos hans, hdrained]
      by_cases hnew : id = s.saveState.1
      · exact ⟨s, by simp [hnew], by
          rw [hret, hnew, List.singleton_append, List.lookup_cons_self]⟩
      · have hold : id ∈ x.checkpoints := by
          simpa [IsabelleSession.saveCheckpoint, hans, hnew, ← hs] using hid
        obtain ⟨saved, hmem, hlookup⟩ := h.checkpoints id hold
        refine ⟨saved, List.mem_cons_of_mem _ hmem, ?_⟩
        have hne : (id == s.saveState.1) = false := by simpa using hnew
        rw [hret, List.singleton_append, List.lookup_cons, hne]
        exact hlookup
    · have hret : returnedBy I channelId x (.saveCheckpoint w) = [] := by
        rw [returnedBy, if_neg hans]
      have hold : id ∈ x.checkpoints := by
        simpa [IsabelleSession.saveCheckpoint, hans] using hid
      obtain ⟨saved, hmem, hlookup⟩ := h.checkpoints id hold
      exact ⟨saved, List.mem_cons_of_mem _ hmem, by rw [hret]; exact hlookup⟩

theorem Synced.restoreCheckpoint (h : Synced I channelId x returned saves) (checkpointId : ℤ)
    (w : Wait) :
    Synced I channelId (x.restoreCheckpoint I channelId checkpointId w).2 returned saves := by
  unfold IsabelleSession.restoreCheckpoint
  split_ifs
  · refine ⟨?_, ?_⟩
    · rw [drained_callBackend]
      exact h.remembers.of_sameSaves (.restoreState _ _) (h.remembers.represented.restoreState _)
    · rw [checkpoints_callBackend]
      exact h.checkpoints
  · exact h

theorem InStep.apiCall {x : IsabelleSession × List (EnvStateID × ReplSession)}
    (h : InStep I channelId x) {c : ApiCall} (hfits : StaysInStep I channelId x.1 c) :
    InStep I channelId
      (Runs.logged (IsabelleSession.apiCall I channelId) (returnedBy I channelId) x c) := by
  obtain ⟨x, returned⟩ := x
  obtain ⟨saves, hsync⟩ := h
  cases c with
  | saveCheckpoint w => exact ⟨_, hsync.saveCheckpoint w⟩
  | restoreCheckpoint checkpointId w => exact ⟨_, hsync.restoreCheckpoint checkpointId w⟩
  | loadDocument text thyName header useTheories report waits =>
    exact ⟨[], synced_loadDocument returned text thyName header useTheories report waits hfits⟩
  | executeCommand useTheories command subgoals waits =>
    exact ⟨_, hsync.runBody (keepsSaves_executeCommand useTheories command subgoals) hfits⟩
  | verifyChunk chunk run waits =>
    refine ⟨_, hsync.runBody (fun i hi => ?_) hfits⟩
    obtain rfl := List.mem_singleton.mp hi
    rfl
  | enterThy useTheories thyName header waits =>
    exact ⟨_, hsync.runBody (keepsSaves_enterThyBody useTheories thyName header) hfits⟩
  | workerRuns n =>
    have hremembers := hsync.remembers
    rw [← drained_workerRuns I channelId x n] at hremembers
    exact ⟨saves, hremembers, hsync.checkpoints⟩

theorem InStep.honestTrue_iff {x : IsabelleSession × List (EnvStateID × ReplSession)}
    (h : InStep I channelId x) (c : ApiCall) :
    HonestTrue I channelId x c ↔ LaterTextsEmpty I channelId x c := by
  obtain ⟨x, returned⟩ := x
  obtain ⟨saves, hsync⟩ := h
  cases c with
  | restoreCheckpoint checkpointId w =>
    apply imp_congr_right
    intro htrue
    by_cases hin : 0 ≤ checkpointId ∧ checkpointId.toNat ∈ x.checkpoints
    · obtain ⟨saved, hmem, hlookup⟩ := hsync.checkpoints _ hin.2
      have hdrained : (x.restoreCheckpoint I channelId checkpointId w).2.drained I channelId =
          ((x.drained I channelId).restoreState I checkpointId.toNat).2 := by
        rw [IsabelleSession.restoreCheckpoint, if_pos hin, drained_callBackend]
        rfl
      have hiff := hsync.remembers.document_eq_iff (I := I) hmem
      have hthys : ∀ name, saved.saveState.2.thys name = none ↔ saved.thys name = none := by
        simp [ReplSession.saveState]
      simp only [hlookup, hdrained, Option.some.injEq, exists_eq_left', forall_eq', hthys]
      exact hiff
    · rw [IsabelleSession.restoreCheckpoint, if_neg hin] at htrue
      cases htrue
  | _ => exact Iff.rfl

theorem inStep_new (initialThys : List Text) :
    InStep I channelId ({ backend := fresh initialThys }, []) :=
  ⟨[], remembers_fresh initialThys, fun _ hid => absurd hid List.not_mem_nil⟩

/-- Over every run of a Python session without raising edits and without a reset that times
out while checkpoints are kept, `True` is honest exactly when the theories entered since the
save have no text. -/
theorem honestTrue_run_iff (I : Isabelle) (channelId : String) (initialThys : List Text)
    (calls : List ApiCall) :
    Runs.EveryStep (Runs.logged (apiCall I channelId) (returnedBy I channelId))
        (fun x c => StaysInStep I channelId x.1 c ∧ HonestTrue I channelId x c)
        ({ backend := fresh initialThys }, []) calls ↔
      Runs.EveryStep (Runs.logged (apiCall I channelId) (returnedBy I channelId))
        (fun x c => StaysInStep I channelId x.1 c ∧ LaterTextsEmpty I channelId x c)
        ({ backend := fresh initialThys }, []) calls :=
  Runs.everyStep_iff_of_invariant
    (fun _ _ (h : InStep I channelId _) hq => h.apiCall hq.1)
    (fun _ c h => and_congr_right fun _ => h.honestTrue_iff c)
    (inStep_new initialThys)

/-- A reset that times out is run later, and the table keeps an id that the new session of the
backend does not know. Its refusal is not looked at. -/
theorem honestTrue_lost_refusal :
    ¬ Runs.EveryStep
      (Runs.logged (apiCall OuterSyntax.isabelle "c") (returnedBy OuterSyntax.isabelle "c"))
      (HonestTrue OuterSyntax.isabelle "c") ({ backend := fresh [] }, [])
      [.enterThy (fun _ => .ok) "A".toList none [],
        .executeCommand (fun _ => .ok) "text".toList none [],
        .saveCheckpoint .answered, .saveCheckpoint .answered,
        .loadDocument "text".toList (some "B".toList) none (fun _ => .ok) none [.timedOut 0],
        .restoreCheckpoint 1 .answered] := by
  rintro ⟨_, _, _, _, _, hhonest, _⟩
  obtain ⟨saved, hlookup, hdoc⟩ := hhonest (by decide +kernel)
  have hsaved : saved.document "A".toList = "text\n".toList := by
    obtain rfl := Option.some.inj hlookup
    decide +kernel
  have hA := congrFun hdoc "A".toList
  rw [hsaved] at hA
  revert hA
  decide +kernel

end IsabelleSession
end IsabelleGym
