import IsabelleGym.DocumentRuns

/-!
# Checkpoints over whole runs

Every theory keeps the statuses it had at the saves it was present at. Only a
save adds one, so at any later state of the session they agree with the sessions
that were saved, and a restore can be compared with the session of that save. A
theory entered after the save kept nothing and is left as it is.
-/

namespace IsabelleGym
namespace ReplSession

variable {I : Isabelle} {s s' : ReplSession}

def statusOf (s : ReplSession) (name : Text) : ThyStatus :=
  ((s.thys name).map ThyInfo.currentStatus).getD .initial

def savedStatesOf (s : ReplSession) (name : Text) : EnvStateID → Option ThyStatus :=
  ((s.thys name).map ThyInfo.savedStates).getD fun _ => none

/-- No save separates the two sessions. -/
structure SameSaves (s s' : ReplSession) : Prop where
  stateIdCount : s'.stateIdCount = s.stateIdCount
  savedStatesOf : ∀ name, s'.savedStatesOf name = s.savedStatesOf name

namespace SameSaves

theorem refl (s : ReplSession) : SameSaves s s := ⟨rfl, fun _ => rfl⟩

theorem trans {s'' : ReplSession} (h : SameSaves s s') (h' : SameSaves s' s'') :
    SameSaves s s'' where
  stateIdCount := h'.stateIdCount.trans h.stateIdCount
  savedStatesOf name := (h'.savedStatesOf name).trans (h.savedStatesOf name)

theorem setInfo {name : Text} {info : ThyInfo} (h : info.savedStates = s.savedStatesOf name) :
    SameSaves s (s.setInfo name info) where
  stateIdCount := rfl
  savedStatesOf n := by
    by_cases hn : n = name
    · subst hn
      simpa [ReplSession.savedStatesOf, ReplSession.setInfo] using h
    · simp [ReplSession.savedStatesOf, ReplSession.setInfo, Function.update_of_ne hn]

theorem updateSessionWithEdits (name : Text) (edits : List NodeEdit) :
    SameSaves s (s.updateSessionWithEdits name edits) := ⟨rfl, fun _ => rfl⟩

theorem setCurrentRequired (s : ReplSession) (required : Bool) :
    SameSaves s (s.setCurrentRequired required) := by
  unfold ReplSession.setCurrentRequired
  split
  · exact updateSessionWithEdits _ _
  · exact refl s

theorem enterThy (s : ReplSession) (thyName : Text) : SameSaves s (s.enterThy thyName) := by
  unfold ReplSession.enterThy
  set s₁ := if s.currentThyInfo.isSome then s.setCurrentRequired false else s with hs₁
  have h₁ : SameSaves s s₁ := by
    rw [hs₁]
    split_ifs
    · exact setCurrentRequired s false
    · exact refl s
  have h₂ : SameSaves s₁
      (if (s₁.thys thyName).isSome then s₁ else s₁.setInfo thyName { name := thyName }) := by
    split_ifs with hsome
    · exact refl s₁
    · have hnone : s₁.thys thyName = none := by simpa using hsome
      apply setInfo
      simp [ReplSession.savedStatesOf, hnone]
  exact (h₁.trans h₂).trans ⟨(setCurrentRequired _ true).stateIdCount, fun name =>
    (setCurrentRequired _ true).savedStatesOf name⟩

theorem sendEdit (s : ReplSession) (useTheories : Text → UseResult) (isarString : Text) :
    SameSaves s (s.sendEdit I useTheories isarString).session := by
  rcases hc : s.currentThy with _ | name
  · simpa [ReplSession.sendEdit, hc] using refl s
  · rcases hi : s.thys name with _ | info
    · simpa [ReplSession.sendEdit, currentThyInfo, hc, hi] using refl s
    · have hsaved : info.savedStates = s.savedStatesOf name := by
        simp [ReplSession.savedStatesOf, hi]
      rcases sendEdit_cases (I := I) useTheories isarString hc hi with
        ⟨_, hs, _⟩ | ⟨_, frame, _, hs, _⟩ | ⟨_, _, frame, info', headers, _, hinfo, hs⟩
      · rw [hs]
        exact refl s
      · rw [hs]
        exact setInfo hsaved
      · rw [hs]
        refine trans (setInfo ?_) (updateSessionWithEdits _ _)
        rcases hinfo with rfl | rfl <;> exact hsaved

theorem discardLastEdit (s : ReplSession) : SameSaves s s.discardLastEdit := by
  rcases hc : s.currentThy with _ | name
  · simpa [ReplSession.discardLastEdit, hc] using refl s
  · rcases hi : s.thys name with _ | info
    · simpa [ReplSession.discardLastEdit, currentThyInfo, hc, hi] using refl s
    · rcases he : info.lastTextEdit with _ | e
      · simpa [ReplSession.discardLastEdit, currentThyInfo, hc, hi, he] using refl s
      · rw [discardLastEdit_some hc hi he]
        have hset : SameSaves s (s.setInfo name info.rollbackLastTextEditIfExists) := by
          apply setInfo
          simp [ReplSession.savedStatesOf, hi, ThyInfo.rollbackLastTextEditIfExists]
        exact ⟨hset.stateIdCount, hset.savedStatesOf⟩

theorem savedStates_restoreThy (id : EnvStateID) (info : ThyInfo) (node : Node) :
    (restoreThy I id info node).1.savedStates = info.savedStates := by
  unfold restoreThy ThyInfo.restoreState
  cases info.savedStates id with
  | none => rfl
  | some statusToRestore =>
    cases hd : statusToRestore.differenceEdits I.diff info.currentStatus <;> simp [hd]

theorem restoreState (s : ReplSession) (id : EnvStateID) :
    SameSaves s (s.restoreState I id).2 := by
  unfold ReplSession.restoreState
  split_ifs
  · exact refl s
  · refine ⟨rfl, fun name => ?_⟩
    cases hi : s.thys name <;> simp [ReplSession.savedStatesOf, hi, savedStates_restoreThy]

end SameSaves

structure Remembers (s : ReplSession) (saves : List (EnvStateID × ReplSession)) : Prop where
  represented : s.Represented
  savedRepresented : ∀ id saved, (id, saved) ∈ saves → saved.Represented
  mem_iff : ∀ id, (∃ saved, (id, saved) ∈ saves) ↔ id < s.stateIdCount
  savedStates : ∀ id saved, (id, saved) ∈ saves → ∀ name,
    s.savedStatesOf name id = (saved.thys name).map ThyInfo.currentStatus

/-- Every theory has the text and the status it had in the saved session. -/
def BroughtBack (saved s : ReplSession) : Prop :=
  ∀ name, s.statusOf name = saved.statusOf name ∧ (s.nodes name).text = (saved.nodes name).text

/-- No theory entered after the save has a recorded edit. -/
def LaterTheoriesEmpty (saved s : ReplSession) : Prop :=
  ∀ name, saved.thys name = none → s.statusOf name = .initial

theorem remembers_fresh (initialThys : List Text) : (fresh initialThys).Remembers [] where
  represented := represented_fresh initialThys
  savedRepresented := by simp
  mem_iff := by simp [fresh]
  savedStates := by simp

theorem Remembers.of_sameSaves {saves : List (EnvStateID × ReplSession)} (h : s.Remembers saves)
    (hs : SameSaves s s') (hrep : s'.Represented) : s'.Remembers saves where
  represented := hrep
  savedRepresented := h.savedRepresented
  mem_iff := by
    rw [hs.stateIdCount]
    exact h.mem_iff
  savedStates id saved hmem name := by
    rw [hs.savedStatesOf]
    exact h.savedStates id saved hmem name

theorem savedStatesOf_saveState (name : Text) (id : EnvStateID) :
    s.saveState.2.savedStatesOf name id =
      if id = s.stateIdCount then (s.thys name).map ThyInfo.currentStatus
      else s.savedStatesOf name id := by
  cases hi : s.thys name <;> by_cases hid : id = s.stateIdCount <;>
    simp [savedStatesOf, saveState, ThyInfo.saveCurrentState, hi, hid]

theorem Remembers.saveState {saves : List (EnvStateID × ReplSession)} (h : s.Remembers saves) :
    s.saveState.2.Remembers ((s.stateIdCount, s) :: saves) where
  represented := h.represented.saveState
  savedRepresented id saved hmem := by
    rcases List.mem_cons.mp hmem with heq | hold
    · cases heq
      exact h.represented
    · exact h.savedRepresented id saved hold
  mem_iff id := by
    have hcount : s.saveState.2.stateIdCount = s.stateIdCount + 1 := rfl
    rw [hcount, Nat.lt_succ_iff_lt_or_eq, ← h.mem_iff id]
    constructor
    · rintro ⟨saved, hmem⟩
      rcases List.mem_cons.mp hmem with heq | hold
      · cases heq
        exact Or.inr rfl
      · exact Or.inl ⟨saved, hold⟩
    · rintro (⟨saved, hold⟩ | rfl)
      · exact ⟨saved, List.mem_cons_of_mem _ hold⟩
      · exact ⟨s, by simp⟩
  savedStates id saved hmem name := by
    rw [savedStatesOf_saveState]
    rcases List.mem_cons.mp hmem with heq | hold
    · cases heq
      simp
    · have hlt := (h.mem_iff id).mp ⟨saved, hold⟩
      rw [if_neg (Nat.ne_of_lt hlt)]
      exact h.savedStates id saved hold name

theorem statusOf_restoreState (hrep : s.Represented) {id : EnvStateID}
    (hv : s.validStateId id = true) (name : Text) :
    (s.restoreState I id).2.statusOf name = (s.savedStatesOf name id).getD (s.statusOf name) := by
  cases hi : s.thys name with
  | none => simp [restoreState, hv, statusOf, savedStatesOf, hi]
  | some info =>
    obtain ⟨info', edits, hr, _⟩ := (hrep.of_thys hi).1.restoreState I id
    cases hst : info.savedStates id with
    | none => simp [restoreState, hv, statusOf, savedStatesOf, hi, restoreThy,
        ThyInfo.restoreState, hst]
    | some st =>
      obtain ⟨edits', he⟩ : ∃ edits', st.differenceEdits I.diff info.currentStatus =
          some edits' := by
        rw [ThyInfo.restoreState, hst] at hr
        obtain ⟨edits', he, _⟩ := Option.map_eq_some_iff.mp hr
        exact ⟨edits', he⟩
      simp [restoreState, hv, statusOf, savedStatesOf, hi, restoreThy, ThyInfo.restoreState, hst,
        he]

theorem Represented.text_eq (h : s.Represented) (name : Text) :
    (s.nodes name).text = (s.statusOf name).text := by
  have ht := h.thys name
  cases hi : s.thys name with
  | none =>
    have hroot : s.statusOf name = .initial := by simp [statusOf, hi]
    rw [hi] at ht
    rw [hroot]
    exact ht
  | some info =>
    rw [hi] at ht
    simpa [statusOf, hi] using ht.2.2

theorem Remembers.statusOf_restored {saves : List (EnvStateID × ReplSession)}
    (h : s.Remembers saves) {id : EnvStateID} {saved : ReplSession} (hmem : (id, saved) ∈ saves)
    (name : Text) :
    (s.restoreState I id).2.statusOf name =
      ((saved.thys name).map ThyInfo.currentStatus).getD (s.statusOf name) := by
  have hlt := (h.mem_iff id).mp ⟨saved, hmem⟩
  have hv : s.validStateId id = true := decide_eq_true (Nat.le_of_lt hlt)
  rw [statusOf_restoreState h.represented hv, h.savedStates id saved hmem]

/-- The saved session is back exactly when the theories without a saved status are empty. -/
theorem broughtBack_iff_of_status {saved : ReplSession} (hrep : s'.Represented)
    (hsaved : saved.Represented)
    (hstatus : ∀ name, s'.statusOf name =
      ((saved.thys name).map ThyInfo.currentStatus).getD (s.statusOf name)) :
    BroughtBack saved s' ↔ LaterTheoriesEmpty saved s := by
  constructor
  · intro hback name hnone
    have heq := (hback name).1
    rw [hstatus, hnone] at heq
    simpa [statusOf, hnone] using heq
  · intro hempty name
    have heq : s'.statusOf name = saved.statusOf name := by
      rw [hstatus]
      cases hi : saved.thys name with
      | none => simpa [statusOf, hi] using hempty name hi
      | some info => simp [statusOf, hi]
    refine ⟨heq, ?_⟩
    rw [hrep.text_eq, hsaved.text_eq, heq]

/-- A restore brings the saved session back exactly when the theories entered since then are
empty. -/
theorem Remembers.broughtBack_iff {saves : List (EnvStateID × ReplSession)}
    (h : s.Remembers saves) {id : EnvStateID} {saved : ReplSession} (hmem : (id, saved) ∈ saves) :
    BroughtBack saved (s.restoreState I id).2 ↔ LaterTheoriesEmpty saved s :=
  broughtBack_iff_of_status (h.represented.restoreState id) (h.savedRepresented id saved hmem)
    (h.statusOf_restored hmem)

/-- The same for one save and any calls behind it that do not save. -/
theorem Represented.broughtBack_save_iff (h : s.Represented) (hrep : s'.Represented)
    (hsame : SameSaves s.saveState.2 s') :
    BroughtBack s (s'.restoreState I s.saveState.1).2 ↔ LaterTheoriesEmpty s s' := by
  have hcount : s'.stateIdCount = s.stateIdCount + 1 := hsame.stateIdCount
  have hv : s'.validStateId s.saveState.1 = true := by
    rw [validStateId, hcount]
    exact decide_eq_true (Nat.le_succ _)
  apply broughtBack_iff_of_status (hrep.restoreState _) h
  intro name
  rw [statusOf_restoreState hrep hv, hsame.savedStatesOf, savedStatesOf_saveState]
  simp [ReplSession.saveState]

/-- The edits that a restore sends fit the documents that they are sent to. -/
def RestoreApplies (I : Isabelle) (id : EnvStateID) (s : ReplSession) : Prop :=
  ∀ name info info' edits, s.thys name = some info →
    info.restoreState I id = some (info', edits) →
      EditScript.MatchesAll edits (s.nodes name).text

theorem Represented.restoreApplies (h : s.Represented) (id : EnvStateID) :
    RestoreApplies I id s := by
  intro name info info' edits hi hr
  obtain ⟨hwell, _, htext⟩ := h.of_thys hi
  obtain ⟨_, _, hr', _, _, _, hmatches⟩ := hwell.restoreState I id
  cases hr.symm.trans hr'
  rwa [htext]

/-- Where a chain has text that was never sent, a restore whose edits all apply does not bring a
session back: it removes that much from the document. -/
theorem Represented.not_broughtBack_of_unsent (h : s.Represented) {id : EnvStateID}
    {name : Text} {info : ThyInfo} (hv : s'.validStateId id = true)
    (hi : s'.thys name = some info) (hwell : info.WellFormed)
    (hunsent : (s'.nodes name).text.length < info.currentStatus.text.length)
    (happlies : RestoreApplies I id s') : ¬ BroughtBack s (s'.restoreState I id).2 := by
  intro hback
  obtain ⟨info', edits, hr, _, _, happ, hmatches⟩ := hwell.restoreState I id
  have hlength := EditScript.length_applyAll_of_matchesAll (happlies name info info' edits hi hr)
    hmatches
  obtain ⟨hstatus, hnode⟩ := hback name
  have hstatus' : info'.currentStatus = s.statusOf name := by
    rw [← hstatus]
    simp [ReplSession.restoreState, hv, statusOf, hi, ReplSession.restoreThy, hr]
  have hnode' : EditScript.applyAll edits (s'.nodes name).text = (s.nodes name).text := by
    rw [← hnode]
    simp [ReplSession.restoreState, hv, hi, ReplSession.restoreThy, hr, Node.applyEdit]
  rw [hnode', happ, hstatus', h.text_eq] at hlength
  omega

/-- An edit that raises leaves a chain with text that was never sent. -/
theorem EditRaises.unsent {useTheories : Text → UseResult} {isarString : Text}
    (hraise : EditRaises I useTheories isarString s) (hrep : s.Represented) :
    ∃ name info, (s.sendEdit I useTheories isarString).session.thys name = some info ∧
      info.WellFormed ∧ ((s.sendEdit I useTheories isarString).session.nodes name).text.length <
        info.currentStatus.text.length := by
  obtain ⟨name, info, _, hc, hi, hu, _⟩ := id hraise
  obtain ⟨hwell, _, htext⟩ := hrep.of_thys hi
  rcases sendEdit_cases (I := I) useTheories isarString hc hi with
    ⟨hnone, _⟩ | ⟨_, frame, _, hs, _⟩ | ⟨hno, _⟩
  · rw [hnone] at hu
    cases hu
  · have hchain := ThyInfo.text_recordEdit info (isarString ++ ['\n']) frame
    refine ⟨name, _, by simp [hs, setInfo]; rfl, hwell.recordEdit isarString frame, ?_⟩
    rw [hs, hchain, ← htext]
    simp [setInfo]
  · exact absurd hraise hno

def document (s : ReplSession) (name : Text) : Text := (s.nodes name).text

/-- A restore brings the saved texts back exactly when the theories entered since then have none. -/
theorem Remembers.document_eq_iff {saves : List (EnvStateID × ReplSession)}
    (h : s.Remembers saves) {id : EnvStateID} {saved : ReplSession} (hmem : (id, saved) ∈ saves) :
    (s.restoreState I id).2.document = saved.document ↔
      ∀ name, saved.thys name = none → s.document name = [] := by
  have hsaved := h.savedRepresented id saved hmem
  have htext : ∀ name, (s.restoreState I id).2.document name =
      (((saved.thys name).map ThyInfo.currentStatus).getD (s.statusOf name)).text := by
    intro name
    rw [document, (h.represented.restoreState id).text_eq, h.statusOf_restored hmem]
  constructor
  · intro heq name hnone
    have hempty : saved.document name = [] := by
      have ht := hsaved.thys name
      rw [hnone] at ht
      exact ht
    rw [← hempty, ← heq, htext, hnone]
    exact h.represented.text_eq name
  · intro hempty
    funext name
    rw [htext, document, hsaved.text_eq]
    cases hi : saved.thys name with
    | none =>
      have hroot : saved.statusOf name = .initial := by simp [statusOf, hi]
      rw [hroot, Option.map_none, Option.getD_none, ← h.represented.text_eq]
      exact hempty name hi
    | some info => simp [statusOf, hi]

/-- The calls of a session. Any integer can be named in a restore. -/
inductive Call
  | enterThy (thyName : Text)
  | sendEdit (useTheories : Text → UseResult) (isarString : Text)
  | rollbackLastTextEdit
  | discardLastEdit
  | saveState
  | restoreState (stateId : ℤ)

/-- The operation behind a call; a negative id is refused before anything is done. -/
def Call.action : Call → Option Action
  | .enterThy thyName => some (.enterThy thyName)
  | .sendEdit useTheories isarString => some (.sendEdit useTheories isarString)
  | .rollbackLastTextEdit => some .rollbackLastTextEdit
  | .discardLastEdit => some .discardLastEdit
  | .saveState => some .saveState
  | .restoreState stateId => if 0 ≤ stateId then some (.restoreState stateId.toNat) else none

def call (I : Isabelle) (s : ReplSession) (c : Call) : ReplSession :=
  (c.action.map (act I s)).getD s

def restoreAnswer (s : ReplSession) (stateId : ℤ) : Bool :=
  decide (0 ≤ stateId) && s.validStateId stateId.toNat

/-- The id `save_state` returns, with the session it was called in. -/
def savedBy (s : ReplSession) : Call → List (EnvStateID × ReplSession)
  | .saveState => [(s.saveState.1, s)]
  | _ => []

/-- A restore answers whether its id was returned by an earlier save, brings every theory back
to that save, and changes nothing when it refuses. -/
def HonestRestore (I : Isabelle) (x : ReplSession × List (EnvStateID × ReplSession)) :
    Call → Prop
  | .restoreState stateId =>
    (x.1.restoreAnswer stateId = true ↔ ∃ id saved, stateId = (id : ℕ) ∧ (id, saved) ∈ x.2) ∧
      (∀ id saved, stateId = (id : ℕ) → (id, saved) ∈ x.2 →
        BroughtBack saved (call I x.1 (.restoreState stateId))) ∧
      (x.1.restoreAnswer stateId = false → call I x.1 (.restoreState stateId) = x.1)
  | _ => True

/-- No restore names the next id, and none of a saved id meets recorded edits in a theory that
was entered after that save. -/
def RestoreFits (x : ReplSession × List (EnvStateID × ReplSession)) : Call → Prop
  | .restoreState stateId =>
    stateId ≠ x.1.stateIdCount ∧
      ∀ id saved, stateId = (id : ℕ) → (id, saved) ∈ x.2 → LaterTheoriesEmpty saved x.1
  | _ => True

def Call.Raises (I : Isabelle) (s : ReplSession) (c : Call) : Prop :=
  ∃ a, c.action = some a ∧ a.Raises I s

theorem Remembers.call {saves : List (EnvStateID × ReplSession)} (h : s.Remembers saves)
    {c : Call} (hc : ¬ c.Raises I s) :
    (s.call I c).Remembers (savedBy s c ++ saves) := by
  have hrep : ∀ a, c.action = some a → (act I s a).Represented :=
    fun a ha => represented_act h.represented fun hr => hc ⟨a, ha, hr⟩
  cases c with
  | enterThy thyName => exact h.of_sameSaves (.enterThy s thyName) (hrep _ rfl)
  | sendEdit useTheories isarString =>
    exact h.of_sameSaves (.sendEdit s useTheories isarString) (hrep _ rfl)
  | rollbackLastTextEdit =>
    refine h.of_sameSaves ?_ (hrep _ rfl)
    simp only [ReplSession.call, Call.action, Option.map_some, Option.getD_some, act,
      rollbackLastTextEdit_session]
    exact .discardLastEdit s
  | discardLastEdit => exact h.of_sameSaves (.discardLastEdit s) (hrep _ rfl)
  | saveState => exact h.saveState
  | restoreState stateId =>
    by_cases hid : 0 ≤ stateId
    · have ha : (Call.restoreState stateId).action = some (.restoreState stateId.toNat) :=
        if_pos hid
      have hcall : s.call I (.restoreState stateId) = (s.restoreState I stateId.toNat).2 := by
        rw [ReplSession.call, ha]
        rfl
      rw [hcall]
      exact h.of_sameSaves (.restoreState s stateId.toNat) (hrep _ ha)
    · have hcall : s.call I (.restoreState stateId) = s := by
        rw [ReplSession.call, Call.action, if_neg hid]
        rfl
      rw [hcall]
      exact h

theorem call_restoreState (s : ReplSession) (id : EnvStateID) :
    s.call I (.restoreState (id : ℕ)) = (s.restoreState I id).2 := by
  simp [call, Call.action, act]

theorem restoreAnswer_eq_true (s : ReplSession) (stateId : ℤ) :
    s.restoreAnswer stateId = true ↔ 0 ≤ stateId ∧ stateId ≤ s.stateIdCount := by
  simp only [restoreAnswer, validStateId, Bool.and_eq_true, decide_eq_true_eq]
  constructor
  · rintro ⟨hpos, hle⟩
    have hle' : stateId.toNat ≤ s.stateIdCount := hle
    omega
  · rintro ⟨hpos, hle⟩
    have hle' : stateId.toNat ≤ s.stateIdCount := by omega
    exact ⟨hpos, hle'⟩

theorem call_of_refused {stateId : ℤ} (h : s.restoreAnswer stateId = false) :
    s.call I (.restoreState stateId) = s := by
  by_cases hid : 0 ≤ stateId
  · have hv : s.validStateId stateId.toNat = false := by
      simpa [restoreAnswer, hid] using h
    simp [call, Call.action, hid, act, restoreState, hv]
  · simp [call, Call.action, hid]

theorem Remembers.saved_iff {saves : List (EnvStateID × ReplSession)} (h : s.Remembers saves)
    (stateId : ℤ) :
    (∃ id saved, stateId = (id : ℕ) ∧ (id, saved) ∈ saves) ↔
      0 ≤ stateId ∧ stateId < s.stateIdCount := by
  constructor
  · rintro ⟨id, saved, rfl, hmem⟩
    have hlt : (id : ℕ) < s.stateIdCount := (h.mem_iff id).mp ⟨saved, hmem⟩
    omega
  · rintro ⟨hpos, hlt⟩
    have hnat : stateId.toNat < s.stateIdCount := by omega
    obtain ⟨saved, hmem⟩ := (h.mem_iff stateId.toNat).mpr hnat
    exact ⟨stateId.toNat, saved, by omega, hmem⟩

theorem Remembers.honestRestore_iff {saves : List (EnvStateID × ReplSession)}
    (h : s.Remembers saves) (c : Call) :
    HonestRestore I (s, saves) c ↔ RestoreFits (s, saves) c := by
  cases c with
  | restoreState stateId =>
    have hanswer : (s.restoreAnswer stateId = true ↔
        ∃ id saved, stateId = (id : ℕ) ∧ (id, saved) ∈ saves) ↔ stateId ≠ s.stateIdCount := by
      rw [restoreAnswer_eq_true, h.saved_iff]
      omega
    have hback : ∀ id saved, stateId = (id : ℕ) → (id, saved) ∈ saves →
        (BroughtBack saved (s.call I (.restoreState stateId)) ↔ LaterTheoriesEmpty saved s) := by
      rintro id saved rfl hmem
      rw [call_restoreState]
      exact h.broughtBack_iff hmem
    constructor
    · rintro ⟨hans, hsaved, _⟩
      exact ⟨hanswer.mp hans,
        fun id saved hid hmem => (hback id saved hid hmem).mp (hsaved id saved hid hmem)⟩
    · rintro ⟨hne, hempty⟩
      exact ⟨hanswer.mpr hne,
        fun id saved hid hmem => (hback id saved hid hmem).mpr (hempty id saved hid hmem),
        call_of_refused⟩
  | _ => exact Iff.rfl

/-- Over every run of a session whose edits do not raise, the restores are honest exactly when
each of them names an id other than the next one and finds the theories entered since the
save empty. -/
theorem honestRestore_run_iff (I : Isabelle) (initialThys : List Text) (calls : List Call) :
    Runs.EveryStep (Runs.logged (call I) savedBy)
        (fun x c => ¬ c.Raises I x.1 ∧ HonestRestore I x c) (fresh initialThys, []) calls ↔
      Runs.EveryStep (Runs.logged (call I) savedBy)
        (fun x c => ¬ c.Raises I x.1 ∧ RestoreFits x c) (fresh initialThys, []) calls := by
  exact Runs.everyStep_iff_of_invariant
    (fun x c (h : x.1.Remembers x.2) hq => h.call hq.1)
    (fun _ c h => and_congr_right fun _ => h.honestRestore_iff c)
    (remembers_fresh initialThys)

/-- In a new session the id 0 is restored before any save. After a save, a theory entered and
written since then keeps its text. -/
theorem honestRestore_next_id_and_later_theory :
    (¬ Runs.EveryStep (Runs.logged (call OuterSyntax.isabelle) savedBy)
      (HonestRestore OuterSyntax.isabelle) (fresh [], []) [.restoreState 0]) ∧
    ¬ Runs.EveryStep (Runs.logged (call OuterSyntax.isabelle) savedBy)
      (HonestRestore OuterSyntax.isabelle) (fresh [], [])
      [.saveState, .enterThy "B".toList, .sendEdit (fun _ => .ok) "x".toList,
        .restoreState 0] := by
  constructor
  · rintro ⟨⟨hanswer, _⟩, _⟩
    obtain ⟨id, saved, _, hmem⟩ := hanswer.mp rfl
    exact List.not_mem_nil hmem
  · rintro ⟨_, _, _, ⟨_, hback, _⟩, _⟩
    have htext := (hback 0 (fresh []) rfl (List.mem_singleton.mpr rfl) "B".toList).2
    revert htext
    decide +kernel

end ReplSession
end IsabelleGym
