import IsabelleGym.ChunkOps

/-!
# Loading text with a report

A file-sync call inserts its text and keeps it unless the report times out. Both
the report and the discarding refer to the last recorded edit, which is the
submitted text only when the edit was accepted.
-/

namespace IsabelleGym
namespace ReplSession

def stepChunkReport (I : Isabelle) (s : ReplSession) (channelId : String) (isarString : Text)
    (run : ChunkRun) (probeState : Bool) : Outcome BackendReport :=
  if s.currentThyInfo.isNone then ⟨s, some (failedChunkReport "no theory entered")⟩
  else
    let r := s.sendEdit I run.useTheories isarString
    if r.raised.isSome then ⟨r.session, none⟩
    else
      let report := r.session.chunkStatusReport I run.evaluation
      if report.timedOut then
        ⟨r.session.discardLastEdit, some (report.toBackendReport false false)⟩
      else if !report.success then ⟨r.session, some (report.toBackendReport false false)⟩
      else if r.session.currentThyEnded I then
        ⟨r.session, some (report.toBackendReport false false)⟩
      else if !probeState then ⟨r.session, some (report.toBackendReport false false)⟩
      else r.session.probeKept I channelId run report

variable {I : Isabelle} {s : ReplSession}

def Accepted (I : Isabelle) (s : ReplSession) (isarString : Text) : Prop :=
  ∃ name info, s.currentThy = some name ∧ s.thys name = some info ∧
    (info.updateGivenTextEdit I (insertTextEdit isarString info)).isSome = true

theorem accepted_iff {isarString : Text} {name : Text} {info : ThyInfo}
    (hc : s.currentThy = some name) (hi : s.thys name = some info) :
    Accepted I s isarString ↔
      (info.updateGivenTextEdit I (insertTextEdit isarString info)).isSome = true := by
  constructor
  · rintro ⟨n, i, hn, hin, hu⟩
    obtain rfl : name = n := by simpa [hc] using hn
    obtain rfl : info = i := by simpa [hi] using hin
    exact hu
  · exact fun hu => ⟨name, info, hc, hi, hu⟩

theorem EditRaises.accepted {useTheories : Text → UseResult} {isarString : Text}
    (h : EditRaises I useTheories isarString s) : Accepted I s isarString := by
  obtain ⟨name, info, info', hc, hi, hu, _⟩ := h
  exact ⟨name, info, hc, hi, by simp [hu]⟩

theorem sendEdit_of_not_accepted (useTheories : Text → UseResult) {isarString : Text} {name : Text}
    {info : ThyInfo} (hc : s.currentThy = some name) (hi : s.thys name = some info)
    (ha : ¬ Accepted I s isarString) :
    (s.sendEdit I useTheories isarString).session = s ∧
      (s.sendEdit I useTheories isarString).raised = none := by
  rw [accepted_iff hc hi] at ha
  rcases sendEdit_cases (I := I) useTheories isarString hc hi with
    ⟨_, hs, hr⟩ | ⟨_, frame, hcheck, _⟩ | ⟨_, _, frame, _, _, hcheck, _⟩
  · exact ⟨hs, hr⟩
  · simp [ThyInfo.updateGivenTextEdit, hcheck] at ha
  · simp [ThyInfo.updateGivenTextEdit, hcheck] at ha

/-- An accepted edit that does not raise: the theory holds one more edit, its
text grows by that edit, and discarding restores texts and bookkeeping. -/
theorem Represented.sendEdit_accepted (h : s.Represented) (useTheories : Text → UseResult)
    {isarString : Text} {name : Text} {info : ThyInfo} (hc : s.currentThy = some name)
    (hi : s.thys name = some info) (ha : Accepted I s isarString)
    (hno : ¬ EditRaises I useTheories isarString s) :
    let r := s.sendEdit I useTheories isarString
    r.raised = none ∧ r.session.currentThy = some name ∧
      (∃ info', r.session.thys name = some info' ∧
        info'.lastInsertionPoint = info.insertionPoint) ∧
      (r.session.nodes name).text = (s.nodes name).text ++ (isarString ++ ['\n']) ∧
      SameTrace s r.session.discardLastEdit := by
  intro r
  have ht := h.thys name
  rw [hi] at ht
  rw [accepted_iff hc hi] at ha
  rcases sendEdit_cases (I := I) useTheories isarString hc hi with
    ⟨hu, _⟩ | ⟨hbad, _⟩ | ⟨_, hr, frame, info', headers, _, hinfo, hs⟩
  · rw [hu] at ha
    cases ha
  · exact absurd hbad hno
  · obtain ⟨hrep, hnode⟩ := ht.recordEdit isarString hinfo headers
    have hs' : r.session = _ := hs.trans (setInfo_updateSessionWithEdits ..)
    have hcur : r.session.currentThy = some name := by rw [hs']; exact hc
    have hthy : r.session.thys name = some info' := by rw [hs']; simp
    have htext : (r.session.nodes name).text = (s.nodes name).text ++ (isarString ++ ['\n']) := by
      rw [hs']
      simpa using hnode
    have hlast : info'.lastTextEdit = some (insertTextEdit isarString info) := by
      rcases hinfo with rfl | rfl <;> rfl
    have hroll : info'.rollbackLastTextEditIfExists = info := by
      rcases hinfo with rfl | rfl <;> rfl
    have hpoint : info'.lastInsertionPoint = info.insertionPoint := by
      rcases hinfo with rfl | rfl <;> rfl
    refine ⟨hr, hcur, ⟨info', hthy, hpoint⟩, htext, fun n => ?_, ?_⟩
    · obtain ⟨_, hdisc⟩ := (h.sendEdit useTheories isarString hno).discardLastEdit
      by_cases hn : n = name
      · subst hn
        have heq := hdisc n info' _ hcur hthy hlast
        rw [htext] at heq
        exact (List.append_cancel_right heq).symm
      · rw [discardLastEdit_some hcur hthy hlast, hs']
        simp [Function.update_of_ne hn]
    · rw [discardLastEdit_some hcur hthy hlast, hroll, hs']
      simp [← hi]

/-- Probes after a report leave a represented session, also while it has no begun theory. -/
theorem Represented.probeKept (h : s.Represented) (channelId : String) {run : ChunkRun}
    (hrun : run.RepliesInTime) (report : ChunkReport) :
    (s.probeKept I channelId run report).session = s ∧
      ∃ proofOpen pendingQed, (s.probeKept I channelId run report).value =
        some (report.toBackendReport proofOpen pendingQed) := by
  by_cases hb : s.currentThyBegun = true
  · exact (h.begun hb).probeKept channelId hrun report
  · have hin : s.inProof I run.useTheories channelId run.inProofReplies = ⟨s, some false⟩ := by
      simp [inProof, hb]
    exact ⟨by simp [ReplSession.probeKept, hin], false, false, by simp [ReplSession.probeKept, hin]⟩

theorem stepChunkReport_outcome (channelId : String) (isarString : Text) {run : ChunkRun}
    (probeState : Bool) (hrun : run.RepliesInTime) (hci : s.currentThyInfo.isSome = true)
    (hraised : (s.sendEdit I run.useTheories isarString).raised = none)
    (hsent : (s.sendEdit I run.useTheories isarString).session.Represented) :
    let sent := (s.sendEdit I run.useTheories isarString).session
    let report := sent.chunkStatusReport I run.evaluation
    (∃ proofOpen pendingQed,
      (s.stepChunkReport I channelId isarString run probeState).value =
        some (report.toBackendReport proofOpen pendingQed)) ∧
      (s.stepChunkReport I channelId isarString run probeState).session =
        if report.timedOut then sent.discardLastEdit else sent := by
  intro sent report
  have hnone : s.currentThyInfo.isNone = false := by
    cases hs : s.currentThyInfo <;> simp_all
  have hprobe := hsent.probeKept (I := I) channelId hrun report
  have hcall : s.stepChunkReport I channelId isarString run probeState =
      if report.timedOut then ⟨sent.discardLastEdit, some (report.toBackendReport false false)⟩
      else if !report.success then ⟨sent, some (report.toBackendReport false false)⟩
      else if sent.currentThyEnded I then ⟨sent, some (report.toBackendReport false false)⟩
      else if !probeState then ⟨sent, some (report.toBackendReport false false)⟩
      else sent.probeKept I channelId run report := by
    simp only [stepChunkReport, hnone, hraised]
    rfl
  rw [hcall]
  by_cases htime : report.timedOut = true
  · rw [if_pos htime, if_pos htime]
    exact ⟨⟨false, false, rfl⟩, rfl⟩
  · rw [if_neg htime, if_neg htime]
    split_ifs
    · exact ⟨⟨false, false, rfl⟩, rfl⟩
    · exact ⟨⟨false, false, rfl⟩, rfl⟩
    · exact ⟨⟨false, false, rfl⟩, rfl⟩
    · exact ⟨hprobe.2, hprobe.1⟩

structure StepCall where
  isarString : Text
  run : ChunkRun
  probeState : Bool
  inTime : run.RepliesInTime

def StepCall.outcome (I : Isabelle) (channelId : String) (s : ReplSession) (c : StepCall) :
    Outcome BackendReport :=
  s.stepChunkReport I channelId c.isarString c.run c.probeState

def StepCall.step (I : Isabelle) (channelId : String) (s : ReplSession) (c : StepCall) :
    ReplSession := (c.outcome I channelId s).session

def StepCall.timedOut (I : Isabelle) (channelId : String) (s : ReplSession) (c : StepCall) : Bool :=
  (c.outcome I channelId s).value.any BackendReport.timedOut

/-- The listed command starts within the text that the call put behind the old document. -/
def StartsWithinText (I : Isabelle) (s : ReplSession) (c : StepCall) (r : ReportedCommand) :
    Prop :=
  ∃ name command start, s.currentThy = some name ∧
    let node := (s.sendEdit I c.run.useTheories c.isarString).session.nodes name
    (commandIterator (I.commands node) 0)[r.i]? = some (command, start) ∧
      r.range.1 = I.linePosition node.text start ∧ (s.nodes name).text.length ≤ start ∧
      start < (s.nodes name).text.length + (c.isarString ++ ['\n']).length

/-- The call edits and reports on nothing but its own text. -/
structure EditsOwnText (I : Isabelle) (channelId : String) (s : ReplSession) (c : StepCall) :
    Prop where
  kept : Accepted I s c.isarString → c.timedOut I channelId s = false →
    ∀ name, s.currentThy = some name → ((c.step I channelId s).nodes name).text =
      (s.nodes name).text ++ (c.isarString ++ ['\n'])
  discarded : Accepted I s c.isarString → c.timedOut I channelId s = true →
    SameTrace s (c.step I channelId s)
  rejected : ¬ Accepted I s c.isarString → SameTrace s (c.step I channelId s) ∧
    ∃ report, (c.outcome I channelId s).value = some report ∧ report.success = false
  commands : ∀ report, (c.outcome I channelId s).value = some report →
    ∀ r ∈ report.commands, StartsWithinText I s c r

/-- No command that is not ignored starts behind the text before the last edit, and there is
no last edit or some poll of the evaluation finds all commands settled. -/
def QuietLastEdit (I : Isabelle) (s : ReplSession) (ev : Evaluation) : Prop :=
  ∀ name info, s.currentThy = some name → s.thys name = some info →
    (∀ command start, (command, start) ∈ commandIterator (I.commands (s.nodes name)) 0 →
      info.lastInsertionPoint ≤ start → command.isIgnored = true) ∧
    (info.lastTextEdit = none ∨
      pollTimesOut (I.commands (s.nodes name)) ev.before ev.last = false)

/-- The edit is accepted and its header processing does not raise, or it is
rejected while the last edit shows nothing and cannot time out. -/
def RefersToOwnEdit (I : Isabelle) (s : ReplSession) (c : StepCall) : Prop :=
  (Accepted I s c.isarString ∧ ¬ EditRaises I c.run.useTheories c.isarString s) ∨
    (¬ Accepted I s c.isarString ∧ QuietLastEdit I s c.run.evaluation)

structure Entered (s : ReplSession) : Prop where
  represented : s.Represented
  entered : s.currentThy.isSome = true

theorem Entered.exists_info (h : s.Entered) :
    ∃ name info, s.currentThy = some name ∧ s.thys name = some info ∧
      s.currentThyInfo = some info := by
  obtain ⟨name, hc⟩ := Option.isSome_iff_exists.mp h.entered
  obtain ⟨info, hi, hci⟩ := h.represented.currentThyInfo hc
  exact ⟨name, info, hc, hi, hci⟩

theorem discardLastEdit_currentThy (s : ReplSession) :
    s.discardLastEdit.currentThy = s.currentThy := by
  unfold discardLastEdit
  split
  · split <;> rfl
  · rfl

theorem Represented.lastTextEdit_text_ne_nil (h : s.Represented) {name : Text} {info : ThyInfo}
    {e : TextEdit} (hi : s.thys name = some info) (he : info.lastTextEdit = some e) :
    e.text ≠ [] := by
  have hcur := (h.of_thys hi).1.current
  cases hs : info.currentStatus with
  | root f =>
    rw [hs] at hcur
    cases hcur with
    | root hno _ _ => simp [ThyInfo.lastTextEdit, ThyStatus.lastTextEdit, hs, hno] at he
  | child f p =>
    rw [hs] at hcur
    obtain ⟨t, hf, _⟩ := hcur.text_child
    obtain rfl : EditScript.Edit.insert p.insertionPoint (t ++ ['\n']) = e := by
      simpa [ThyInfo.lastTextEdit, ThyStatus.lastTextEdit, hs, hf] using he
    simp

theorem Represented.sameTrace_discardLastEdit_iff (h : s.Represented) {name : Text}
    {info : ThyInfo} (hc : s.currentThy = some name) (hi : s.thys name = some info) :
    SameTrace s s.discardLastEdit ↔ info.lastTextEdit = none := by
  constructor
  · rintro ⟨hsame, _⟩
    by_contra hne
    obtain ⟨e, he⟩ := Option.ne_none_iff_exists'.mp hne
    have htext := h.discardLastEdit.2 name info e hc hi he
    rw [hsame name] at htext
    exact h.lastTextEdit_text_ne_nil hi he (List.append_right_eq_self.mp htext.symm)
  · intro hnone
    have hci : s.currentThyInfo = some info := by simp [ReplSession.currentThyInfo, hc, hi]
    have hself : s.discardLastEdit = s := by simp [ReplSession.discardLastEdit, hc, hci, hnone]
    rw [hself]
    exact SameTrace.refl s

theorem reportedCommands_eq_nil_iff {node : Node} {name : Text} {info : ThyInfo}
    (ht : ThyRepresented name node (some info)) (ev : Evaluation) :
    reportedCommands I node info.lastInsertionLine ev = [] ↔
      ∀ command start, (command, start) ∈ commandIterator (I.commands node) 0 →
        info.lastInsertionPoint ≤ start → command.isIgnored = true := by
  constructor
  · intro hnil command start hmem hle
    by_contra hig
    obtain ⟨i, hi⟩ := List.mem_iff_getElem?.mp hmem
    obtain ⟨r, hr, _⟩ := exists_mem_reportedCommands ev hi
      ((lastInsertionLine_le_iff ht start).mpr hle) (by simpa using hig)
    rw [hnil] at hr
    cases hr
  · intro hall
    refine List.eq_nil_iff_forall_not_mem.mpr fun r hr => ?_
    obtain ⟨command, start, hget, hline, hig, _⟩ := exists_of_mem_reportedCommands hr
    have hig' := hall command start (List.mem_of_getElem? hget)
      ((lastInsertionLine_le_iff ht start).mp hline)
    rw [hig] at hig'
    cases hig'

/-- An accepted edit that does not raise is reported on and discarded as the last edit. -/
theorem Entered.editsOwnText_of_accepted (h : s.Entered) (channelId : String) {c : StepCall}
    (ha : Accepted I s c.isarString)
    (hno : ¬ EditRaises I c.run.useTheories c.isarString s) :
    EditsOwnText I channelId s c ∧ (c.step I channelId s).Entered := by
  obtain ⟨name, info, hc, hi, hci⟩ := h.exists_info
  have hsent := h.represented.sendEdit c.run.useTheories c.isarString hno
  obtain ⟨hraised, hcur, ⟨info', hi', hpoint⟩, htext, hsame⟩ :=
    h.represented.sendEdit_accepted c.run.useTheories hc hi ha hno
  obtain ⟨⟨proofOpen, pendingQed, hvalue⟩, hsession⟩ := stepChunkReport_outcome channelId
    c.isarString c.probeState c.inTime (by simp [hci]) hraised hsent
  set sent := (s.sendEdit I c.run.useTheories c.isarString).session with hsentdef
  have hreport := chunkStatusReport_of_current I c.run.evaluation hcur hi'
  have htimed : c.timedOut I channelId s =
      (sent.chunkStatusReport I c.run.evaluation).timedOut := by
    simp [StepCall.timedOut, StepCall.outcome, hvalue, ChunkReport.toBackendReport]
  have hlen : info.insertionPoint = (s.nodes name).text.length := by
    rw [(h.represented.of_thys hi).2.2]
    exact (h.represented.of_thys hi).1.current.insertionPoint_eq
  have ht' : ThyRepresented name (sent.nodes name) (some info') := by
    have := hsent.thys name
    rwa [hi'] at this
  refine ⟨⟨fun _ htime n hn => ?_, fun _ htime => ?_, fun hna => absurd ha hna, ?_⟩, ?_⟩
  · obtain rfl : name = n := by simpa [hc] using hn
    rw [htimed] at htime
    simp only [StepCall.step, StepCall.outcome, hsession, htime, Bool.false_eq_true, if_false]
    exact htext
  · rw [htimed] at htime
    simp only [StepCall.step, StepCall.outcome, hsession, htime, if_true]
    exact hsame
  · intro report hrep r hr
    obtain rfl : _ = report := Option.some.inj (hvalue.symm.trans hrep)
    rw [hreport] at hr
    obtain ⟨command, start, hget, hline, _, _, _, _, hrange⟩ := exists_of_mem_reportedCommands hr
    have hge := (lastInsertionLine_le_iff ht' start).mp hline
    have hlt := I.start_lt_length (List.mem_of_getElem? hget)
    rw [hpoint, hlen] at hge
    rw [htext, List.length_append] at hlt
    exact ⟨name, command, start, hc, hget, hrange, hge, hlt⟩
  · simp only [StepCall.step, StepCall.outcome, hsession]
    split_ifs
    · exact ⟨hsent.discardLastEdit.1, by rw [discardLastEdit_currentThy, hcur]; rfl⟩
    · exact ⟨hsent, by rw [hcur]; rfl⟩

/-- A rejected edit is reported on as the edit before it. -/
theorem Entered.editsOwnText_iff_of_rejected (h : s.Entered) (channelId : String) {c : StepCall}
    (ha : ¬ Accepted I s c.isarString) :
    (EditsOwnText I channelId s c ↔ QuietLastEdit I s c.run.evaluation) ∧
      (c.step I channelId s).Entered := by
  obtain ⟨name, info, hc, hi, hci⟩ := h.exists_info
  obtain ⟨hsent, hraised⟩ := sendEdit_of_not_accepted c.run.useTheories hc hi ha
  obtain ⟨⟨proofOpen, pendingQed, hvalue⟩, hsession⟩ := stepChunkReport_outcome (I := I) channelId
    c.isarString c.probeState c.inTime (by simp [hci]) hraised (by rw [hsent]; exact h.represented)
  rw [hsent, chunkStatusReport_of_current I _ hc hi] at hvalue hsession
  have ht := h.represented.thys name
  rw [hi] at ht
  have hdiscard := h.represented.sameTrace_discardLastEdit_iff hc hi
  have hnil := reportedCommands_eq_nil_iff (I := I) ht c.run.evaluation
  have hstep : c.step I channelId s = if pollTimesOut (I.commands (s.nodes name))
      c.run.evaluation.before c.run.evaluation.last then s.discardLastEdit else s := hsession
  have hquiet : QuietLastEdit I s c.run.evaluation ↔
      reportedCommands I (s.nodes name) info.lastInsertionLine c.run.evaluation = [] ∧
        SameTrace s (c.step I channelId s) := by
    rw [hnil, hstep]
    have hself : SameTrace s (if pollTimesOut (I.commands (s.nodes name))
        c.run.evaluation.before c.run.evaluation.last then s.discardLastEdit else s) ↔
        info.lastTextEdit = none ∨ pollTimesOut (I.commands (s.nodes name))
          c.run.evaluation.before c.run.evaluation.last = false := by
      split_ifs with htime
      · simp [hdiscard, htime]
      · simp [SameTrace.refl, htime]
    rw [hself]
    constructor
    · exact fun hq => hq name info hc hi
    · rintro hq n i hn hin
      obtain rfl : name = n := by simpa [hc] using hn
      obtain rfl : info = i := by simpa [hi] using hin
      exact hq
  refine ⟨?_, ?_⟩
  · rw [hquiet]
    constructor
    · intro hown
      refine ⟨List.eq_nil_iff_forall_not_mem.mpr fun r hr => ?_, (hown.rejected ha).1⟩
      obtain ⟨n, command, start, hn, hget, _, hge, _⟩ := hown.commands _ hvalue r hr
      obtain rfl : name = n := by simpa [hc] using hn
      rw [hsent] at hget
      have hlt := I.start_lt_length (List.mem_of_getElem? hget)
      omega
    · rintro ⟨hempty, hsame⟩
      refine ⟨fun h => absurd h ha, fun h => absurd h ha, fun _ => ⟨hsame, _, hvalue, ?_⟩, ?_⟩
      · simp [ChunkReport.toBackendReport, nodeStatusReport, hempty]
      · intro report hrep r hr
        obtain rfl : _ = report := Option.some.inj (hvalue.symm.trans hrep)
        have hmem : r ∈ reportedCommands I (s.nodes name) info.lastInsertionLine
          c.run.evaluation := hr
        rw [hempty] at hmem
        cases hmem
  · rw [hstep]
    split_ifs
    · exact ⟨h.represented.discardLastEdit.1, by rw [discardLastEdit_currentThy, hc]; rfl⟩
    · exact h

/-- An edit whose header processing raises is recorded without being inserted. -/
theorem Entered.not_editsOwnText_of_raises (h : s.Entered) (channelId : String) {c : StepCall}
    (hraise : EditRaises I c.run.useTheories c.isarString s) : ¬ EditsOwnText I channelId s c := by
  obtain ⟨name, info, hc, hi, hci⟩ := h.exists_info
  have ha := hraise.accepted
  rcases sendEdit_cases (I := I) c.run.useTheories c.isarString hc hi with
    ⟨hu, _⟩ | ⟨_, frame, _, hs, m, hm⟩ | ⟨hno, _⟩
  · rw [accepted_iff hc hi, hu] at ha
    cases ha
  · intro hown
    have hcall : c.outcome I channelId s =
        ⟨(s.sendEdit I c.run.useTheories c.isarString).session, none⟩ := by
      simp [StepCall.outcome, stepChunkReport, hci, hm]
    have hkept := hown.kept ha (by simp [StepCall.timedOut, hcall]) name hc
    have hnode : (c.step I channelId s).nodes name = s.nodes name := by
      rw [StepCall.step, hcall, hs]
      rfl
    rw [hnode] at hkept
    simp at hkept
  · exact absurd hraise hno

section Example

def stuckEvaluation : Evaluation where
  before := []
  last _ := some ⟨false, false, true⟩
  final _ := some ⟨false, false, true⟩
  results _ := []

def stepCall (isarString : String) (ev : Evaluation) : StepCall where
  isarString := isarString.toList
  run := answeredRun ev
  probeState := true
  inTime := answeredRun_inTime ev

def enteredSession : ReplSession := (fresh []).enterThy "A".toList

theorem enteredSession_entered : enteredSession.Entered where
  represented := (represented_fresh []).enterThy "A".toList
  entered := rfl

end Example

end ReplSession
end IsabelleGym
