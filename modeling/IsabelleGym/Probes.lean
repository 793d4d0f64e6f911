import IsabelleGym.ChunkReport
import IsabelleGym.OuterSyntax
import IsabelleGym.ReplOutput

/-!
# Transient probes

A probe on an unfinished theory is sent as an edit and discarded again. The
retry wrapper sends it a second time when the first wait for the reply times
out, while the callers discard at most once. On a theory that ends with `end`
the probe is bracketed by an insert and a remove before the `end`.
-/

namespace IsabelleGym

/-- What one wait on the reply channel gives; none when it times out. -/
abbrev Reply := Option (List String)

/-- The replies to the waits of a probe: the first, and the one after the retry. -/
structure Replies where
  first : Reply
  retry : Reply

/-- The session and the value a call ends with; no value when it raises. -/
structure Outcome (α : Type) where
  session : ReplSession
  value : Option α

def nodeEndsWithEnd (I : Isabelle) (node : Node) : Bool :=
  ((I.commands node).reverse.find? fun command => !command.isIgnored).any (·.name = "end")

def lastEndOffset (I : Isabelle) (node : Node) : Option ℕ :=
  ((commandIterator (I.commands node) 0).filter (·.1.name = "end")).getLast?.map Prod.snd

def mlCommandText (mlText : String) : Text :=
  ("ML_val \\<open> " ++ mlText ++ " \\<close>").toList

def sendOpenSubgoalsTagged (channelId : String) : String :=
  "Repl.send_open_subgoals_tagged \"" ++ channelId ++ "\" @\x7bIsar.state\x7d"

def sendInProofTagged (channelId : String) : String :=
  "Repl.send_in_proof_tagged \"" ++ channelId ++ "\" @\x7bIsar.state\x7d"

def outputCommandAtOffset (I : Isabelle) (node : Node) (offset : ℕ) (results : ℕ → List Message)
    (result : ReplResult) : ReplResult :=
  match (commandIterator (I.commands node) 0).zipIdx.find? fun ((_, start), _) =>
    start = offset with
  | some ((command, _), i) => prettyPrintResults command false result (results i)
  | none => result

namespace ReplSession

variable (I : Isabelle) (useTheories : Text → UseResult) (s : ReplSession)

def currentThyEnded : Bool :=
  match s.currentThy, s.currentThyInfo with
  | some name, some _ => nodeEndsWithEnd I (s.nodes name)
  | _, _ => false

def outputCurrentNodeResults (results : ℕ → List Message) (result : ReplResult) : ReplResult :=
  match s.currentThy, s.currentThyInfo with
  | some name, some info => outputNodeResults I (s.nodes name) info.lastInsertionLine results result
  | _, _ => result

def insertBeforeEnd (isarString : Text) : ReplSession × Option (ℕ × Text) :=
  match s.currentThy with
  | none => (s, none)
  | some name =>
    match lastEndOffset I (s.nodes name) with
    | none => (s, none)
    | some endOffset =>
      let text := isarString ++ ['\n']
      (s.updateSessionWithEdits name [.edits [.insert endOffset text]], some (endOffset, text))

def removeBeforeEnd (offset : ℕ) (text : Text) : ReplSession :=
  match s.currentThy with
  | none => s
  | some name => s.updateSessionWithEdits name [.edits [.remove offset text]]

/-- The bracket around a probe before `end`. The body sees the session with the probe and its
offset; the probe is removed however the body ends. -/
def withProbeBeforeEnd {α : Type} (isarString : Text)
    (body : ReplSession → Option ℕ → Option α) : Outcome α :=
  match s.insertBeforeEnd I isarString with
  | (s, some (offset, text)) => ⟨s.removeBeforeEnd offset text, body s (some offset)⟩
  | (s, none) => ⟨s, body s none⟩

def withProbeSettle {α : Type} (attempt : ReplSession → Reply → Outcome α) (replies : Replies) :
    Outcome α :=
  let r := attempt s replies.first
  if r.value.isSome then r else attempt r.session replies.retry

def sendMlCommand (mlText : String) (s : ReplSession) (reply : Reply) : Outcome (List String) :=
  let r := s.sendEdit I useTheories (mlCommandText mlText)
  ⟨r.session, if r.raised.isSome then none else reply⟩

/-- The probe at the end of the document. Nothing is discarded when it raises. -/
def appendedProbe (mlText : String) (replies : Replies) : Outcome (List String) :=
  let r := s.withProbeSettle (sendMlCommand I useTheories mlText) replies
  if r.value.isSome then { r with session := r.session.discardLastEdit } else r

def bracketedProbe (mlText : String) (replies : Replies) : Outcome (List String) :=
  s.withProbeSettle (fun s reply => s.withProbeBeforeEnd I (mlCommandText mlText) fun _ _ => reply)
    replies

def openSubgoals (channelId : String) (replies : Replies) : Outcome (List String) :=
  if !s.currentThyBegun then ⟨s, some []⟩
  else if s.currentThyEnded I then ⟨s, some []⟩
  else s.appendedProbe I useTheories (sendOpenSubgoalsTagged channelId) replies

def inProof (channelId : String) (replies : Replies) : Outcome Bool :=
  if !s.currentThyBegun then ⟨s, some false⟩
  else if s.currentThyEnded I then ⟨s, some false⟩
  else
    let r := s.appendedProbe I useTheories (sendInProofTagged channelId) replies
    ⟨r.session, r.value.map (· = ["1"])⟩

def localFacts (channelId : String) (replies : Replies) : Outcome (List String) :=
  let mlText := "Repl.send_local_facts_tagged \"" ++ channelId ++ "\" @\x7bIsar.state\x7d"
  if !s.currentThyBegun then ⟨s, some []⟩
  else if s.currentThyEnded I then s.bracketedProbe I mlText replies
  else s.appendedProbe I useTheories mlText replies

/-- The requirement on the limit is checked before anything else. -/
def globalFacts (channelId : String) (limit : ℤ) (replies : Replies) : Outcome (List String) :=
  let mlText :=
    "Repl.send_global_facts_tagged \"" ++ channelId ++ "\" @\x7bIsar.state\x7d " ++ toString limit
  if limit ≤ 0 then ⟨s, none⟩
  else if !s.currentThyBegun then ⟨s, some []⟩
  else if s.currentThyEnded I then s.bracketedProbe I mlText replies
  else s.appendedProbe I useTheories mlText replies

/-- The last edit is discarded however the probe ends. -/
def sledgehammer (channelId : String) (timeoutS : ℤ) (replies : Replies) : Outcome (List String) :=
  if !s.currentThyBegun then ⟨s, some []⟩
  else if s.currentThyEnded I then ⟨s, some []⟩
  else
    let r := s.withProbeSettle (sendMlCommand I useTheories
      ("Repl.send_sledgehammer_tagged \"" ++ channelId ++ "\" " ++ toString timeoutS ++
        " @\x7bIsar.state\x7d")) replies
    { r with session := r.session.discardLastEdit }

def transientOutput (isarString : Text) (results : ℕ → List Message) : Outcome ReplResult :=
  let r := s.sendEdit I useTheories isarString
  if r.raised.isSome then ⟨r.session, none⟩
  else
    ⟨r.session.discardLastEdit, some (r.session.outputCurrentNodeResults I results
      (r.errors.foldl (fun result e => result.addError e.toList) {}))⟩

def probeTransient (isarString : Text) (results : ℕ → List Message) : Outcome ReplResult :=
  if !s.currentThyBegun then
    ⟨s, some (ReplResult.addError {} "Cannot run probe without beginning theory.".toList)⟩
  else if s.currentThyEnded I then
    s.withProbeBeforeEnd I isarString fun s offset =>
      match s.currentThy, offset with
      | some name, some offset => some (outputCommandAtOffset I (s.nodes name) offset results {})
      | _, _ => some {}
  else s.transientOutput I useTheories isarString results

variable {I} {useTheories} {s}

theorem exists_of_currentThyBegun (hb : s.currentThyBegun = true) :
    ∃ name info, s.currentThy = some name ∧ s.thys name = some info ∧
      info.headerProcessed = true := by
  unfold currentThyBegun currentThyInfo at hb
  cases hc : s.currentThy with
  | none => simp [hc] at hb
  | some name =>
    cases hi : s.thys name with
    | none => simp [hc, hi] at hb
    | some info => exact ⟨name, info, rfl, hi, by simpa [hc, hi] using hb⟩

theorem sendEdit_of_headerProcessed {name : Text} {info : ThyInfo} (isarString : Text)
    (hc : s.currentThy = some name) (hi : s.thys name = some info)
    (hp : info.headerProcessed = true) :
    s.sendEdit I useTheories isarString =
      { session := { s with
          thys := Function.update s.thys name (some (info.recordEdit
            (insertTextEdit isarString info) info.currentStatus.frame))
          nodes := Function.update s.nodes name
            ((s.nodes name).applyEdits [.edits [insertTextEdit isarString info]]) } } := by
  have hci : s.currentThyInfo = some info := by simp [currentThyInfo, hc, hi]
  have hneed : (info.recordEdit (insertTextEdit isarString info)
      info.currentStatus.frame).needHeaderProcessing = false := by
    have hrec : (info.recordEdit (insertTextEdit isarString info)
        info.currentStatus.frame).headerProcessed = true := hp
    simp [ThyInfo.needHeaderProcessing, hrec]
  simp only [sendEdit, hc, hci]
  rw [ThyInfo.updateGivenTextEdit_of_headerProcessed hp]
  simp [sendRecorded, hneed, setInfo_updateSessionWithEdits, hc]

/-- The theory entered has its header recorded, and its node holds the text of its chain. -/
structure Begun (s : ReplSession) : Prop where
  represented : ∀ name, s.currentThy = some name →
    ThyRepresented name (s.nodes name) (s.thys name)
  begun : s.currentThyBegun = true

theorem Represented.begun (h : s.Represented) (hb : s.currentThyBegun = true) : s.Begun :=
  ⟨fun name _ => h.thys name, hb⟩

theorem Begun.of_thys (h : s.Begun) {name : Text} {info : ThyInfo}
    (hc : s.currentThy = some name) (hi : s.thys name = some info) :
    info.WellFormed ∧ info.name = name ∧ (s.nodes name).text = info.currentStatus.text := by
  have ht := h.represented name hc
  rw [hi] at ht
  exact ht

theorem removeInsertEdit_insertTextEdit_of_le {node : Node} {info : ThyInfo}
    (hle : info.insertionPoint ≤ node.text.length) (isarString : Text) :
    (node.applyEdits [.edits [insertTextEdit isarString info]]).applyEdits
      [.edits [removeInsertEdit (insertTextEdit isarString info)]] = node := by
  have hback := EditScript.Edit.remove_apply_insert (isarString ++ ['\n']) hle
  cases node
  simpa [Node.applyEdit, insertTextEdit, removeInsertEdit, EditScript.applyAll] using hback

/-- Discarding the edit just sent restores the session wherever the insertion point lies within
the text of the node. -/
theorem discardLastEdit_sendEdit_of_le {name : Text} {info : ThyInfo} (I : Isabelle)
    (useTheories : Text → UseResult) (isarString : Text) (hc : s.currentThy = some name)
    (hi : s.thys name = some info) (hp : info.headerProcessed = true)
    (hle : info.insertionPoint ≤ (s.nodes name).text.length) :
    (s.sendEdit I useTheories isarString).session.discardLastEdit = s := by
  set info' := info.recordEdit (insertTextEdit isarString info) info.currentStatus.frame
  have hr : s.sendEdit I useTheories isarString = { session := { s with
      thys := Function.update s.thys name (some info')
      nodes := Function.update s.nodes name
        ((s.nodes name).applyEdits [.edits [insertTextEdit isarString info]]) } } :=
    sendEdit_of_headerProcessed isarString hc hi hp
  have hlast : info'.lastTextEdit = some (insertTextEdit isarString info) := rfl
  have hback : info'.rollbackLastTextEditIfExists = info := rfl
  have hcur : (s.sendEdit I useTheories isarString).session.currentThy = some name := by
    rw [hr]
    exact hc
  have hsome : (s.sendEdit I useTheories isarString).session.thys name = some info' := by
    rw [hr]
    simp
  rw [discardLastEdit_some hcur hsome hlast, hr]
  cases s
  simp only [Function.update_self, Function.update_idem, hback, ← hi,
    removeInsertEdit_insertTextEdit_of_le hle isarString, Function.update_eq_self]

/-- An edit on a begun theory: the theory stays begun, its text grows by the
edit, and discarding the edit restores the session. -/
theorem Begun.sendEdit (h : s.Begun) (I : Isabelle) (useTheories : Text → UseResult)
    (isarString : Text) :
    let r := s.sendEdit I useTheories isarString
    r.session.Begun ∧ r.raised = none ∧ r.session.discardLastEdit = s ∧
      r.session.currentThy = s.currentThy ∧
      ∀ name, s.currentThy = some name →
        (r.session.nodes name).text = (s.nodes name).text ++ (isarString ++ ['\n']) := by
  intro r
  obtain ⟨name, info, hc, hi, hp⟩ := exists_of_currentThyBegun h.begun
  have ht : ThyRepresented name (s.nodes name) (some info) := h.of_thys hc hi
  set info' := info.recordEdit (insertTextEdit isarString info) info.currentStatus.frame with hinfo
  have hr : r = { session := { s with
      thys := Function.update s.thys name (some info')
      nodes := Function.update s.nodes name
        ((s.nodes name).applyEdits [.edits [insertTextEdit isarString info]]) } } :=
    sendEdit_of_headerProcessed isarString hc hi hp
  obtain ⟨hrep, hnode⟩ := ht.recordEdit isarString (Or.inl hinfo) []
  have hdiscard : r.session.discardLastEdit = s := by
    apply discardLastEdit_sendEdit_of_le I useTheories isarString hc hi hp
    rw [ht.2.2]
    exact le_of_eq ht.1.current.insertionPoint_eq
  refine ⟨⟨?_, ?_⟩, by rw [hr], hdiscard, by rw [hr], ?_⟩
  · intro n hn
    obtain rfl : name = n := by simpa [hr, hc] using hn
    simpa [hr] using hrep
  · have hp' : info'.headerProcessed = true := hp
    rw [hr]
    simp [currentThyBegun, currentThyInfo, hc, hp']
  · intro n hn
    obtain rfl : name = n := by simpa [hc] using hn
    rw [hr]
    simpa using hnode

theorem lastEndOffset_le {node : Node} {offset : ℕ} (h : lastEndOffset I node = some offset) :
    offset ≤ node.text.length := by
  obtain ⟨⟨c, o⟩, hmem, rfl⟩ := Option.map_eq_some_iff.mp h
  have hin := List.mem_of_getLast? hmem
  exact Nat.le_of_lt (I.start_lt_length (List.mem_filter.mp hin).1)

/-- Removing a text just inserted before the trailing `end` restores the session. -/
theorem removeBeforeEnd_insert {name : Text} {offset : ℕ} (text : Text)
    (hc : s.currentThy = some name) (ho : offset ≤ (s.nodes name).text.length) :
    (s.updateSessionWithEdits name [.edits [.insert offset text]]).removeBeforeEnd offset text =
      s := by
  have hback := EditScript.Edit.remove_apply_insert text ho
  have hnode : ((s.nodes name).applyEdits [.edits [.insert offset text]]).applyEdits
      [.edits [.remove offset text]] = s.nodes name := by
    cases hn : s.nodes name
    rw [hn] at hback
    simpa [Node.applyEdit, EditScript.applyAll] using hback
  have hcur : (s.updateSessionWithEdits name [.edits [.insert offset text]]).currentThy =
      some name := hc
  simp only [removeBeforeEnd, hcur]
  cases s
  simp only [updateSessionWithEdits, Function.update_self, Function.update_idem] at hnode ⊢
  rw [hnode, Function.update_eq_self]

theorem withProbeBeforeEnd_session {α : Type} (s : ReplSession) (isarString : Text)
    (body : ReplSession → Option ℕ → Option α) :
    (s.withProbeBeforeEnd I isarString body).session = s := by
  cases hc : s.currentThy with
  | none => simp [withProbeBeforeEnd, insertBeforeEnd, hc]
  | some name =>
    cases ho : lastEndOffset I (s.nodes name) with
    | none => simp [withProbeBeforeEnd, insertBeforeEnd, hc, ho]
    | some offset =>
      have hremove := removeBeforeEnd_insert (isarString ++ ['\n']) hc (lastEndOffset_le ho)
      simpa [withProbeBeforeEnd, insertBeforeEnd, hc, ho] using hremove

theorem bracketedProbe_session (s : ReplSession) (mlText : String) (replies : Replies) :
    (s.bracketedProbe I mlText replies).session = s := by
  unfold bracketedProbe withProbeSettle
  dsimp only
  split_ifs
  · exact withProbeBeforeEnd_session s _ _
  · rw [withProbeBeforeEnd_session, withProbeBeforeEnd_session]

/-- What the retry wrapper leaves of an appended probe: one copy of it, or two
when the first wait timed out. -/
theorem Begun.withProbeSettle (h : s.Begun) (I : Isabelle) (useTheories : Text → UseResult)
    (mlText : String) (replies : Replies) :
    let once := (s.sendEdit I useTheories (mlCommandText mlText)).session
    s.withProbeSettle (sendMlCommand I useTheories mlText) replies =
      if replies.first.isSome then ⟨once, replies.first⟩
      else ⟨(once.sendEdit I useTheories (mlCommandText mlText)).session, replies.retry⟩ := by
  intro once
  obtain ⟨honce, hraised, _⟩ := h.sendEdit I useTheories (mlCommandText mlText)
  obtain ⟨_, hraised', _⟩ := honce.sendEdit I useTheories (mlCommandText mlText)
  have hfirst : ∀ reply, sendMlCommand I useTheories mlText s reply = ⟨once, reply⟩ := by
    intro reply
    simp [sendMlCommand, hraised, once]
  have hsecond : ∀ reply, sendMlCommand I useTheories mlText once reply =
      ⟨(once.sendEdit I useTheories (mlCommandText mlText)).session, reply⟩ := by
    intro reply
    simp [sendMlCommand, once, hraised']
  simp only [ReplSession.withProbeSettle, hfirst, hsecond]

/-- Answered in time, an appended probe restores the session and returns the reply. -/
theorem Begun.appendedProbe (h : s.Begun) (I : Isabelle) (useTheories : Text → UseResult)
    (mlText : String) {replies : Replies} (hr : replies.first.isSome = true) :
    s.appendedProbe I useTheories mlText replies = ⟨s, replies.first⟩ := by
  obtain ⟨_, _, hdiscard, _⟩ := h.sendEdit I useTheories (mlCommandText mlText)
  simp [ReplSession.appendedProbe, h.withProbeSettle, hr, hdiscard]

/-- What a client sees of a session: its document texts, and for every theory the status
chain with the insertion point and the saved states. -/
def SameTrace (s s' : ReplSession) : Prop :=
  (∀ name, (s'.nodes name).text = (s.nodes name).text) ∧ s'.thys = s.thys

theorem SameTrace.refl (s : ReplSession) : SameTrace s s := ⟨fun _ => rfl, rfl⟩

theorem Begun.not_sameTrace_of_text (h : s.Begun) {s' : ReplSession} {t : Text} (ht : t ≠ [])
    (htext : ∀ name, s.currentThy = some name →
      (s'.nodes name).text = (s.nodes name).text ++ t) : ¬ SameTrace s s' := by
  rintro ⟨hsame, _⟩
  obtain ⟨name, _, hc, _⟩ := exists_of_currentThyBegun h.begun
  have heq := (htext name hc).symm.trans (hsame name)
  exact ht (List.append_right_eq_self.mp heq)

/-- After a first wait that timed out at least one copy of the probe is left. -/
theorem Begun.not_sameTrace_of_timeout (h : s.Begun) (I : Isabelle)
    (useTheories : Text → UseResult) (mlText : String) {replies : Replies}
    (hr : replies.first.isSome = false) :
    let r := s.withProbeSettle (sendMlCommand I useTheories mlText) replies
    ¬ SameTrace s r.session ∧ ¬ SameTrace s r.session.discardLastEdit := by
  intro r
  obtain ⟨honce, _, _, hcur, htext⟩ := h.sendEdit I useTheories (mlCommandText mlText)
  obtain ⟨_, _, hdiscard, _, htext'⟩ := honce.sendEdit I useTheories (mlCommandText mlText)
  have hsession : r.session = ((s.sendEdit I useTheories (mlCommandText mlText)).session.sendEdit I
      useTheories (mlCommandText mlText)).session := by
    simp [r, h.withProbeSettle, hr]
  constructor
  · refine h.not_sameTrace_of_text (t := mlCommandText mlText ++ ['\n'] ++
      (mlCommandText mlText ++ ['\n'])) (by simp) fun name hc => ?_
    rw [hsession, htext' name (hcur.trans hc), htext name hc, List.append_assoc]
  · rw [hsession, hdiscard]
    exact h.not_sameTrace_of_text (by simp) htext

inductive Probe
  | openSubgoals
  | inProof
  | localFacts
  | globalFacts (limit : ℤ)
  | sledgehammer (timeoutS : ℤ)
  | probeTransient (isarString : Text)

def runProbe (I : Isabelle) (useTheories : Text → UseResult) (s : ReplSession) (channelId : String)
    (replies : Replies) (results : ℕ → List Message) : Probe → ReplSession
  | .openSubgoals => (s.openSubgoals I useTheories channelId replies).session
  | .inProof => (s.inProof I useTheories channelId replies).session
  | .localFacts => (s.localFacts I useTheories channelId replies).session
  | .globalFacts limit => (s.globalFacts I useTheories channelId limit replies).session
  | .sledgehammer timeoutS => (s.sledgehammer I useTheories channelId timeoutS replies).session
  | .probeTransient isarString => (s.probeTransient I useTheories isarString results).session

def Probe.Waits : Probe → Prop
  | .globalFacts limit => 0 < limit
  | .probeTransient _ => False
  | _ => True

theorem Begun.transientOutput_session (h : s.Begun) (I : Isabelle)
    (useTheories : Text → UseResult) (isarString : Text) (results : ℕ → List Message) :
    (s.transientOutput I useTheories isarString results).session = s := by
  obtain ⟨_, hraised, hdiscard, _⟩ := h.sendEdit I useTheories isarString
  simp [ReplSession.transientOutput, hraised, hdiscard]

theorem Begun.sameTrace_appendedProbe_iff (h : s.Begun) (I : Isabelle)
    (useTheories : Text → UseResult) (mlText : String) (replies : Replies) :
    SameTrace s (s.appendedProbe I useTheories mlText replies).session ↔
      replies.first.isSome = true := by
  constructor
  · intro hsame
    by_contra hr
    obtain ⟨hno, hno'⟩ := h.not_sameTrace_of_timeout I useTheories mlText (by simpa using hr)
    unfold ReplSession.appendedProbe at hsame
    dsimp only at hsame
    split_ifs at hsame
    · exact hno' hsame
    · exact hno hsame
  · intro hr
    rw [h.appendedProbe I useTheories mlText hr]
    exact SameTrace.refl s

/-- Discarding once however the probe ends makes no difference. -/
theorem Begun.sameTrace_discarded_iff (h : s.Begun) (I : Isabelle)
    (useTheories : Text → UseResult) (mlText : String) (replies : Replies) :
    SameTrace s (s.withProbeSettle (sendMlCommand I useTheories mlText)
        replies).session.discardLastEdit ↔ replies.first.isSome = true := by
  constructor
  · intro hsame
    by_contra hr
    exact (h.not_sameTrace_of_timeout I useTheories mlText (by simpa using hr)).2 hsame
  · intro hr
    obtain ⟨_, _, hdiscard, _⟩ := h.sendEdit I useTheories (mlCommandText mlText)
    simp [h.withProbeSettle, hr, hdiscard, SameTrace.refl]

/-- A probe on a begun theory leaves no trace exactly when the theory has ended,
the probe does not wait for a reply, or its first wait is answered in time. -/
theorem probe_sameTrace_iff (I : Isabelle) (useTheories : Text → UseResult) (channelId : String)
    (replies : Replies) (results : ℕ → List Message) (p : Probe) (h : s.Begun) :
    SameTrace s (runProbe I useTheories s channelId replies results p) ↔
      s.currentThyEnded I = true ∨ ¬ p.Waits ∨ replies.first.isSome = true := by
  have happended := h.sameTrace_appendedProbe_iff I useTheories
  by_cases hend : s.currentThyEnded I = true
  · have hsession : runProbe I useTheories s channelId replies results p = s := by
      cases p <;> simp [runProbe, openSubgoals, inProof, localFacts, globalFacts, sledgehammer,
        probeTransient, h.begun, hend, bracketedProbe_session, withProbeBeforeEnd_session]
      split_ifs <;> simp [bracketedProbe_session]
    simp [hsession, hend, SameTrace.refl]
  · cases p with
    | openSubgoals | inProof | localFacts =>
      simp [runProbe, openSubgoals, inProof, localFacts, h.begun, hend, happended, Probe.Waits]
    | globalFacts limit =>
      by_cases hl : limit ≤ 0
      · simp [runProbe, globalFacts, hl, SameTrace.refl, Probe.Waits]
      · simp [runProbe, globalFacts, hl, h.begun, hend, happended, Probe.Waits, Int.not_le.mp hl]
    | sledgehammer timeoutS =>
      simp [runProbe, sledgehammer, h.begun, hend, h.sameTrace_discarded_iff I useTheories,
        Probe.Waits]
    | probeTransient isarString =>
      simp [runProbe, probeTransient, h.begun, hend, h.transientOutput_session, SameTrace.refl,
        Probe.Waits]

section Example

def mainSession : ReplSession :=
  (((fresh []).enterThy "A".toList).sendEdit OuterSyntax.isabelle (fun _ => .ok)
    "theory A imports Main begin".toList).session

theorem mainSession_represented : mainSession.Represented :=
  ((represented_fresh []).enterThy "A".toList).sendEdit (fun _ => .ok)
    "theory A imports Main begin".toList (not_editRaises_of_raised (by decide +kernel))

theorem mainSession_begun : mainSession.Begun :=
  mainSession_represented.begun (by decide +kernel)

/-- A probe that is answered only after the retry leaves a copy of itself behind. -/
theorem probe_leaves_copy_after_retry :
    ¬ SameTrace mainSession (runProbe OuterSyntax.isabelle (fun _ => .ok) mainSession "c"
      ⟨none, some []⟩ (fun _ => []) .openSubgoals) := by
  rintro ⟨htext, _⟩
  have hA := htext "A".toList
  revert hA
  decide +kernel

theorem probe_sameTrace_answered :
    SameTrace mainSession (runProbe OuterSyntax.isabelle (fun _ => .ok) mainSession "c"
      ⟨some ["1"], none⟩ (fun _ => []) .inProof) :=
  (probe_sameTrace_iff OuterSyntax.isabelle (fun _ => .ok) "c" ⟨some ["1"], none⟩ (fun _ => [])
    .inProof mainSession_begun).mpr (Or.inr (Or.inr rfl))

end Example

end ReplSession
end IsabelleGym
