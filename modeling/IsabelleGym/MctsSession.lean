import IsabelleGym.MctsAgent
import IsabelleGym.Probes

/-!
# The session as the gym of the agent

On a begun theory every text given to the backend is recorded and inserted,
whatever it answers, and asking for the subgoals leaves the theory as it was or
with copies of the probe. The texts of the gym are those of the status chain,
and its document is the text of the node.
-/

namespace IsabelleGym

namespace ThyStatus

/-- The texts of the edits of a chain without their newlines, oldest first. -/
def insertedTexts : ThyStatus → List Text
  | .root _ => []
  | .child f p => p.insertedTexts ++ [(child f p).editedText.dropLast]

theorem WellFormed.text_eq_lines {s : ThyStatus} (h : s.WellFormed) :
    s.text = Mcts.lines s.insertedTexts := by
  induction h with
  | root he _ _ => simp [text, insertedTexts, editedText, lastTextEdit, he, Mcts.lines]
  | @child f p t _ he _ _ ih =>
    simp [text, insertedTexts, editedText, lastTextEdit, he, ih, Mcts.lines]

end ThyStatus

namespace ReplSession

variable {I : Isabelle} {useTheories : Text → UseResult} {s : ReplSession}

/-- The texts inserted into the current theory. -/
def insertedTexts (s : ReplSession) : List Text :=
  (s.currentThyInfo.map fun info => info.currentStatus.insertedTexts).getD []

/-- The text of the current theory is the document of its inserted texts. -/
theorem Begun.text_eq_lines (h : s.Begun) {name : Text} (hc : s.currentThy = some name) :
    (s.nodes name).text = Mcts.lines s.insertedTexts := by
  obtain ⟨name', info, hc', hi, _⟩ := exists_of_currentThyBegun h.begun
  obtain rfl : name' = name := Option.some.inj (hc'.symm.trans hc)
  obtain ⟨hwell, _, htext⟩ := h.of_thys hc hi
  have hinfo : s.currentThyInfo = some info := by simp [currentThyInfo, hc, hi]
  rw [htext, hwell.current.text_eq_lines, insertedTexts, hinfo]
  rfl

theorem Begun.insertedTexts_sendEdit (h : s.Begun) (isarString : Text) :
    (s.sendEdit I useTheories isarString).session.insertedTexts =
      s.insertedTexts ++ [isarString] := by
  obtain ⟨name, info, hc, hi, hp⟩ := exists_of_currentThyBegun h.begun
  have hinfo : s.currentThyInfo = some info := by simp [currentThyInfo, hc, hi]
  rw [sendEdit_of_headerProcessed isarString hc hi hp]
  simp [insertedTexts, currentThyInfo, hc, hi, ThyInfo.recordEdit, ThyStatus.insertedTexts,
    ThyStatus.editedText, ThyStatus.lastTextEdit, insertTextEdit]

/-- The session behind a question for the subgoals: as before, or with one or two copies of the
probe. -/
theorem Begun.openSubgoals_cases (h : s.Begun) (channelId : String) (replies : Replies) :
    let once := (s.sendEdit I useTheories
      (mlCommandText (sendOpenSubgoalsTagged channelId))).session
    let session := (s.openSubgoals I useTheories channelId replies).session
    session = s ∨ session = once ∨ session = (once.sendEdit I useTheories
      (mlCommandText (sendOpenSubgoalsTagged channelId))).session := by
  intro once session
  obtain ⟨honce, _, hdiscard, _⟩ := h.sendEdit I useTheories
    (mlCommandText (sendOpenSubgoalsTagged channelId))
  obtain ⟨_, _, hdiscard', _⟩ := honce.sendEdit I useTheories
    (mlCommandText (sendOpenSubgoalsTagged channelId))
  simp only [session]
  unfold ReplSession.openSubgoals
  split_ifs
  · exact Or.inl rfl
  · exact Or.inl rfl
  · unfold ReplSession.appendedProbe
    rw [h.withProbeSettle]
    cases replies.first with
    | some reply => exact Or.inl hdiscard
    | none =>
      cases replies.retry with
      | some reply => exact Or.inr (Or.inl hdiscard')
      | none => exact Or.inr (Or.inr rfl)

theorem Begun.openSubgoals (h : s.Begun) (I : Isabelle) (useTheories : Text → UseResult)
    (channelId : String) (replies : Replies) :
    (s.openSubgoals I useTheories channelId replies).session.Begun ∧
      s.insertedTexts <+:
        (s.openSubgoals I useTheories channelId replies).session.insertedTexts := by
  obtain ⟨honce, _⟩ := h.sendEdit I useTheories (mlCommandText (sendOpenSubgoalsTagged channelId))
  obtain ⟨htwice, _⟩ := honce.sendEdit I useTheories
    (mlCommandText (sendOpenSubgoalsTagged channelId))
  rcases h.openSubgoals_cases (I := I) channelId replies with heq | heq | heq
  · rw [heq]
    exact ⟨h, List.prefix_refl _⟩
  · rw [heq, h.insertedTexts_sendEdit]
    exact ⟨honce, List.prefix_append _ _⟩
  · rw [heq, honce.insertedTexts_sendEdit, h.insertedTexts_sendEdit, List.append_assoc]
    exact ⟨htwice, List.prefix_append _ _⟩

end ReplSession

namespace Mcts

/-- What a call to the backend meets: the replies and results, the answer printed, and the
exception it raises where there is no reply or the answer is lost on its way. -/
structure Reception where
  replies : Replies
  results : ℕ → List Message
  shown : Text
  exception : Text
  lost : Bool

def answer {α : Type} (reception : Reception) (value : Option α) : Except Text α :=
  match value with
  | none => .error reception.exception
  | some value => if reception.lost then .error reception.exception else .ok value

/-- The gym of a begun theory; its state counts the calls. A blank text is refused by the
client. -/
def sessionGym (I : Isabelle) (useTheories : Text → UseResult) (channelId : String)
    (calls : ℕ → Reception) : Gym where
  State := {s : ReplSession // s.Begun} × ℕ
  texts st := st.1.1.insertedTexts
  currentThy st := answer (calls st.2)
    (some ((st.1.1.currentThyInfo.map ThyInfo.name).getD []))
  openSubgoals st :=
    let r := st.1.1.openSubgoals I useTheories channelId (calls st.2).replies
    ((⟨r.session, (st.1.2.openSubgoals I useTheories channelId _).1⟩, st.2 + 1),
      answer (calls st.2) (r.value.map (·.map fun subgoal => PythonStr.strip subgoal.toList)))
  step isarString st :=
    if PythonStr.strip isarString = [] then (st, .error "Protocols cannot be instantiated".toList)
    else
      let r := st.1.1.sendEdit I useTheories isarString
      let result := r.session.outputCurrentNodeResults I (calls st.2).results
        (r.errors.foldl (fun result e => result.addError e.toList) {})
      ((⟨r.session, (st.1.2.sendEdit I useTheories isarString).1⟩, st.2 + 1),
        answer (calls st.2)
          (some ⟨.ok (some result.separatedOutput.error), (calls st.2).shown⟩))
  getSource st := answer (calls st.2)
    (some ((st.1.1.currentThy.map fun name => (st.1.1.nodes name).text).getD []))
  texts_openSubgoals st := (st.1.2.openSubgoals I useTheories channelId _).2
  texts_step isarString st := by
    dsimp only
    split
    · exact Or.inl rfl
    · exact Or.inr (st.1.2.insertedTexts_sendEdit isarString)
  texts_accepted isarString st result hok _ := by
    dsimp only at hok ⊢
    split at hok
    · cases hok
    · rename_i hblank
      rw [if_neg hblank]
      exact st.1.2.insertedTexts_sendEdit isarString

end Mcts
end IsabelleGym
