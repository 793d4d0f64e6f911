import IsabelleGym.FileOps
import IsabelleGym.Runs
import IsabelleGym.Toplevel

/-!
# Answers without a probe

After a trailing `end` the open-proof predicate and the subgoals are answered
from the name of the last command alone. An `end` that was rejected inside an
open proof and stayed in the document makes these answers wrong.
-/

namespace IsabelleGym

def beforeLastCommand (commands : List Span) : List Span :=
  (commands.reverse.dropWhile Span.isIgnored).tail.reverse

theorem exists_of_nodeEndsWithEnd {I : Isabelle} {node : Node}
    (h : nodeEndsWithEnd I node = true) :
    ∃ command ignored, I.commands node =
        beforeLastCommand (I.commands node) ++ command :: ignored ∧
      command.name = "end" ∧ ∀ sp ∈ ignored, sp.isIgnored = true := by
  obtain ⟨command, hfind, hname⟩ : ∃ command,
      (I.commands node).reverse.find? (fun command => !command.isIgnored) = some command ∧
        command.name = "end" := by
    unfold nodeEndsWithEnd at h
    cases hfind : (I.commands node).reverse.find? fun command => !command.isIgnored with
    | none => simp [hfind] at h
    | some command => exact ⟨command, rfl, by simpa [hfind] using h⟩
  obtain ⟨hnot, front, back, hsplit, hfront⟩ := List.find?_eq_some_iff_append.mp hfind
  have hig : ∀ sp ∈ front, sp.isIgnored = true := fun sp hsp => by simpa using hfront sp hsp
  have hdrop : (I.commands node).reverse.dropWhile Span.isIgnored = command :: back := by
    rw [hsplit, List.dropWhile_append_of_pos hig, List.dropWhile_cons_of_neg (by simpa using hnot)]
  refine ⟨command, front.reverse, ?_, hname, fun sp hsp => hig sp (by simpa using hsp)⟩
  rw [beforeLastCommand, hdrop, List.tail_cons, ← List.reverse_reverse (I.commands node), hsplit]
  simp

section Toplevel

variable {σ : Type} (T : Toplevel σ) (I : Isabelle) (useTheories : Text → UseResult)
  (s : ReplSession) (channelId : String)

/-- Behind a trailing `end` a proof is open exactly when one was open before the `end`. -/
theorem isProof_finalState_of_ended {I : Isabelle} {node : Node}
    (h : nodeEndsWithEnd I node = true) :
    T.isProof (T.finalState I node) =
      T.isProof (T.run node.header (beforeLastCommand (I.commands node))) := by
  obtain ⟨command, ignored, hsplit, hname, hig⟩ := exists_of_nodeEndsWithEnd h
  have hassoc : beforeLastCommand (I.commands node) ++ command :: ignored =
      beforeLastCommand (I.commands node) ++ [command] ++ ignored := by simp
  rw [Toplevel.finalState, hsplit, hassoc, T.run_append_of_ignored _ _ hig, T.run_concat,
    T.isProof_next_end _ hname, ← hassoc, ← hsplit]

namespace ReplSession

/-- The probe sent behind a theory's document parses as a command of its own behind the
unchanged commands of the document, and runs there inside a theory. -/
def probeEvaluated (name : Text) (mlText : String) : Bool :=
  let node := (s.sendEdit I useTheories (mlCommandText mlText)).session.nodes name
  let commands := I.commands (s.nodes name)
  commands.isPrefixOf (I.commands node) &&
    (match (I.commands node).drop commands.length with
      | probe :: ignored => probe.name = "ML_val" && ignored.all Span.isIgnored
      | [] => false) &&
    T.inTheory (T.finalState I (s.nodes name))

/-- The replies of the ML side: the answer for the final state when the probe is evaluated.
The retry fares like the first attempt. -/
def mlReplies (name : Text) (mlText : String) (answer : σ → List String) : Replies :=
  let reply := if s.probeEvaluated T I useTheories name mlText then
    some (answer (T.finalState I (s.nodes name))) else none
  ⟨reply, reply⟩

def inProofReplies (name : Text) : Replies :=
  s.mlReplies T I useTheories name (sendInProofTagged channelId) fun st =>
    [if T.isProof st then "1" else "0"]

def subgoalReplies (name : Text) : Replies :=
  s.mlReplies T I useTheories name (sendOpenSubgoalsTagged channelId) T.openSubgoals

def AgreesWithMl : Prop :=
  ∀ name, s.currentThy = some name →
    (s.inProof I useTheories channelId (s.inProofReplies T I useTheories channelId name)).value =
        some (T.isProof (T.finalState I (s.nodes name))) ∧
      (s.openSubgoals I useTheories channelId
          (s.subgoalReplies T I useTheories channelId name)).value =
        some (T.openSubgoals (T.finalState I (s.nodes name)))

/-- An unbegun theory has no open proof, no proof is open before a trailing
`end`, and without a trailing `end` both probes are evaluated. -/
structure AnswersKnown : Prop where
  unbegun : ∀ name, s.currentThy = some name → s.currentThyBegun = false →
    T.isProof (T.finalState I (s.nodes name)) = false
  ended : ∀ name, s.currentThy = some name → s.currentThyBegun = true →
    s.currentThyEnded I = true →
    T.isProof (T.run (s.nodes name).header
      (beforeLastCommand (I.commands (s.nodes name)))) = false
  open_end : ∀ name, s.currentThy = some name → s.currentThyBegun = true →
    s.currentThyEnded I = false →
    s.probeEvaluated T I useTheories name (sendInProofTagged channelId) = true ∧
      s.probeEvaluated T I useTheories name (sendOpenSubgoalsTagged channelId) = true

variable {T I useTheories s channelId}

theorem sendMlCommand_of_begun (I : Isabelle) (useTheories : Text → UseResult) (mlText : String)
    (h : s.currentThyBegun = true) (reply : Reply) :
    (sendMlCommand I useTheories mlText s reply).value = reply ∧
      (sendMlCommand I useTheories mlText s reply).session.currentThyBegun = true := by
  obtain ⟨name, info, hc, hi, hp⟩ := exists_of_currentThyBegun h
  have hp' : (info.recordEdit (insertTextEdit (mlCommandText mlText) info)
      info.currentStatus.frame).headerProcessed = true := hp
  simp [sendMlCommand, sendEdit_of_headerProcessed _ hc hi hp, currentThyBegun, currentThyInfo, hc,
    hp']

theorem appendedProbe_value (I : Isabelle) (useTheories : Text → UseResult) (mlText : String)
    (h : s.currentThyBegun = true) (reply : Reply) :
    (s.appendedProbe I useTheories mlText ⟨reply, reply⟩).value = reply := by
  obtain ⟨hvalue, hbegun⟩ := sendMlCommand_of_begun I useTheories mlText h reply
  cases reply with
  | none =>
    have hretry := (sendMlCommand_of_begun I useTheories mlText hbegun none).1
    simp [ReplSession.appendedProbe, ReplSession.withProbeSettle, hvalue, hretry]
  | some message => simp [ReplSession.appendedProbe, ReplSession.withProbeSettle, hvalue]

theorem answers_of_no_probe (hno : s.currentThyBegun = false ∨ s.currentThyEnded I = true)
    (replies : Replies) :
    (s.inProof I useTheories channelId replies).value = some false ∧
      (s.openSubgoals I useTheories channelId replies).value = some [] := by
  rcases hno with h | h
  · simp [inProof, openSubgoals, h]
  · by_cases hb : s.currentThyBegun = true <;> simp [inProof, openSubgoals, h, hb]

theorem no_answers_iff (st : σ) :
    ((some false : Option Bool) = some (T.isProof st) ∧
      (some [] : Option (List String)) = some (T.openSubgoals st)) ↔ T.isProof st = false := by
  constructor
  · rintro ⟨h, _⟩
    exact (Option.some.inj h).symm
  · intro h
    simp [Toplevel.openSubgoals, h]

theorem currentThyEnded_eq {name : Text} (hc : s.currentThy = some name)
    (he : s.currentThyEnded I = true) : nodeEndsWithEnd I (s.nodes name) = true := by
  unfold currentThyEnded at he
  cases hi : s.currentThyInfo with
  | none => simp [hc, hi] at he
  | some info => simpa [hc, hi] using he

theorem probed_values (T : Toplevel σ) (useTheories : Text → UseResult) (channelId : String)
    (hb : s.currentThyBegun = true) (he : s.currentThyEnded I = false) (name : Text) :
    (s.inProof I useTheories channelId (s.inProofReplies T I useTheories channelId name)).value =
        (if s.probeEvaluated T I useTheories name (sendInProofTagged channelId) then
          some (T.isProof (T.finalState I (s.nodes name))) else none) ∧
      (s.openSubgoals I useTheories channelId
          (s.subgoalReplies T I useTheories channelId name)).value =
        if s.probeEvaluated T I useTheories name (sendOpenSubgoalsTagged channelId) then
          some (T.openSubgoals (T.finalState I (s.nodes name))) else none := by
  constructor
  · simp only [inProof, hb, he, Bool.not_true, Bool.false_eq_true, if_false, inProofReplies,
      mlReplies, appendedProbe_value I useTheories _ hb]
    by_cases hp : s.probeEvaluated T I useTheories name (sendInProofTagged channelId) = true
    · rw [if_pos hp, if_pos hp]
      cases T.isProof (T.finalState I (s.nodes name)) <;> rfl
    · rw [if_neg hp, if_neg hp]
      rfl
  · simp only [openSubgoals, hb, he, Bool.not_true, Bool.false_eq_true, if_false, subgoalReplies,
      mlReplies, appendedProbe_value I useTheories _ hb]

/-- `in_proof` and `open_subgoals` return what the ML side would say of the
document exactly when the answers given without a probe are right and the
probes sent are evaluated. -/
theorem answers_iff (T : Toplevel σ) (I : Isabelle) (useTheories : Text → UseResult)
    (s : ReplSession) (channelId : String) :
    AgreesWithMl T I useTheories s channelId ↔ AnswersKnown T I useTheories s channelId := by
  have hno : ∀ name, (s.currentThyBegun = false ∨ s.currentThyEnded I = true) →
      (((s.inProof I useTheories channelId
            (s.inProofReplies T I useTheories channelId name)).value =
          some (T.isProof (T.finalState I (s.nodes name))) ∧
        (s.openSubgoals I useTheories channelId
            (s.subgoalReplies T I useTheories channelId name)).value =
          some (T.openSubgoals (T.finalState I (s.nodes name)))) ↔
        T.isProof (T.finalState I (s.nodes name)) = false) := by
    intro name hb
    rw [(answers_of_no_probe hb _).1, (answers_of_no_probe hb _).2]
    exact no_answers_iff _
  constructor
  · intro hag
    refine ⟨fun name hc hb => ?_, fun name hc hb he => ?_, fun name hc hb he => ?_⟩
    · exact (hno name (Or.inl hb)).mp (hag name hc)
    · rw [← isProof_finalState_of_ended T (currentThyEnded_eq hc he)]
      exact (hno name (Or.inr he)).mp (hag name hc)
    · obtain ⟨hin, hsub⟩ := hag name hc
      obtain ⟨hin', hsub'⟩ := probed_values T useTheories channelId hb he name
      rw [hin'] at hin
      rw [hsub'] at hsub
      exact ⟨by by_contra hn; simp [hn] at hin, by by_contra hn; simp [hn] at hsub⟩
  · rintro ⟨hunbegun, hended, hopen⟩ name hc
    by_cases hb : s.currentThyBegun = true
    · by_cases he : s.currentThyEnded I = true
      · refine (hno name (Or.inr he)).mpr ?_
        rw [isProof_finalState_of_ended T (currentThyEnded_eq hc he)]
        exact hended name hc hb he
      · have he' : s.currentThyEnded I = false := by simpa using he
        obtain ⟨hin, hsub⟩ := probed_values T useTheories channelId hb he' name
        obtain ⟨hpin, hpsub⟩ := hopen name hc hb he'
        rw [hin, hsub, if_pos hpin, if_pos hpsub]
        exact ⟨rfl, rfl⟩
    · have hb' : s.currentThyBegun = false := by simpa using hb
      exact (hno name (Or.inl hb')).mpr (hunbegun name hc hb')

inductive DocumentCall
  | step (useTheories : Text → UseResult) (isarString : Text)
  | verifyChunk (isarString : Text) (run : ChunkRun)
  | stepChunkReport (isarString : Text) (run : ChunkRun) (probeState : Bool)
  | rollback

def DocumentCall.act (I : Isabelle) (channelId : String) (s : ReplSession) :
    DocumentCall → ReplSession
  | .step useTheories isarString => (s.sendEdit I useTheories isarString).session
  | .verifyChunk isarString run => (s.verifyChunk I channelId isarString run).session
  | .stepChunkReport isarString run probeState =>
    (s.stepChunkReport I channelId isarString run probeState).session
  | .rollback => s.rollbackLastTextEdit.session

/-- Over every run, the answers after each call are those of the ML side exactly
when the condition holds of each document they are asked of. -/
theorem answersAgree_iff (T : Toplevel σ) (I : Isabelle) (useTheories : Text → UseResult)
    (channelId : String) (s : ReplSession) (calls : List DocumentCall) :
    Runs.EveryStep (DocumentCall.act I channelId)
        (fun s c => AgreesWithMl T I useTheories (c.act I channelId s) channelId) s calls ↔
      Runs.EveryStep (DocumentCall.act I channelId)
        (fun s c => AnswersKnown T I useTheories (c.act I channelId s) channelId) s calls := by
  simp only [answers_iff]

section Example

def flatToplevel : Toplevel (Bool × Bool) where
  init _ := (false, false)
  exec st command :=
    if command.name = "theory" then if st.1 then .failed else .finished (true, false)
    else if command.name = "end" then
      if st.2 || !st.1 then .failed else .finished (false, false)
    else if command.name = "lemma" then
      if st.1 && !st.2 then .finished (true, true) else .failed
    else if command.name ∈ ["by", "sorry", "\\<proof>", "oops"] then
      if st.2 then .finished (true, false) else .failed
    else if command.name = "" || !st.1 then .failed
    else .finished st
  isProof st := st.2
  goals _ := ["goal"]
  inTheory st := st.1
  end_closes := by
    intro st sp st' hname h
    simp only [hname] at h
    split_ifs at h <;> cases h <;> rfl
  end_rejected := by
    intro st sp hname h
    simp only [hname]
    simp [h]

/-- A rejected `end` hides the open proof in front of it. -/
theorem end_in_open_proof_hides_proof :
    ¬ Runs.EveryStep (DocumentCall.act OuterSyntax.isabelle "c")
      (fun s c => AgreesWithMl flatToplevel OuterSyntax.isabelle (fun _ => .ok)
        (c.act OuterSyntax.isabelle "c" s) "c") mainSession
      [.step (fun _ => .ok) "lemma True\nend".toList] := by
  rintro ⟨hag, _⟩
  have hin := (hag "A".toList (by decide +kernel)).1
  revert hin
  decide +kernel

end Example

end ReplSession
end Toplevel
end IsabelleGym
