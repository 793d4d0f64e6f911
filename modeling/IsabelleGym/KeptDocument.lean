import IsabelleGym.ChunkOps
import IsabelleGym.Runs

/-!
# Errors in the kept document

The report judges the commands that start behind the old document. New text
without a command of its own in front extends the last earlier command, and
nothing judges that command again. A document free of errors stays so over runs
in which no chunk breaks an earlier command while its own commands succeed.
-/

namespace IsabelleGym

inductive CommandResult
  | ok
  | failed
  | diverges
deriving DecidableEq

/-- The result of a command as a function of the header and the spans before it. -/
abbrev CommandResults := Option NodeHeader → List Span → Span → CommandResult

variable (I : Isabelle) (R : CommandResults) (node : Node)

def OkAt (i : ℕ) (command : Span) : Prop :=
  command.isIgnored = true ∨ R node.header ((I.commands node).take i) command = .ok

def ErrorFree : Prop := ∀ i command, (I.commands node)[i]? = some command → OkAt I R node i command

/-- The statuses are those of the results: a failed status belongs to a failed
command, and a consolidated one that did not fail to a command that is ok. -/
def ConsistentStatuses (statuses : Statuses) : Prop :=
  ∀ i command st, (I.commands node)[i]? = some command → statuses i = some st →
    command.isIgnored = false →
    (st.isFailed = true → R node.header ((I.commands node).take i) command = .failed) ∧
      (st.isFailed = false → st.maybeConsolidated = true →
        R node.header ((I.commands node).take i) command = .ok)

def OkFrom (offset : ℕ) : Prop :=
  ∀ i command start, (commandIterator (I.commands node) 0)[i]? = some (command, start) →
    offset ≤ start → OkAt I R node i command

def OkBefore (offset : ℕ) : Prop :=
  ∀ i command start, (commandIterator (I.commands node) 0)[i]? = some (command, start) →
    start < offset → OkAt I R node i command

variable {I R node}

theorem getElem?_commandIterator (offset : ℕ) {sps : List Span} {i : ℕ} {command : Span}
    (h : sps[i]? = some command) :
    ∃ start, (commandIterator sps offset)[i]? = some (command, start) := by
  have hmap := congrArg (fun l => l[i]?) (map_fst_commandIterator sps offset)
  simp only [List.getElem?_map, h] at hmap
  obtain ⟨⟨c, start⟩, hget, rfl⟩ := Option.map_eq_some_iff.mp hmap
  exact ⟨start, hget⟩

theorem start_of_getElem?_commandIterator {sps : List Span} {offset i : ℕ} {command : Span}
    {start : ℕ} (h : (commandIterator sps offset)[i]? = some (command, start)) :
    start = offset + ((sps.take i).flatMap Span.source).length := by
  induction sps generalizing offset i with
  | nil => simp [commandIterator] at h
  | cons sp sps ih =>
    cases i with
    | zero =>
      obtain ⟨_, rfl⟩ := Prod.mk.inj (Option.some.inj h)
      simp
    | succ i =>
      rw [ih h, List.take_succ_cons, List.flatMap_cons, List.length_append, Nat.add_assoc]

/-- A text behind which the commands stay as they are breaks none of them. -/
theorem okBefore_of_prefix {old : Node} (hfree : ErrorFree I R old)
    (hheader : node.header = old.header) (hpre : I.commands old <+: I.commands node) :
    OkBefore I R node old.text.length := by
  obtain ⟨post, hpost⟩ := hpre
  intro i command start hget hlt
  have hcommand : (I.commands node)[i]? = some command := by
    rw [← map_fst_commandIterator (I.commands node) 0, List.getElem?_map, hget]
    rfl
  have hsource : (I.commands old).flatMap Span.source = old.text := I.spans_source _ _
  have hi : i < (I.commands old).length := by
    by_contra hge
    have hstart := start_of_getElem?_commandIterator hget
    rw [← hpost, List.take_append, List.take_of_length_le (Nat.le_of_not_lt hge),
      List.flatMap_append, hsource, List.length_append] at hstart
    omega
  rw [← hpost, List.getElem?_append_left hi] at hcommand
  rw [OkAt, hheader, ← hpost, List.take_append_of_le_length (Nat.le_of_lt hi)]
  exact hfree i command hcommand

theorem errorFree_of_okBefore_of_okFrom {offset : ℕ} (hb : OkBefore I R node offset)
    (hf : OkFrom I R node offset) : ErrorFree I R node := by
  intro i command hi
  obtain ⟨start, hget⟩ := getElem?_commandIterator 0 hi
  by_cases hlt : start < offset
  · exact hb i command start hget hlt
  · exact hf i command start hget (Nat.le_of_not_lt hlt)

theorem okAt_of_verdict {statuses : Statuses} (hcons : ConsistentStatuses I R node statuses)
    {i : ℕ} {command : Span} (hi : (I.commands node)[i]? = some command)
    (htracked : (statuses i).isSome = true) (hv : verdict (statuses i) = .ok) :
    OkAt I R node i command := by
  obtain ⟨st, hst⟩ := Option.isSome_iff_exists.mp htracked
  rw [hst] at hv
  by_cases hig : command.isIgnored = true
  · exact Or.inl hig
  · right
    obtain ⟨_, hok⟩ := hcons i command st hi hst (by simpa using hig)
    by_cases hf : st.isFailed = true
    · simp [verdict, hf] at hv
    · by_cases hc : st.maybeConsolidated = true
      · exact hok (by simpa using hf) hc
      · simp only [verdict, hf, hc, Bool.false_eq_true, if_false] at hv
        split_ifs at hv

/-- A successful report on consistent and tracked statuses: the commands behind
the last insertion point are ok. -/
theorem okFrom_of_success {name : Text} {info : ThyInfo} {ev : Evaluation}
    (ht : ReplSession.ThyRepresented name node (some info))
    (hcons : ConsistentStatuses I R node ev.final)
    (htracked : ∀ i < (I.commands node).length, (ev.final i).isSome = true)
    (hs : (nodeStatusReport I node info.lastInsertionLine ev).success = true) :
    OkFrom I R node info.lastInsertionPoint := by
  intro i command start hget hle
  have hcommand : (I.commands node)[i]? = some command := by
    rw [← map_fst_commandIterator (I.commands node) 0, List.getElem?_map, hget]
    rfl
  by_cases hig : command.isIgnored = true
  · exact Or.inl hig
  · obtain ⟨r, hr, _, hstatus⟩ := exists_mem_reportedCommands ev hget
      ((lastInsertionLine_le_iff ht start).mpr hle) (by simpa using hig)
    have hok := (nodeStatusReport_success_iff.mp hs).2.2 r hr
    rw [hstatus] at hok
    have hlt := (List.getElem?_eq_some_iff.mp hcommand).1
    exact okAt_of_verdict hcons hcommand (htracked i hlt) hok

namespace ReplSession

structure ChunkCall where
  isarString : Text
  run : ChunkRun
  inTime : run.RepliesInTime

def ChunkCall.step (I : Isabelle) (channelId : String) (s : ReplSession) (c : ChunkCall) :
    ReplSession := (s.verifyChunk I channelId c.isarString c.run).session

/-- The node of a theory with the chunk inserted, re-parsed as a whole. -/
def ChunkCall.sentNode (I : Isabelle) (s : ReplSession) (c : ChunkCall) (name : Text) : Node :=
  (s.sendEdit I c.run.useTheories c.isarString).session.nodes name

/-- What a run assumes of a call: the statuses are those of the results and are
tracked, and the chunk breaks no earlier command while its own commands succeed. -/
structure Judged (I : Isabelle) (R : CommandResults) (s : ReplSession) (c : ChunkCall) : Prop where
  consistent : ∀ name, s.currentThy = some name →
    ConsistentStatuses I R (c.sentNode I s name) c.run.evaluation.final
  tracked : ∀ name, s.currentThy = some name →
    ∀ i < (I.commands (c.sentNode I s name)).length, (c.run.evaluation.final i).isSome = true
  earlier : ∀ name, s.currentThy = some name →
    OkFrom I R (c.sentNode I s name) (s.nodes name).text.length →
      OkBefore I R (c.sentNode I s name) (s.nodes name).text.length

def CurrentErrorFree (I : Isabelle) (R : CommandResults) (s : ReplSession) : Prop :=
  ∀ name, s.currentThy = some name → ErrorFree I R (s.nodes name)

variable {I : Isabelle} {R : CommandResults} {s : ReplSession}

/-- The insertion point of the edit a begun theory records is the end of the old document. -/
theorem Begun.exists_sent (h : s.Begun) (I : Isabelle) (useTheories : Text → UseResult)
    (isarString : Text) :
    let sent := (s.sendEdit I useTheories isarString).session
    ∃ name info', s.currentThy = some name ∧ sent.currentThy = some name ∧
      sent.thys name = some info' ∧ ThyRepresented name (sent.nodes name) (some info') ∧
      info'.lastInsertionPoint = (s.nodes name).text.length := by
  intro sent
  obtain ⟨name, info, hc, hi, hp⟩ := exists_of_currentThyBegun h.begun
  obtain ⟨hbegun, _, _, hcur, _⟩ := h.sendEdit I useTheories isarString
  set info' := info.recordEdit (insertTextEdit isarString info) info.currentStatus.frame
  have hi' : sent.thys name = some info' := by
    simp only [sent, sendEdit_of_headerProcessed isarString hc hi hp, Function.update_self, info']
  have ht := hbegun.of_thys (hcur.trans hc) hi'
  refine ⟨name, info', hc, hcur.trans hc, hi', ht, ?_⟩
  rw [(h.of_thys hc hi).2.2]
  exact (h.of_thys hc hi).1.current.insertionPoint_eq

structure BegunErrorFree (I : Isabelle) (R : CommandResults) (s : ReplSession) : Prop where
  begun : s.Begun
  errorFree : s.CurrentErrorFree I R

theorem BegunErrorFree.step (hs : s.BegunErrorFree I R) (channelId : String) {c : ChunkCall}
    (hc : Judged I R s c) : (c.step I channelId s).BegunErrorFree I R := by
  obtain ⟨h, hfree⟩ := hs
  obtain ⟨_, _, _, hsession⟩ := h.verifyChunk_cases I channelId c.isarString c.inTime
  obtain ⟨hbegun, _⟩ := h.sendEdit I c.run.useTheories c.isarString
  rw [ChunkCall.step, hsession]
  split_ifs with hs
  · refine ⟨hbegun, fun n hn => ?_⟩
    obtain ⟨name, info', hcur, hcur', hi', ht, hpoint⟩ :=
      h.exists_sent I c.run.useTheories c.isarString
    obtain rfl : name = n := Option.some.inj (hcur'.symm.trans hn)
    rw [chunkStatusReport_of_current I _ hcur' hi'] at hs
    have hown := okFrom_of_success ht (hc.consistent name hcur) (hc.tracked name hcur) hs
    rw [hpoint] at hown
    exact errorFree_of_okBefore_of_okFrom (hc.earlier name hcur hown) hown
  · exact ⟨h, hfree⟩

/-- From a document free of errors every run of judged calls keeps it free of
errors after each call. -/
theorem keptDocument_errorFree (I : Isabelle) (R : CommandResults) (channelId : String)
    (calls : List ChunkCall) (h : s.BegunErrorFree I R)
    (hcalls : Runs.EveryStep (ChunkCall.step I channelId) (Judged I R) s
      calls) :
    Runs.EveryStep (ChunkCall.step I channelId)
      (fun s c => (c.step I channelId s).CurrentErrorFree I R) s calls :=
  Runs.everyStep_of_invariant (fun _ _ hs hc => BegunErrorFree.step hs channelId hc)
    (fun _ _ hs hc => (BegunErrorFree.step hs channelId hc).errorFree) h hcalls

section Example

/-- Results in which exactly the commands that mention `foo` fail. -/
def undefinedFoo : CommandResults := fun _ _ command =>
  if "foo".toList ∈ OuterSyntax.words command.source then .failed else .ok

def failedAt (i : ℕ) : Evaluation where
  before := []
  last j := some ⟨i = j, true, false⟩
  final j := some ⟨i = j, true, false⟩
  results _ := []

def chunkCall (isarString : String) (ev : Evaluation) : ChunkCall where
  isarString := isarString.toList
  run := answeredRun ev
  inTime := answeredRun_inTime ev

/-- The second chunk begins with a word and thereby changes the command of the first. -/
def extendingCalls : List ChunkCall :=
  [chunkCall "declare conjI" finishedEvaluation, chunkCall "foo\ndeclare conjI" (failedAt 2)]

theorem mainSession_errorFree : mainSession.CurrentErrorFree OuterSyntax.isabelle undefinedFoo := by
  intro name hc
  obtain rfl : "A".toList = name := Option.some.inj hc
  intro i command hi
  have hall : ∀ c ∈ OuterSyntax.isabelle.commands (mainSession.nodes "A".toList),
      "foo".toList ∉ OuterSyntax.words c.source := by decide +kernel
  right
  exact if_neg (hall command (List.mem_of_getElem? hi))

theorem consistentStatuses_of_forall {I : Isabelle} {R : CommandResults} {node : Node}
    {statuses : Statuses}
    (h : ∀ i < (I.commands node).length, ∀ command ∈ (I.commands node)[i]?, ∀ st ∈ statuses i,
      command.isIgnored = false →
      (st.isFailed = true → R node.header ((I.commands node).take i) command = .failed) ∧
        (st.isFailed = false → st.maybeConsolidated = true →
          R node.header ((I.commands node).take i) command = .ok)) :
    ConsistentStatuses I R node statuses := by
  intro i command st hi hst hig
  exact h i (List.getElem?_eq_some_iff.mp hi).1 command hi st hst hig

/-- The extended command fails in the kept document although every report was truthful. -/
theorem keptDocument_extended_command_fails :
    mainSession.CurrentErrorFree OuterSyntax.isabelle undefinedFoo ∧
    Runs.EveryStep (ChunkCall.step OuterSyntax.isabelle "c")
      (fun s c => ∀ name, s.currentThy = some name →
        ConsistentStatuses OuterSyntax.isabelle undefinedFoo
          (c.sentNode OuterSyntax.isabelle s name) c.run.evaluation.final)
      mainSession extendingCalls ∧
    ¬ Runs.EveryStep (ChunkCall.step OuterSyntax.isabelle "c")
      (fun s c => (c.step OuterSyntax.isabelle "c" s).CurrentErrorFree OuterSyntax.isabelle
        undefinedFoo) mainSession extendingCalls := by
  refine ⟨mainSession_errorFree, ⟨?_, ?_, trivial⟩, ?_⟩
  · intro name hc
    obtain rfl : "A".toList = name := Option.some.inj hc
    exact consistentStatuses_of_forall (by decide +kernel)
  · intro name hc
    obtain rfl : "A".toList = name := Option.some.inj hc
    exact consistentStatuses_of_forall (by decide +kernel)
  · rintro ⟨_, hfree, _⟩
    have hbad := hfree "A".toList rfl 2
      ⟨.command "declare", "declare conjI\nfoo".toList⟩ (by decide +kernel)
    revert hbad
    unfold OkAt
    decide +kernel

theorem keptDocument_errorFree_declare :
    Runs.EveryStep (ChunkCall.step OuterSyntax.isabelle "c")
      (fun s c => (c.step OuterSyntax.isabelle "c" s).CurrentErrorFree OuterSyntax.isabelle
        undefinedFoo) mainSession [chunkCall "declare conjI" finishedEvaluation] := by
  refine keptDocument_errorFree OuterSyntax.isabelle undefinedFoo "c"
    [chunkCall "declare conjI" finishedEvaluation] ⟨mainSession_begun, mainSession_errorFree⟩
    ⟨⟨?_, ?_, ?_⟩, trivial⟩
  · intro name hc
    obtain rfl : "A".toList = name := Option.some.inj hc
    exact consistentStatuses_of_forall (by decide +kernel)
  · exact fun _ _ _ _ => rfl
  · intro name hc _
    obtain rfl : "A".toList = name := Option.some.inj hc
    exact okBefore_of_prefix (mainSession_errorFree _ rfl) rfl (by decide +kernel)

end Example

end ReplSession
end IsabelleGym
