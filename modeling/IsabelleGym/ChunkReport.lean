import IsabelleGym.OuterSyntax
import IsabelleGym.Representation

/-!
# The wall-bounded status report

The report polls the statuses of all commands until they are settled or the
budget is used up, and then lists the commands that start on the last insertion
line or later. For a represented theory these are the commands that start
behind the text before the last edit.
-/

namespace IsabelleGym

/-- A command's status; `Statuses` gives none once its version is no longer tracked. -/
structure CommandStatus where
  isFailed : Bool
  maybeConsolidated : Bool
  isRunning : Bool
deriving DecidableEq

abbrev Statuses := ℕ → Option CommandStatus

/-- What a report sees of the evaluation: the statuses at each poll before the
deadline, at the poll that finds it passed, and when the report is written,
with the results of the commands. -/
structure Evaluation where
  before : List Statuses
  last : Statuses
  final : Statuses
  results : ℕ → List Message

inductive Verdict
  | ok | failed | running | unprocessed
deriving DecidableEq

inductive Severity
  | error | warning
deriving DecidableEq

structure ReportedCommand where
  i : ℕ
  line : ℕ
  nodeLine : ℕ
  kind : String
  status : Verdict
  messages : List (Severity × Text)
  range : LinePosition × LinePosition
deriving DecidableEq

structure ChunkReport where
  success : Bool
  timedOut : Bool
  usedSorry : Bool
  commands : List ReportedCommand
deriving DecidableEq

def emptyChunkFields : ChunkReport := ⟨false, false, false, []⟩

def settled : Option CommandStatus → Bool
  | none => true
  | some st => st.maybeConsolidated || st.isFailed

def allSettled (commands : List Span) (statuses : Statuses) : Bool :=
  (List.range commands.length).all fun i => settled (statuses i)

/-- The polling loop, with `timed_out` as its value. -/
def pollTimesOut (commands : List Span) : List Statuses → Statuses → Bool
  | [], last => !allSettled commands last
  | poll :: polls, last =>
    if allSettled commands poll then false else pollTimesOut commands polls last

def verdict : Option CommandStatus → Verdict
  | none => .ok
  | some s =>
    if s.isFailed then .failed
    else if s.maybeConsolidated then .ok
    else if s.isRunning then .running
    else .unprocessed

def messageObjs (results : List Message) : List (Severity × Text) :=
  results.filterMap fun m =>
    match m.markup with
    | .error => if m.text.isEmpty then none else some (.error, m.text)
    | .warning => if m.text.isEmpty then none else some (.warning, m.text)
    | _ => none

variable (I : Isabelle) (node : Node) (sinceLine : ℕ) (ev : Evaluation)

def reportCommand : (Span × ℕ) × ℕ → Option ReportedCommand
  | ((command, start), i) =>
    let startLine := node.commandStartLine start
    if startLine < sinceLine || command.isIgnored then none
    else some {
      i
      line := startLine + 1 - sinceLine
      nodeLine := startLine
      kind := command.name
      status := verdict (ev.final i)
      messages := messageObjs (ev.results i)
      range := (I.linePosition node.text start,
        I.linePosition node.text (start + command.source.length)) }

def reportedCommands : List ReportedCommand :=
  (commandIterator (I.commands node) 0).zipIdx.filterMap (reportCommand I node sinceLine ev)

def nodeUsedSorry : Bool :=
  (commandIterator (I.commands node) 0).any fun (command, start) =>
    decide (sinceLine ≤ node.commandStartLine start) && !command.isIgnored &&
      (command.name = "sorry" || command.name = "oops")

def nodeStatusReport : ChunkReport :=
  let timedOut := pollTimesOut (I.commands node) ev.before ev.last
  let commands := reportedCommands I node sinceLine ev
  { success := !timedOut && !commands.isEmpty && commands.all (·.status = .ok)
    timedOut
    usedSorry := nodeUsedSorry I node sinceLine
    commands }

def ReplSession.chunkStatusReport (s : ReplSession) : ChunkReport :=
  match s.currentThy, s.currentThyInfo with
  | some name, some info => nodeStatusReport I (s.nodes name) info.lastInsertionLine ev
  | _, _ => emptyChunkFields

variable {I node sinceLine ev}

theorem chunkStatusReport_of_current (I : Isabelle) (ev : Evaluation) {s : ReplSession}
    {name : Text} {info : ThyInfo}
    (hc : s.currentThy = some name) (hi : s.thys name = some info) :
    s.chunkStatusReport I ev = nodeStatusReport I (s.nodes name) info.lastInsertionLine ev := by
  simp [ReplSession.chunkStatusReport, ReplSession.currentThyInfo, hc, hi]

theorem nodeStatusReport_success_iff :
    (nodeStatusReport I node sinceLine ev).success = true ↔
      (nodeStatusReport I node sinceLine ev).timedOut = false ∧
        (nodeStatusReport I node sinceLine ev).commands ≠ [] ∧
        ∀ c ∈ (nodeStatusReport I node sinceLine ev).commands, c.status = .ok := by
  simp [nodeStatusReport, and_assoc]

theorem reportCommand_eq_some {c : Span} {start i : ℕ} {r : ReportedCommand} :
    reportCommand I node sinceLine ev ((c, start), i) = some r ↔
      (sinceLine ≤ node.commandStartLine start ∧ c.isIgnored = false) ∧
        r = { i
              line := node.commandStartLine start + 1 - sinceLine
              nodeLine := node.commandStartLine start
              kind := c.name
              status := verdict (ev.final i)
              messages := messageObjs (ev.results i)
              range := (I.linePosition node.text start,
                I.linePosition node.text (start + c.source.length)) } := by
  unfold reportCommand
  by_cases h : node.commandStartLine start < sinceLine
  · simp [h, Nat.not_le.mpr h]
  · by_cases hig : c.isIgnored = true
    · simp [hig]
    · simp [h, hig, Nat.le_of_not_lt h, eq_comm]

theorem exists_of_mem_reportedCommands {r : ReportedCommand}
    (h : r ∈ reportedCommands I node sinceLine ev) :
    ∃ c start, (commandIterator (I.commands node) 0)[r.i]? = some (c, start) ∧
      sinceLine ≤ node.commandStartLine start ∧ c.isIgnored = false ∧
      r.nodeLine = node.commandStartLine start ∧ r.kind = c.name ∧
      r.status = verdict (ev.final r.i) ∧ r.range.1 = I.linePosition node.text start := by
  obtain ⟨⟨⟨c, start⟩, i⟩, hmem, hr⟩ := List.mem_filterMap.mp h
  obtain ⟨⟨hline, hig⟩, rfl⟩ := reportCommand_eq_some.mp hr
  exact ⟨c, start, List.mem_zipIdx_iff_getElem?.mp hmem, hline, hig, rfl, rfl, rfl, rfl⟩

theorem exists_mem_reportedCommands (ev : Evaluation) {c : Span} {start i : ℕ}
    (h : (commandIterator (I.commands node) 0)[i]? = some (c, start))
    (hline : sinceLine ≤ node.commandStartLine start) (hig : c.isIgnored = false) :
    ∃ r ∈ reportedCommands I node sinceLine ev, r.i = i ∧ r.status = verdict (ev.final i) := by
  refine ⟨_, List.mem_filterMap.mpr ⟨((c, start), i), List.mem_zipIdx_iff_getElem?.mpr h,
    reportCommand_eq_some.mpr ⟨⟨hline, hig⟩, rfl⟩⟩, rfl, rfl⟩

/-- A poll loop in which no poll finds every command settled ends by the budget. -/
theorem pollTimesOut_of_not_settled {commands : List Span} {polls : List Statuses} {last : Statuses}
    (h : ∀ poll ∈ polls ++ [last], allSettled commands poll = false) :
    pollTimesOut commands polls last = true := by
  induction polls with
  | nil => simpa [pollTimesOut] using h last (by simp)
  | cons poll polls ih =>
    have hfirst := h poll (by simp)
    rw [pollTimesOut, if_neg (by simp [hfirst])]
    exact ih fun q hq => h q (List.mem_cons_of_mem poll hq)

/-- The commands that the report is about: those that start on the given line or later and are not
ignored. -/
def IsReported (I : Isabelle) (node : Node) (sinceLine i : ℕ) : Prop :=
  ∃ c start, (commandIterator (I.commands node) 0)[i]? = some (c, start) ∧
    sinceLine ≤ node.commandStartLine start ∧ c.isIgnored = false

def ConsolidatedIn (statuses : Statuses) (i : ℕ) : Prop :=
  ∃ st, statuses i = some st ∧ st.maybeConsolidated = true ∧ st.isFailed = false

theorem verdict_eq_ok_iff {st : Option CommandStatus} : verdict st = .ok ↔
    st = none ∨ ∃ s, st = some s ∧ s.maybeConsolidated = true ∧ s.isFailed = false := by
  cases st with
  | none => simp [verdict]
  | some s =>
    obtain ⟨failed, consolidated, running⟩ := s
    cases failed <;> cases consolidated <;> cases running <;> simp [verdict]

/-- With success there is a command, and when the report reads the statuses each command is
consolidated and not failed, or no longer tracked. A loop that ends by the budget has no success. -/
theorem nodeStatusReport_sound (I : Isabelle) (node : Node) (sinceLine : ℕ) (ev : Evaluation) :
    ((nodeStatusReport I node sinceLine ev).success = true →
      (nodeStatusReport I node sinceLine ev).commands ≠ [] ∧
        ∀ i, IsReported I node sinceLine i → ev.final i = none ∨ ConsolidatedIn ev.final i) ∧
      ((∀ poll ∈ ev.before ++ [ev.last], allSettled (I.commands node) poll = false) →
        (nodeStatusReport I node sinceLine ev).success = false) := by
  constructor
  · intro hsuccess
    obtain ⟨-, hne, hok⟩ := nodeStatusReport_success_iff.mp hsuccess
    refine ⟨hne, ?_⟩
    rintro i ⟨c, start, hi, hline, hig⟩
    obtain ⟨r, hr, -, hstatus⟩ := exists_mem_reportedCommands ev hi hline hig
    exact verdict_eq_ok_iff.mp (hstatus.symm.trans (hok r hr))
  · intro hpolls
    have hlate : (nodeStatusReport I node sinceLine ev).timedOut = true :=
      pollTimesOut_of_not_settled hpolls
    rw [← Bool.not_eq_true, nodeStatusReport_success_iff, hlate]
    simp

def oneLemma : Node := { text := "lemma".toList }

/-- The command has failed at the poll, and is no longer tracked behind it. -/
def failedThenUntracked : Evaluation where
  before := []
  last := fun _ => some ⟨true, false, false⟩
  final := fun _ => none
  results := fun _ => []

theorem success_of_untracked :
    (nodeStatusReport OuterSyntax.isabelle oneLemma 1 failedThenUntracked).success = true ∧
      IsReported OuterSyntax.isabelle oneLemma 1 0 ∧
      ∀ statuses ∈ failedThenUntracked.before ++
          [failedThenUntracked.last, failedThenUntracked.final], ¬ ConsolidatedIn statuses 0 := by
  refine ⟨by decide, ⟨⟨.command "lemma", "lemma".toList⟩, 0, by decide, by decide, by decide⟩, ?_⟩
  intro statuses hin
  have hcases : statuses = failedThenUntracked.last ∨ statuses = failedThenUntracked.final := by
    simpa [failedThenUntracked] using hin
  rintro ⟨st, hst, hok, -⟩
  rcases hcases with rfl | rfl
  · obtain rfl := Option.some.inj hst
    cases hok
  · cases hst

def ThyInfo.lastInsertionPoint (info : ThyInfo) : ℕ :=
  (info.currentStatus.parent.map ThyStatus.insertionPoint).getD 0

@[simp] theorem ThyInfo.lastInsertionPoint_recordEdit (info : ThyInfo) (e : TextEdit) (f : Frame) :
    (info.recordEdit e f).lastInsertionPoint = info.insertionPoint := rfl

/-- For a represented theory the last insertion line separates the commands
exactly at the last insertion point. -/
theorem lastInsertionLine_le_iff {name : Text} {info : ThyInfo}
    (h : ReplSession.ThyRepresented name node (some info)) (start : ℕ) :
    info.lastInsertionLine ≤ node.commandStartLine start ↔ info.lastInsertionPoint ≤ start := by
  obtain ⟨hwf, _, htext⟩ := h
  have hcur := hwf.current
  cases hs : info.currentStatus with
  | root f =>
    simp [ThyInfo.lastInsertionLine, ThyInfo.lastInsertionPoint, hs, Node.commandStartLine,
      LineCount.lineAt]
  | child f p =>
    rw [hs] at hcur
    obtain ⟨t, _, hchild⟩ := hcur.text_child
    have hline : info.lastInsertionLine = 1 + p.text.count '\n' := by
      simp [ThyInfo.lastInsertionLine, hs, hcur.parent.insertionLine_eq]
    have hpoint : info.lastInsertionPoint = p.text.length := by
      simp [ThyInfo.lastInsertionPoint, hs, hcur.parent.insertionPoint_eq]
    rw [hline, hpoint, Node.commandStartLine, htext, hs, hchild]
    exact LineCount.line_le_lineAt_iff hcur.parent.terminated _ _

end IsabelleGym
