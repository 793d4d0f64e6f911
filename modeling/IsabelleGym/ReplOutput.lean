import IsabelleGym.Pide

/-!
# The result buffer of a backend call

Results of all commands are written to one buffer, errors and warnings both as
error messages, and are handed out as two texts.
-/

namespace IsabelleGym

inductive ReplMessage
  | output (message : Text)
  | error (message : Text)
deriving DecidableEq

structure ReplResult where
  messageBuffer : List ReplMessage := []
deriving DecidableEq

structure Outputs where
  output : Text
  error : Text
deriving DecidableEq

def stripTrailingNewLine (t : Text) : Text := if t.getLast? = some '\n' then t.dropLast else t

namespace ReplResult

variable (result : ReplResult)

def addOutput (message : Text) : ReplResult :=
  if message.isEmpty then result else ⟨result.messageBuffer ++ [.output message]⟩

def addError (message : Text) : ReplResult :=
  if message.isEmpty then result else ⟨result.messageBuffer ++ [.error message]⟩

def outputTexts : List Text :=
  result.messageBuffer.filterMap fun
    | .output message => some message
    | .error _ => none

def errorTexts : List Text :=
  result.messageBuffer.filterMap fun
    | .error message => some message
    | .output _ => none

def separatedOutput : Outputs where
  output := stripTrailingNewLine (result.outputTexts.flatMap (· ++ ['\n']))
  error := stripTrailingNewLine (result.errorTexts.flatMap (· ++ ['\n']))

end ReplResult

def prettyPrintResult (command : Span) (hideStateMessages : Bool) (result : ReplResult)
    (m : Message) : ReplResult :=
  match m.markup with
  | .writeln => if !hideStateMessages then result.addOutput m.text else result
  | .state =>
    if !(command.isIgnored || hideStateMessages) then result.addOutput m.text else result
  | .error | .warning => result.addError m.text
  | .other => result.addOutput m.text

def prettyPrintResults (command : Span) (hideStateMessages : Bool) (result : ReplResult)
    (results : List Message) : ReplResult :=
  results.foldl (prettyPrintResult command hideStateMessages) result

def outputNodeResults (I : Isabelle) (node : Node) (lastInsertionStartLine : ℕ)
    (results : ℕ → List Message) (result : ReplResult) : ReplResult :=
  (commandIterator (I.commands node) 0).zipIdx.foldl (fun result ((command, start), i) =>
    prettyPrintResults command (node.commandStartLine start < lastInsertionStartLine) result
      (results i)) result

/-- The nonempty error and warning texts among the results of a command. -/
def diagnostics (results : List Message) : List Text :=
  (results.filter fun m => (m.markup = .error || m.markup = .warning) && !m.text.isEmpty).map
    Message.text

def nodeDiagnostics (I : Isabelle) (node : Node) (results : ℕ → List Message) : List Text :=
  (List.range (I.commands node).length).flatMap fun i => diagnostics (results i)

theorem errorTexts_addOutput (result : ReplResult) (t : Text) :
    (result.addOutput t).errorTexts = result.errorTexts := by
  by_cases h : t.isEmpty = true <;> simp [ReplResult.addOutput, ReplResult.errorTexts, h]

theorem errorTexts_prettyPrintResult (command : Span) (hide : Bool) (result : ReplResult)
    (m : Message) :
    (prettyPrintResult command hide result m).errorTexts =
      result.errorTexts ++ diagnostics [m] := by
  unfold prettyPrintResult
  cases hm : m.markup with
  | error | warning =>
    by_cases ht : m.text = [] <;>
      simp [ReplResult.addError, ReplResult.errorTexts, diagnostics, hm, ht]
  | writeln | state =>
    dsimp only
    split_ifs <;> simp [errorTexts_addOutput, diagnostics, hm]
  | other => simp [errorTexts_addOutput, diagnostics, hm]

theorem errorTexts_prettyPrintResults (command : Span) (hide : Bool) (result : ReplResult)
    (results : List Message) :
    (prettyPrintResults command hide result results).errorTexts =
      result.errorTexts ++ diagnostics results := by
  induction results generalizing result with
  | nil => simp [prettyPrintResults, diagnostics]
  | cons m ms ih =>
    have hcons : diagnostics (m :: ms) = diagnostics [m] ++ diagnostics ms := by
      simp only [diagnostics, ← List.map_append, ← List.filter_append, List.singleton_append]
    rw [prettyPrintResults, List.foldl_cons, ← prettyPrintResults, ih,
      errorTexts_prettyPrintResult, hcons, List.append_assoc]

theorem errorTexts_foldl (node : Node) (line : ℕ) (results : ℕ → List Message)
    (commands : List ((Span × ℕ) × ℕ)) (result : ReplResult) :
    (commands.foldl (fun result ((command, start), i) =>
        prettyPrintResults command (node.commandStartLine start < line) result (results i))
      result).errorTexts =
      result.errorTexts ++ commands.flatMap fun c => diagnostics (results c.2) := by
  induction commands generalizing result with
  | nil => simp
  | cons c cs ih =>
    rw [List.foldl_cons, ih, errorTexts_prettyPrintResults, List.flatMap_cons, List.append_assoc]

theorem errorTexts_outputNodeResults (I : Isabelle) (node : Node) (line : ℕ)
    (results : ℕ → List Message) :
    (outputNodeResults I node line results {}).errorTexts = nodeDiagnostics I node results := by
  have hlen : (commandIterator (I.commands node) 0).length = (I.commands node).length := by
    rw [← List.length_map Prod.fst, map_fst_commandIterator]
  rw [outputNodeResults, errorTexts_foldl, nodeDiagnostics, ← hlen, List.range_eq_range',
    ← List.zipIdx_map_snd, List.flatMap_map]
  rfl

end IsabelleGym
