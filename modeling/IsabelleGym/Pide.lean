import IsabelleGym.ThyStatus
import Mathlib.Logic.Function.Basic

/-!
# Document nodes, command spans and the Isabelle side of the REPL

A node holds the text of one theory and the header last sent for it. Isabelle
cuts the text into command spans; the functions of Isabelle and of the diff
library that the REPL calls are the fields of `Isabelle`, each with the
documented behaviour the REPL relies on.
-/

namespace IsabelleGym

structure ThyHeader where
  name : Text
  imports : List Text
  keywords : List Text
  abbrevs : List (Text × Text)
deriving DecidableEq

/-- The header of a document node: the resolved imports with keywords and abbreviations. -/
structure NodeHeader where
  imports : List Text
  keywords : List Text
  abbrevs : List (Text × Text)
deriving DecidableEq

inductive SpanKind
  | command (name : String)
  | ignored
  | malformed
deriving DecidableEq

structure Span where
  kind : SpanKind
  source : Text
deriving DecidableEq

namespace Span

/-- The command name, empty for spans that are no command. -/
def name (sp : Span) : String :=
  match sp.kind with
  | .command name => name
  | _ => ""

def isIgnored (sp : Span) : Bool := sp.kind = .ignored

theorem name_of_isIgnored {sp : Span} (h : sp.isIgnored = true) : sp.name = "" := by
  have hk : sp.kind = .ignored := by simpa [isIgnored] using h
  simp [name, hk]

end Span

inductive Markup
  | writeln | state | error | warning | other
deriving DecidableEq

structure Message where
  markup : Markup
  text : Text
deriving DecidableEq

structure LinePosition where
  line : ℕ
  col : ℕ
deriving DecidableEq

/-- What the REPL calls outside its own sources. -/
structure Isabelle where
  /-- The outer-syntax tokens of a text under the bootstrap keywords. -/
  thyTokens : Text → List Token
  /-- The committed header parser on a token list. -/
  parseHeader : List Token → Option ThyHeader
  /-- `resources.import_name` for an import of a node. -/
  importName : Text → Text → Text
  theoryBaseName : Text → Text
  illegalTheory : Text → Bool
  /-- `Position.here` of an import, by its number in the header of a token list. -/
  importHere : List Token → ℕ → String
  /-- The command spans of a node's text under its header. -/
  spans : Option NodeHeader → Text → List Span
  spans_source : ∀ h t, (spans h t).flatMap Span.source = t
  spans_source_ne_nil : ∀ h t, ∀ sp ∈ spans h t, sp.source ≠ []
  /-- `Line.Document.position` of an offset. -/
  linePosition : Text → ℕ → LinePosition
  /-- The operations of the diff library, sorted by base index. -/
  diff : Text → Text → List EditScript.Op
  diff_isScript : ∀ a b, EditScript.IsScript a b (diff a b)

structure Node where
  text : Text := []
  header : Option NodeHeader := none
  required : Bool := false
deriving DecidableEq

inductive NodeEdit
  | edits (textEdits : List TextEdit)
  | perspective (required : Bool)
  | deps (header : NodeHeader)
deriving DecidableEq

namespace Node

def applyEdit (node : Node) : NodeEdit → Node
  | .edits textEdits => { node with text := EditScript.applyAll textEdits node.text }
  | .perspective required => { node with required }
  | .deps header => { node with header := some header }

def applyEdits (node : Node) (edits : List NodeEdit) : Node := edits.foldl applyEdit node

def commandStartLine (node : Node) (start : ℕ) : ℕ := LineCount.lineAt '\n' node.text start

@[simp] theorem applyEdits_nil (node : Node) : node.applyEdits [] = node := rfl

@[simp] theorem applyEdits_cons (node : Node) (e : NodeEdit) (es : List NodeEdit) :
    node.applyEdits (e :: es) = (node.applyEdit e).applyEdits es := rfl

theorem text_applyEdits_deps (node : Node) (headers : List NodeHeader) :
    (node.applyEdits (headers.map .deps)).text = node.text := by
  induction headers generalizing node with
  | nil => rfl
  | cons h hs ih => exact ih (node.applyEdit (.deps h))

end Node

def commandIterator : List Span → ℕ → List (Span × ℕ)
  | [], _ => []
  | sp :: sps, offset => (sp, offset) :: commandIterator sps (offset + sp.source.length)

@[simp] theorem map_fst_commandIterator (sps : List Span) (offset : ℕ) :
    (commandIterator sps offset).map Prod.fst = sps := by
  induction sps generalizing offset with
  | nil => rfl
  | cons sp sps ih => simp [commandIterator, ih]

theorem exists_split_of_mem_commandIterator {sps : List Span} {offset : ℕ} {sp : Span} {o : ℕ}
    (h : (sp, o) ∈ commandIterator sps offset) :
    ∃ pre post, sps = pre ++ sp :: post ∧ o = offset + (pre.flatMap Span.source).length := by
  induction sps generalizing offset with
  | nil => simp [commandIterator] at h
  | cons sp' sps ih =>
    rcases List.mem_cons.mp h with heq | hmem
    · obtain ⟨rfl, rfl⟩ := Prod.mk.inj heq
      exact ⟨[], sps, rfl, by simp⟩
    · obtain ⟨pre, post, hsplit, ho⟩ := ih hmem
      refine ⟨sp' :: pre, post, by rw [hsplit]; rfl, ?_⟩
      rw [ho, List.flatMap_cons, List.length_append, Nat.add_assoc]

namespace Isabelle

variable (I : Isabelle)

def commands (node : Node) : List Span := I.spans node.header node.text

theorem start_lt_length {node : Node} {sp : Span} {o : ℕ}
    (h : (sp, o) ∈ commandIterator (I.commands node) 0) : o < node.text.length := by
  obtain ⟨pre, post, hsplit, ho⟩ := exists_split_of_mem_commandIterator h
  have hmem : sp ∈ I.spans node.header node.text := by
    have hsplit' : I.spans node.header node.text = pre ++ sp :: post := hsplit
    rw [hsplit']
    simp
  have hpos := List.length_pos_of_ne_nil (I.spans_source_ne_nil _ _ sp hmem)
  have htext := congrArg List.length (I.spans_source node.header node.text)
  have hsplit' : I.spans node.header node.text = pre ++ sp :: post := hsplit
  rw [hsplit', List.flatMap_append, List.flatMap_cons, List.length_append,
    List.length_append] at htext
  omega

end Isabelle
end IsabelleGym
