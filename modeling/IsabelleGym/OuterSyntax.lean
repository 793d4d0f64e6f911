import IsabelleGym.Pide
import Mathlib.Data.List.SplitBy

/-!
# Outer syntax on words

A concrete outer syntax on which the model runs: the tokens of a text are its
words and the blanks between them. Command spans are cut by the two-buffer loop
of Isabelle, so that words without a command of their own join the span before
them.
-/

namespace IsabelleGym
namespace OuterSyntax

def isBlank (c : Char) : Bool := c = ' ' || c = '\n'

/-- The maximal runs of blanks and of other characters. -/
def words (text : Text) : List Text := text.splitBy fun a b => isBlank a == isBlank b

def keywords : List String := ["imports", "begin", "keywords", "abbrevs", "and"]

def bootstrapCommands : List String := ["theory", "chapter", "section", "subsection", "text"]

def commands : List String :=
  bootstrapCommands ++ ["declare", "lemma", "theorem", "context", "end", "proof", "have", "show",
    "qed", "done", "by", "apply", "sorry", "oops", "\\<proof>", "ML_val"]

def token (commands : List String) (word : Text) : Token :=
  if word.all isBlank then ⟨.space, word, word⟩
  else if String.ofList word ∈ keywords then ⟨.keyword, word, word⟩
  else if String.ofList word ∈ commands then ⟨.command, word, word⟩
  else ⟨.ident, word, word⟩

def tokens (commands : List String) (text : Text) : List Token :=
  (words text).map (token commands)

def ship (content : List Token) : Span where
  kind :=
    if content.all (·.kind = .space) then .ignored
    else
      match content.find? (·.kind = .command) with
      | some cmd => .command (String.ofList cmd.source)
      | none => .malformed
  source := content.flatMap Token.source

def flush (content ignored : List Token) : List Span :=
  (if content.isEmpty then [] else [ship content]) ++
    (if ignored.isEmpty then [] else [ship ignored])

/-- The loop over the tokens with its buffers of content and of ignored tokens. Only a
command opens a span. -/
def parseSpans : List Token → List Token → List Token → List Span
  | content, ignored, [] => flush content ignored
  | content, ignored, tok :: toks =>
    if tok.kind = .space then parseSpans content (ignored ++ [tok]) toks
    else if tok.kind = .command then flush content ignored ++ parseSpans [tok] [] toks
    else parseSpans (content ++ ignored ++ [tok]) [] toks

theorem source_token (commands : List String) (word : Text) :
    (token commands word).source = word := by
  unfold token
  split_ifs <;> rfl

theorem source_tokens (commands : List String) (text : Text) :
    (tokens commands text).flatMap Token.source = text := by
  have hmap : (tokens commands text).map Token.source = words text := by
    simp [tokens, Function.comp_def, source_token]
  rw [List.flatMap_def, hmap]
  exact List.flatten_splitBy _ text

theorem source_ne_nil_of_mem_tokens {commands : List String} {text : Text} {tok : Token}
    (h : tok ∈ tokens commands text) : tok.source ≠ [] := by
  obtain ⟨word, hword, rfl⟩ := List.mem_map.mp h
  rw [source_token]
  exact List.ne_nil_of_mem_splitBy hword

theorem source_flush (content ignored : List Token) :
    (flush content ignored).flatMap Span.source =
      content.flatMap Token.source ++ ignored.flatMap Token.source := by
  cases content <;> cases ignored <;> simp [flush, ship]

theorem source_parseSpans (content ignored toks : List Token) :
    (parseSpans content ignored toks).flatMap Span.source =
      (content ++ ignored ++ toks).flatMap Token.source := by
  induction toks generalizing content ignored with
  | nil => simp [parseSpans, source_flush]
  | cons tok toks ih =>
    unfold parseSpans
    split_ifs
    · rw [ih]
      simp
    · rw [List.flatMap_append, source_flush, ih]
      simp
    · rw [ih]
      simp

theorem source_ne_nil_of_mem_flush {content ignored : List Token}
    (hc : ∀ tok ∈ content, tok.source ≠ []) (hi : ∀ tok ∈ ignored, tok.source ≠ [])
    {sp : Span} (h : sp ∈ flush content ignored) : sp.source ≠ [] := by
  cases content <;> cases ignored <;> simp_all [flush, ship]
  rcases h with rfl | rfl <;> simp_all

theorem source_ne_nil_of_mem_parseSpans {content ignored toks : List Token}
    (h : ∀ tok ∈ content ++ ignored ++ toks, tok.source ≠ []) {sp : Span}
    (hsp : sp ∈ parseSpans content ignored toks) : sp.source ≠ [] := by
  induction toks generalizing content ignored with
  | nil =>
    refine source_ne_nil_of_mem_flush (fun tok ht => h tok ?_) (fun tok ht => h tok ?_) hsp <;>
      simp [ht]
  | cons tok toks ih =>
    unfold parseSpans at hsp
    split_ifs at hsp
    · exact ih (fun t ht => h t (by simpa [or_assoc] using ht)) hsp
    · rcases List.mem_append.mp hsp with hflush | hrest
      · refine source_ne_nil_of_mem_flush (fun t ht => h t ?_) (fun t ht => h t ?_) hflush <;>
          simp [ht]
      · refine ih (fun t ht => h t ?_) hrest
        rcases List.mem_append.mp ht with ht | ht
        · simp_all
        · simp [ht]
    · exact ih (fun t ht => h t (by simpa [or_assoc] using ht)) hsp

def parseImports : List Token → Option (List Text)
  | [] => none
  | tok :: toks =>
    if tok.isBegin then some []
    else if tok.isName then (parseImports toks).map (tok.content :: ·)
    else none

/-- `theory NAME begin` or `theory NAME imports NAME … begin`, whatever follows it. -/
def parseHeader (toks : List Token) : Option ThyHeader :=
  match toks.filter (·.kind ≠ .space) with
  | thy :: name :: next :: rest =>
    if thy.isCommand "theory".toList && name.isName then
      if next.isBegin then some ⟨name.content, [], [], []⟩
      else if next.kind = .keyword ∧ next.source = "imports".toList then
        (parseImports rest).bind fun imports =>
          if imports.isEmpty then none else some ⟨name.content, imports, [], []⟩
      else none
    else none
  | _ => none

def replaceAll (a b : Text) : List EditScript.Op :=
  [.delete 0 a.length, .insert a.length 0 b.length]

theorem replaceAll_isScript (a b : Text) : EditScript.IsScript a b (replaceAll a b) := by
  simp [EditScript.IsScript, replaceAll, EditScript.Op.Sorted, EditScript.Op.output]

/-- The line and column of an offset, in a text without carriage returns. -/
def linePosition (text : Text) (offset : ℕ) : LinePosition :=
  ⟨LineCount.lineAt '\n' text offset,
    1 + ((text.take offset).reverse.takeWhile (· ≠ '\n')).length⟩

/-- Isabelle on words, where every import is named by itself and legal. -/
def isabelle : Isabelle where
  thyTokens := tokens bootstrapCommands
  parseHeader := parseHeader
  importName _ name := name
  theoryBaseName name := name
  illegalTheory _ := false
  importHere _ _ := ""
  spans _ text := parseSpans [] [] (tokens commands text)
  spans_source _ text := by
    rw [source_parseSpans]
    exact source_tokens commands text
  spans_source_ne_nil _ _ _ hsp :=
    source_ne_nil_of_mem_parseSpans
      (fun _ ht => source_ne_nil_of_mem_tokens (by simpa using ht)) hsp
  linePosition := linePosition
  diff := replaceAll
  diff_isScript := replaceAll_isScript

/-- Words without a command of their own join the command before them. -/
example : (isabelle.spans none "declare conjI\nfoo\ndeclare conjI\n".toList).map Span.name =
    ["declare", "", "declare", ""] := by decide +kernel

end OuterSyntax
end IsabelleGym
