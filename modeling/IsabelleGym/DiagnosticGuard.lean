import Mathlib.Data.Set.Basic
import IsabelleGym.OuterString

/-!
# The guard for diagnostic commands

A command is let through by its leading word, unless a word of the denylist stands
in it anywhere. Isabelle starts a new command at every command keyword outside
strings, cartouches and comments; which words are keywords is a parameter.
-/

namespace IsabelleGym
namespace DiagnosticGuard

open PythonStr TheoryParsing OuterString

/-- The characters that the word boundaries of the denylist go by. -/
def isIdentChar (c : Char) : Bool := c.isAlphanum || "_'".toList.contains c

def isCommandChar (c : Char) : Bool := c.isAlphanum || c = '_'

def allowedExplicit : List Text :=
  ["thm", "prf", "full_prf", "prop", "term", "typ", "help", "welcome", "thy_deps", "class_deps",
    "locale_deps", "thm_deps", "thm_oracles", "unused_thms"].map String.toList

/-- `_ALLOWED_PREFIX_RE` on a word. -/
def hasAllowedPrefix (head : Text) : Bool :=
  ["print_", "find_"].any fun start =>
    start.toList.isPrefixOf head && head.length ≠ start.length &&
      (head.drop start.length).all isCommandChar

def isAllowedDiagnostic (head : Text) : Bool :=
  allowedExplicit.contains head || hasAllowedPrefix head

/-- The words of `_DANGEROUS_RE`. -/
def dangerous : List Text :=
  ["ML", "ML_val", "ML_command", "ML_prf", "ML_file", "ML_file_debug", "ML_file_no_debug",
    "ML_export", "SML_file", "SML_file_debug", "SML_file_no_debug", "SML_export", "SML_import",
    "setup", "local_setup", "declaration", "syntax_declaration", "attribute_setup", "method_setup",
    "simproc_setup", "oracle", "parse_translation", "print_translation",
    "typed_print_translation", "parse_ast_translation", "print_ast_translation", "external_file",
    "generate_file", "compile_generated_files", "export_generated_files",
    "scala_build_generated_files"].map String.toList

def searchDangerous : Option Char → Text → Option Text
  | _, [] => none
  | before, c :: t =>
    (dangerous.find? fun word => wordAt isIdentChar word before (c :: t)).or
      (searchDangerous (some c) t)

def isControl (c : Char) : Bool :=
  let n := c.toNat
  n ≤ 8 || n = 11 || n = 12 || (14 ≤ n && n ≤ 31)

def matchHead (cmd : Text) : Option Text :=
  match cmd.dropWhile isSpace with
  | [] => none
  | c :: t => if c.isAlpha then some (c :: t.takeWhile isCommandChar) else none

def validateDiagnosticCommand (maxLen : ℕ) (command : Text) : Except Text Text :=
  let cmd := strip command
  if cmd.isEmpty then .error "command must not be empty".toList
  else if maxLen < cmd.length then
    .error ("command too long (> ".toList ++ (toString maxLen).toList ++ " chars)".toList)
  else if cmd.any isControl then
    .error "command contains disallowed control characters".toList
  else
    match matchHead cmd with
    | none => .error "command must start with a diagnostic keyword".toList
    | some head =>
      if !isAllowedDiagnostic head then
        .error ("'".toList ++ head ++ "' is not an allowed diagnostic command ".toList ++
          "(expected thm/term/prop/typ/prf, or a print_*/find_* inspector)".toList)
      else
        match searchDangerous none cmd with
        | some word =>
          .error ("command contains a disallowed keyword '".toList ++ word ++
            "' (code-execution / IO commands are not permitted)".toList)
        | none => .ok cmd

section OuterTokens

/-- Where the text is read: outside of everything, in a symbol with a name, a string, a string
with backquotes, a cartouche or a comment inside so many others, or before a character that
belongs to the one before it. -/
inductive Place
  | outside | symbol | string | altString
  | cartouche (depth : ℕ)
  | comment (depth : ℕ)
  | skip (next : Place)
deriving DecidableEq

def backquote : Char := Char.ofNat 96

def Place.next : Place → Char → Text → Place
  | .skip next, _, _ => next
  | .outside, c, t =>
    if c = quote then .string
    else if c = backquote then .altString
    else if c = '‹' || (c = backslash && "<open>".toList.isPrefixOf t) then .cartouche 0
    else if c = backslash && isSymbolRest t then .symbol
    else if c = '(' && t.head? = some '*' then .skip (.comment 0)
    else .outside
  | .symbol, c, _ => if c = '>' then .outside else .symbol
  | .string, c, _ =>
    if c = backslash then .skip .string else if c = quote then .outside else .string
  | .altString, c, _ =>
    if c = backslash then .skip .altString else if c = backquote then .outside else .altString
  | .cartouche depth, c, t =>
    if c = '‹' || (c = backslash && "<open>".toList.isPrefixOf t) then .cartouche (depth + 1)
    else
      match depth with
      | depth + 1 =>
        if c = '›' || (c = backslash && "<close>".toList.isPrefixOf t) then .cartouche depth
        else .cartouche (depth + 1)
      | 0 =>
        if c = '›' then .outside
        else if c = backslash && "<close>".toList.isPrefixOf t then .symbol
        else .cartouche 0
  | .comment depth, c, t =>
    if c = '(' && t.head? = some '*' then .skip (.comment (depth + 1))
    else if c = '*' && t.head? = some ')' then
      .skip (match depth with
        | depth + 1 => .comment depth
        | 0 => .outside)
    else .comment depth

def occursOutside (word : Text) : Place → Option Char → Text → Bool
  | _, _, [] => false
  | place, before, c :: t =>
    (place = .outside && wordAt isIdentChar word before (c :: t)) ||
      occursOutside word (place.next c t) (some c) t

/-- A command keyword of the text, outside of strings, cartouches and comments. -/
def HasKeyword (word cmd : Text) : Prop := occursOutside word .outside none cmd = true

instance (word cmd : Text) : Decidable (HasKeyword word cmd) :=
  inferInstanceAs (Decidable (_ = true))

end OuterTokens

/-- A proof with one of the methods that evaluate ML. -/
def UsesTactic (cmd : Text) : Prop :=
  (HasKeyword "by".toList cmd ∨ HasKeyword "apply".toList cmd) ∧
    (HasKeyword "tactic".toList cmd ∨ HasKeyword "raw_tactic".toList cmd)

/-- The text is only diagnostic commands, given the keywords of commands, and evaluates no ML. -/
structure OnlyDiagnostics (keywords : Set Text) (cmd : Text) : Prop where
  diagnostic : ∀ word ∈ keywords, HasKeyword word cmd → isAllowedDiagnostic word = true
  noMl : ∀ word ∈ dangerous, ¬ HasKeyword word cmd
  noTactic : ¬ UsesTactic cmd

section Search

theorem findWord_of_occursOutside {word : Text} {place : Place} {before : Option Char} {t : Text}
    (h : occursOutside word place before t = true) :
    (findWord isIdentChar word before t).isSome = true := by
  induction t generalizing place before with
  | nil => cases h
  | cons c t ih =>
    rw [occursOutside, Bool.or_eq_true, Bool.and_eq_true] at h
    rw [findWord]
    split_ifs with hat
    · rfl
    · rcases h with ⟨-, hhere⟩ | hrest
      · exact absurd hhere hat
      · rw [Option.isSome_map]
        exact ih hrest

/-- The search finds a word of the denylist wherever one stands. -/
theorem searchDangerous_isSome {word : Text} (hword : word ∈ dangerous) {before : Option Char}
    {t : Text} (h : (findWord isIdentChar word before t).isSome = true) :
    (searchDangerous before t).isSome = true := by
  induction t generalizing before with
  | nil => cases h
  | cons c t ih =>
    rw [findWord] at h
    rw [searchDangerous, Option.isSome_or, Bool.or_eq_true]
    split_ifs at h with hat
    · left
      exact List.find?_isSome.mpr ⟨word, hword, hat⟩
    · right
      rw [Option.isSome_map] at h
      exact ih h

end Search

section Accepted

variable {maxLen : ℕ} {command cmd : Text}

theorem validateDiagnosticCommand_eq_ok_iff :
    validateDiagnosticCommand maxLen command = .ok cmd ↔
      cmd = strip command ∧ cmd ≠ [] ∧ cmd.length ≤ maxLen ∧ cmd.any isControl = false ∧
        (∃ head, matchHead cmd = some head ∧ isAllowedDiagnostic head = true) ∧
        searchDangerous none cmd = none := by
  unfold validateDiagnosticCommand
  dsimp only
  constructor
  · intro h
    split_ifs at h with hempty hlong hcontrol
    split at h
    · cases h
    · rename_i head hhead
      split_ifs at h with hallowed
      split at h
      · cases h
      · rename_i hnone
        obtain rfl := Except.ok.inj h
        exact ⟨rfl, by simpa using hempty, not_lt.mp hlong, by simpa using hcontrol,
          ⟨head, hhead, by simpa using hallowed⟩, hnone⟩
  · rintro ⟨rfl, hne, hshort, hcontrol, ⟨head, hhead, hallowed⟩, hnone⟩
    simp [hne, not_lt.mpr hshort, hcontrol, hhead, hallowed, hnone]

/-- No word of the denylist stands in what is let through, inside or outside. -/
theorem not_hasKeyword_of_dangerous (h : validateDiagnosticCommand maxLen command = .ok cmd)
    {word : Text} (hword : word ∈ dangerous) : ¬ HasKeyword word cmd := by
  intro hin
  have hnone := (validateDiagnosticCommand_eq_ok_iff.mp h).2.2.2.2.2
  have hsome := searchDangerous_isSome hword (findWord_of_occursOutside hin)
  rw [hnone] at hsome
  cases hsome

def commonKeywords : Set Text :=
  {word | isAllowedDiagnostic word = true ∨
    word ∈ ["lemma", "by", "apply", "declare", "end"].map String.toList}

def secondCommand : Text := "thm refl\nlemma True by (tactic ‹all_tac›)".toList

end Accepted

end DiagnosticGuard
end IsabelleGym
