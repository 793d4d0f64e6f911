import IsabelleGym.TheoryParsing

/-!
# The canonical header of a theory

`parse_theory_header` takes the comments out of a text, searches it for the first
header, and cuts the imports out of what is behind the name.
-/

namespace IsabelleGym
namespace TheoryParsing

open PythonStr

/-- `strip_theory_comments` inside as many comments as the depth says. -/
def stripTheoryComments : ℕ → Text → Text
  | _, [] => []
  | depth, '(' :: '*' :: t => stripTheoryComments (depth + 1) t
  | depth + 1, '*' :: ')' :: t => stripTheoryComments depth t
  | 0, c :: t => c :: stripTheoryComments 0 t
  | depth + 1, c :: t =>
    if c = '\n' then '\n' :: stripTheoryComments (depth + 1) t
    else stripTheoryComments (depth + 1) t

def afterTheoryName (line : Text) : Text :=
  let named := ((line.dropWhile fun c => c = ' ' || c = '\t').drop 6).dropWhile isSpace
  if named.head? = some quote then (named.tail.dropWhile fun c => c ≠ quote).tail
  else named.dropWhile isNameChar

def searchTheoryLine : Bool → Text → Option (Text × Text)
  | _, [] => none
  | lineStart, c :: t =>
    (if lineStart then (theoryNameAt (c :: t)).map fun name => (name, afterTheoryName (c :: t))
      else none).or (searchTheoryLine (c = '\n') t)

section Imports

def isImportStart (c : Char) : Bool := c.isAlpha || c = '_'

def isImportChar (c : Char) : Bool := c.isAlphanum || "_./-".toList.contains c

/-- The matches of `_IMPORT_TOKEN_RE` without their quotes, in a text of at most the given
length. -/
def importTokens : ℕ → Text → List Text
  | 0, _ => []
  | _, [] => []
  | n + 1, c :: t =>
    let quoted := t.takeWhile fun d => d ≠ quote
    if c = quote then
      if quoted.isEmpty || (t.drop quoted.length).isEmpty then importTokens n t
      else quoted :: importTokens n (t.drop (quoted.length + 1))
    else if isImportStart c then
      (c :: t.takeWhile isImportChar) :: importTokens n (t.dropWhile isImportChar)
    else importTokens n t

def noise : List Text := ["imports", "begin", "theory", "keywords"].map String.toList

def importsOf (isWord : Char → Bool) (rest : Text) : List Text :=
  match findWord isWord "imports".toList none rest with
  | none => []
  | some i =>
    let after := rest.drop (i + 7)
    let raw := ((findWord isWord "begin".toList none after).map after.take).getD after
    (importTokens raw.length raw).filter fun tok => !tok.isEmpty && !noise.contains tok

end Imports

def parseTheoryHeader (isWord : Char → Bool) (text : Text) : Option Text × List Text :=
  match searchTheoryLine true (stripTheoryComments 0 text) with
  | none => (none, [])
  | some (name, rest) => (some name, importsOf isWord rest)

theorem searchTheoryLine_map_fst (lineStart : Bool) (t : Text) :
    (searchTheoryLine lineStart t).map Prod.fst = searchTheoryName lineStart t := by
  induction t generalizing lineStart with
  | nil => rfl
  | cons c t ih =>
    rw [searchTheoryLine, searchTheoryName, ← ih]
    cases lineStart
    · rfl
    · cases theoryNameAt (c :: t) <;> rfl

/-- The header that the canonical parse finds is the one that the search finds behind the
comments. -/
theorem parseTheoryHeader_fst (isWord : Char → Bool) (text : Text) :
    (parseTheoryHeader isWord text).1 = extractTheoryName (stripTheoryComments 0 text) := by
  rw [extractTheoryName, ← searchTheoryLine_map_fst, parseTheoryHeader]
  split <;> simp_all

end TheoryParsing
end IsabelleGym
