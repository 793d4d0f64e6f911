import IsabelleGym.PythonStr
import IsabelleGym.ThyStatus

/-!
# The theory texts of the server

The regular expressions with which the server finds the name of a theory and
cuts a complete theory into header, body and `end`, as searches on lists of
characters. The word characters of the `re` module are a parameter.
-/

namespace IsabelleGym
namespace TheoryParsing

open PythonStr

/-- The characters of an unquoted name in `THEORY_RE`. -/
def isNameChar (c : Char) : Bool := c.isAlphanum || "_'.-".toList.contains c

def quote : Char := Char.ofNat 34

def theoryNameAt (line : Text) : Option Text :=
  let t := line.dropWhile fun c => c = ' ' || c = '\t'
  let rest := t.drop 6
  let named := rest.dropWhile isSpace
  if !"theory".toList.isPrefixOf t || named.length = rest.length then none
  else if named.head? = some quote then
    let name := named.tail.takeWhile fun c => c ≠ quote && c ≠ '\n'
    if name.isEmpty || (named.tail.drop name.length).head? ≠ some quote then none else some name
  else
    let name := named.takeWhile isNameChar
    if name.isEmpty then none else some name

def searchTheoryName : Bool → Text → Option Text
  | _, [] => none
  | lineStart, c :: t =>
    ((if lineStart then theoryNameAt (c :: t) else none).or (searchTheoryName (c = '\n') t))

def extractTheoryName (text : Text) : Option Text := searchTheoryName true text

variable (isWord : Char → Bool)

/-- The word stands at the start of the text, where a given character stands before it. -/
def wordAt (word : Text) (before : Option Char) (t : Text) : Bool :=
  !before.any isWord && word.isPrefixOf t && !(t.drop word.length).head?.any isWord

def findWord (word : Text) : Option Char → Text → Option ℕ
  | _, [] => none
  | before, c :: t =>
    if wordAt isWord word before (c :: t) then some 0
    else (findWord word (some c) t).map (· + 1)

/-- The end of the first `begin` behind the first `theory`. -/
def headerEnd (t : Text) : Option ℕ :=
  (findWord isWord "theory".toList none t).bind fun i =>
    (findWord isWord "begin".toList (some 'y') (t.drop (i + 6))).map fun j => i + 6 + j + 5

/-- `_split_complete_theory`; `none` where it raises. -/
def splitCompleteTheory (theoryText : Text) : Option (Text × Text × Text) :=
  let text := strip theoryText
  let endStart := text.length - 3
  match headerEnd isWord text with
  | none => none
  | some headerEnd =>
    if !"end".toList.isSuffixOf text || (text.take endStart).getLast?.any isWord then none
    else if endStart < headerEnd then none
    else some (strip (text.take headerEnd) ++ ['\n'],
      strip ((text.take endStart).drop headerEnd), strip (text.drop endStart))

theorem prefix_of_findWord {isWord : Char → Bool} {word : Text} {before : Option Char} {t : Text}
    {i : ℕ} (h : findWord isWord word before t = some i) : word <+: t.drop i := by
  induction t generalizing before i with
  | nil => cases h
  | cons c t ih =>
    rw [findWord] at h
    split_ifs at h with hw
    · obtain rfl : 0 = i := Option.some.inj h
      simp only [wordAt, Bool.and_eq_true] at hw
      exact List.isPrefixOf_iff_prefix.mp hw.1.2
    · obtain ⟨j, hj, rfl⟩ := Option.map_eq_some_iff.mp h
      exact ih hj

/-- The header of a complete theory is not blank. -/
theorem strip_header_ne_nil {isWord : Char → Bool} {theoryText header body ending : Text}
    (h : splitCompleteTheory isWord theoryText = some (header, body, ending)) :
    strip header ≠ [] := by
  unfold splitCompleteTheory at h
  dsimp only at h
  cases he : headerEnd isWord (strip theoryText) with
  | none =>
    rw [he] at h
    cases h
  | some n =>
    rw [he] at h
    dsimp only at h
    split_ifs at h
    obtain ⟨rfl, _⟩ := Prod.mk.inj (Option.some.inj h)
    rw [strip_concat_of_isSpace (by decide), strip_strip]
    obtain ⟨i, hi, hend⟩ := Option.bind_eq_some_iff.mp he
    obtain ⟨j, _, rfl⟩ := Option.map_eq_some_iff.mp hend
    obtain ⟨rest, hrest⟩ := prefix_of_findWord hi
    intro hnil
    have hmem : 't' ∈ (strip theoryText).take (i + 6 + j + 5) := by
      have hget : (strip theoryText)[i]? = some 't' := by
        rw [← List.head?_drop, ← hrest]
        rfl
      apply List.mem_of_getElem? (i := i)
      rw [List.getElem?_take, if_pos (by omega)]
      exact hget
    have hspace := strip_eq_nil_iff.mp hnil 't' hmem
    revert hspace
    decide

end TheoryParsing
end IsabelleGym
