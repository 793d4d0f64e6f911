import IsabelleGym.SplitWords
import IsabelleGym.TheorySplitter
import IsabelleGym.WordSearch

/-!
# Removing document commands from a theory

A theory is split in header, body and `end`, the body in blocks. A block starts
with a word at the beginning of a line, where no comment, cartouche or string is
open; a block whose first word is a document command is left out. What is written
back has the words of the header, of the blocks that are kept, and of the end.
-/

namespace IsabelleGym
namespace CleanTheory

open PythonStr TheorySplitter TheoryParsing

def docCommands : List Text := [
  "chapter", "section", "subsection", "subsubsection", "subsubsubsection",
  "paragraph", "subparagraph", "text", "text_raw"].map String.toList

def prime : Char := Char.ofNat 39

def backtick : Char := Char.ofNat 96

def isKeywordStart (c : Char) : Bool := c.isAlpha || c = '_'

def isKeywordChar (c : Char) : Bool := c.isAlphanum || c = '_' || c = prime

structure Tracker where
  commentDepth : ℕ := 0
  cartoucheDepth : ℕ := 0
  inString : Bool := false
  inBacktick : Bool := false
  lineStart : Bool := true
deriving DecidableEq

/-- The splitter in front of a character: the one before it, and how many are passed over as the
rest of a delimiter. -/
structure Reader where
  state : Tracker := {}
  before : Option Char := none
  skip : ℕ := 0

section Model

variable (isWord isAlpha : Char → Bool)

/-- `split_theory`; `none` where it raises. The header is searched in the text and cut off the
stripped text. -/
def splitTheory (text : Text) : Option (Text × Text × Text) :=
  let stripped := strip text
  let endStart := stripped.length - 3
  match headerEnd isWord text with
  | none => none
  | some headerEnd =>
    if "end".toList.isSuffixOf stripped && !(stripped.take endStart).getLast?.any isWord then
      some (strip (stripped.take headerEnd) ++ ['\n'],
        strip ((stripped.take endStart).drop headerEnd), strip (stripped.drop endStart))
    else none

/-- The longest beginning that ends at a word boundary, of a run that is given backwards. -/
def lastBoundary : Text → Option Char → Option Text
  | [], _ => none
  | c :: run, next =>
    if isWord c != next.any isWord then some (c :: run).reverse else lastBoundary run (some c)

def firstKeyword (command : Text) : Option Text :=
  let t := lstrip command
  if t.head?.any isKeywordStart then
    lastBoundary isWord (t.takeWhile isKeywordChar).reverse (t.dropWhile isKeywordChar).head?
  else none

/-- `starts_word`. A word character is one of `isalnum` or an underscore. -/
def startsWord (before : Option Char) (c : Char) : Bool :=
  (isAlpha c || c = '_') && !(before.any isWord || before = some prime)

/-- One round of the loop: the state, how far the index moves, and whether a block starts. -/
def Tracker.round (state : Tracker) (before : Option Char) (c : Char) (t : Text) :
    Tracker × ℕ × Bool :=
  let text := c :: t
  let unquoted := !state.inString && !state.inBacktick
  let inLine := { state with lineStart := false }
  let passed := { state with lineStart := c = '\n' || state.lineStart && isSpace c }
  if unquoted && "(*".toList.isPrefixOf text then
    ({ inLine with commentDepth := state.commentDepth + 1 }, 2, false)
  else if unquoted && 0 < state.commentDepth && "*)".toList.isPrefixOf text then
    ({ inLine with commentDepth := state.commentDepth - 1 }, 2, false)
  else if 0 < state.commentDepth then (passed, 1, false)
  else if unquoted && opening.isPrefixOf text then
    ({ inLine with cartoucheDepth := state.cartoucheDepth + 1 }, 7, false)
  else if unquoted && 0 < state.cartoucheDepth && closing.isPrefixOf text then
    ({ inLine with cartoucheDepth := state.cartoucheDepth - 1 }, 8, false)
  else if state.cartoucheDepth = 0 && !state.inBacktick && c = quote then
    let escaped := before = some backslash
    ({ inLine with inString := if escaped then state.inString else !state.inString }, 1, false)
  else if state.cartoucheDepth = 0 && !state.inString && c = backtick then
    ({ inLine with inBacktick := !state.inBacktick }, 1, false)
  else
    (passed, 1, state.cartoucheDepth = 0 && unquoted && state.lineStart &&
      startsWord isWord isAlpha before c)

def Reader.step (r : Reader) (c : Char) (t : Text) : Reader × Bool :=
  match r.skip with
  | skip + 1 => ({ r with before := some c, skip := skip }, false)
  | 0 =>
    let round := r.state.round isWord isAlpha r.before c t
    (⟨round.1, some c, round.2.1 - 1⟩, round.2.2)

/-- The text cut in front of the starts; `slice` has been read since the last one. -/
def slicesFrom (r : Reader) (slice : Text) : Text → List Text
  | [] => [slice]
  | c :: t =>
    let next := r.step isWord isAlpha c t
    if next.2 then slice :: slicesFrom next.1 [c] t else slicesFrom next.1 (slice ++ [c]) t

def splitTopLevelCommands (bodyText : Text) : List Text :=
  let s := strip (unixNewlines bodyText)
  if s.isEmpty then []
  else ((slicesFrom isWord isAlpha {} [] s).map strip).filter (!·.isEmpty)

/-- At most two of the newlines of a run. -/
def joinNewlines : ℕ → Text → Text
  | _, [] => []
  | seen, c :: t =>
    if c = '\n' then
      if seen < 2 then c :: joinNewlines (seen + 1) t else joinNewlines seen t
    else c :: joinNewlines 0 t

def normalizeWhitespace (text : Text) : Text :=
  let lines := ((unixNewlines text).splitOn '\n').map rstrip
  strip (joinNewlines 0 (['\n'].intercalate lines)) ++ ['\n']

def isDocBlock (cmd : Text) : Bool := (firstKeyword isWord cmd).any docCommands.contains

/-- `clean_theory`: the text, the number of commands and of those removed. -/
def cleanTheory (text : Text) : Option (Text × ℕ × ℕ) :=
  (splitTheory isWord text).map fun parts =>
    let commands := splitTopLevelCommands isWord isAlpha parts.2.1
    let kept := commands.filter fun cmd => !isDocBlock isWord cmd
    let blank := "\n\n".toList
    let out := rstrip parts.1 ++ blank ++
      (if kept.isEmpty then [] else rstrip (blank.intercalate kept) ++ blank) ++
      parts.2.2 ++ ['\n']
    (normalizeWhitespace out, commands.length,
      (commands.filter fun cmd => isDocBlock isWord cmd).length)

end Model

section Words

/-- Replacing newlines keeps the words, whatever is in front. -/
theorem words_append_unixNewlines (a t : Text) : words (a ++ unixNewlines t) = words (a ++ t) := by
  fun_induction replaceReturnNewline t generalizing a with
  | case1 t ih =>
    have h := ih []
    rw [List.nil_append, List.nil_append] at h
    rw [unixNewlines_return_newline, words_append_cons a rfl, words_append_cons a rfl,
      words_cons_of_isSpace rfl, h]
  | case2 c t hpair ih =>
    have hcons : c = '\r' → t.head? ≠ some '\n' := by
      intro hc hhead
      obtain ⟨u, rfl⟩ := List.head?_eq_some_iff.mp hhead
      exact hpair u hc rfl
    rw [unixNewlines_cons hcons]
    by_cases hc : c = '\r'
    · have h := ih []
      rw [List.nil_append, List.nil_append] at h
      rw [if_pos hc, hc, words_append_cons a rfl, words_append_cons a rfl, h]
    · have h := ih (a ++ [c])
      rw [List.append_assoc, List.append_assoc] at h
      rwa [if_neg hc]
  | case3 => rfl

theorem words_unixNewlines (t : Text) : words (unixNewlines t) = words t :=
  words_append_unixNewlines [] t

/-- Newlines are left out only behind white space. -/
theorem words_append_joinNewlines {seen : ℕ} {a : Text}
    (ha : 2 ≤ seen → ∃ b c, a = b ++ [c] ∧ isSpace c = true) (t : Text) :
    words (a ++ joinNewlines seen t) = words (a ++ t) := by
  induction t generalizing seen a with
  | nil => rfl
  | cons c t ih =>
    rw [joinNewlines]
    split_ifs with hc hseen
    · have hspace : isSpace c = true := by
        rw [hc]
        rfl
      have h : words (a ++ [c] ++ joinNewlines (seen + 1) t) = words (a ++ [c] ++ t) :=
        ih fun _ => ⟨a, c, rfl, hspace⟩
      rwa [List.append_assoc, List.append_assoc] at h
    · obtain ⟨b, d, rfl, hd⟩ := ha (by omega)
      rw [ih fun _ => ⟨b, d, rfl, hd⟩, List.append_assoc, List.append_assoc, List.singleton_append,
        List.singleton_append, words_append_cons b hd, words_append_cons b hd, hc,
        words_cons_of_isSpace rfl]
    · have h : words (a ++ [c] ++ joinNewlines 0 t) = words (a ++ [c] ++ t) := ih (by simp)
      rwa [List.append_assoc, List.append_assoc] at h

theorem words_joinNewlines (t : Text) : words (joinNewlines 0 t) = words t := by
  have h : words ([] ++ joinNewlines 0 t) = words ([] ++ t) :=
    words_append_joinNewlines (by simp) t
  rwa [List.nil_append, List.nil_append] at h

theorem words_normalizeWhitespace (t : Text) : words (normalizeWhitespace t) = words t := by
  have hnewline : ∀ c ∈ ['\n'], isSpace c = true := by simp [isSpace]
  have hlines : ((unixNewlines t).splitOn '\n').flatMap words = words t := by
    rw [← words_intercalate (List.cons_ne_nil _ _) hnewline, List.intercalate_splitOn,
      words_unixNewlines]
  have hrstrip : ∀ lines : List Text, (lines.map rstrip).flatMap words = lines.flatMap words := by
    intro lines
    rw [List.flatMap_map]
    exact congrArg (List.flatMap · lines) (funext words_rstrip)
  rw [normalizeWhitespace, words_append_blank _ hnewline, words_strip, words_joinNewlines,
    words_intercalate (List.cons_ne_nil _ _) hnewline, hrstrip, hlines]

/-- What is written has the words of the header, of the blocks that are kept, and of the end. -/
theorem words_cleanTheory {isWord : Char → Bool} (isAlpha : Char → Bool)
    {text header body endKw : Text} (h : splitTheory isWord text = some (header, body, endKw)) :
    ∃ out, (cleanTheory isWord isAlpha text).map Prod.fst = some out ∧
      words out = words header ++
        ((splitTopLevelCommands isWord isAlpha body).filter
          fun cmd => !isDocBlock isWord cmd).flatMap words ++ words endKw := by
  have hblank : ∀ c ∈ "\n\n".toList, isSpace c = true := by simp [isSpace]
  have hne : "\n\n".toList ≠ [] := by simp
  have hnewline : ∀ c ∈ ['\n'], isSpace c = true := by simp [isSpace]
  rw [cleanTheory, h]
  refine ⟨_, rfl, ?_⟩
  dsimp only
  rw [words_normalizeWhitespace, words_append_blank _ hnewline]
  generalize (splitTopLevelCommands isWord isAlpha body).filter
    (fun cmd => !isDocBlock isWord cmd) = kept
  cases kept with
  | nil =>
    rw [if_pos List.isEmpty_nil, List.append_nil, List.append_assoc,
      words_append_append _ hne hblank, words_rstrip, List.flatMap_nil, List.append_nil]
  | cons cmd kept =>
    rw [if_neg (by simp), List.append_assoc, List.append_assoc,
      words_append_append _ hne hblank, List.append_assoc, words_append_append _ hne hblank,
      words_rstrip, words_rstrip, words_intercalate hne hblank, List.append_assoc]

end Words

section Keyword

variable {isWord : Char → Bool}

theorem isKeywordChar_of_isSpace {c : Char} (hc : isSpace c = true) :
    isKeywordChar c = false := by
  have hbound := toNat_of_isSpace hc
  rw [Bool.eq_false_iff, isKeywordChar]
  intro h
  simp only [Bool.or_eq_true, decide_eq_true_eq] at h
  rcases h with (h | rfl) | rfl
  · have := toNat_of_isAlphanum h
    omega
  · cases hc
  · cases hc

theorem lastBoundary_congr {next next' : Option Char} (h : next.any isWord = next'.any isWord)
    (run : Text) : lastBoundary isWord run next = lastBoundary isWord run next' := by
  cases run with
  | nil => rfl
  | cons c run => rw [lastBoundary, lastBoundary, h]

theorem firstKeyword_blank_append {blank : Text} (hblank : ∀ c ∈ blank, isSpace c = true)
    (t : Text) : firstKeyword isWord (blank ++ t) = firstKeyword isWord t := by
  have hstrip : lstrip (blank ++ t) = lstrip t := by
    rw [lstrip, List.dropWhile_append, List.dropWhile_eq_nil_iff.mpr hblank]
    rfl
  rw [firstKeyword, hstrip, ← firstKeyword]

variable (hchars : WordChars isWord)

include hchars

/-- The first word ends at white space, whatever follows. -/
theorem firstKeyword_append_cons {a : Text} (ha : visible a ≠ []) {c : Char}
    (hc : isSpace c = true) (b : Text) :
    firstKeyword isWord (a ++ c :: b) = firstKeyword isWord a := by
  have hkeyword := isKeywordChar_of_isSpace hc
  have hne : lstrip a ≠ [] := fun hnil =>
    ha (visible_eq_nil_iff.mpr fun d hd => List.dropWhile_eq_nil_iff.mp hnil d hd)
  have hstrip : lstrip (a ++ c :: b) = lstrip a ++ c :: b := by
    rw [lstrip, List.dropWhile_append, ← lstrip, if_neg (by simpa using hne)]
  have htake : (lstrip a ++ c :: b).takeWhile isKeywordChar =
      (lstrip a).takeWhile isKeywordChar := by
    rw [List.takeWhile_append]
    split_ifs with hlength
    · rw [List.takeWhile_cons_of_neg (by simp [hkeyword]), List.append_nil]
      exact (List.IsPrefix.eq_of_length (List.takeWhile_prefix _) hlength).symm
    · rfl
  have hnext : ((lstrip a ++ c :: b).dropWhile isKeywordChar).head?.any isWord =
      ((lstrip a).dropWhile isKeywordChar).head?.any isWord := by
    rw [List.dropWhile_append]
    split_ifs with hempty
    · rw [List.isEmpty_iff.mp hempty, List.dropWhile_cons_of_neg (by simp [hkeyword])]
      exact hchars.space c hc
    · obtain ⟨d, u, hd⟩ : ∃ d u, (lstrip a).dropWhile isKeywordChar = d :: u :=
        List.exists_cons_of_ne_nil fun hnil => hempty (by rw [hnil]; rfl)
      rw [hd, List.cons_append]
      rfl
  rw [firstKeyword, hstrip, htake, List.head?_append_of_ne_nil _ hne, lastBoundary_congr hnext,
    ← firstKeyword]

theorem firstKeyword_append_blank (a : Text) {blank : Text}
    (hblank : ∀ c ∈ blank, isSpace c = true) :
    firstKeyword isWord (a ++ blank) = firstKeyword isWord a := by
  by_cases ha : visible a = []
  · have hnone : ∀ t : Text, (∀ c ∈ t, isSpace c = true) →
        firstKeyword isWord t = firstKeyword isWord [] := by
      intro t ht
      have h : firstKeyword isWord (t ++ []) = firstKeyword isWord [] :=
        firstKeyword_blank_append ht []
      rwa [List.append_nil] at h
    have hall := visible_eq_nil_iff.mp ha
    rw [hnone a hall, hnone (a ++ blank) fun c hc => (List.mem_append.mp hc).elim (hall c)
      (hblank c)]
  · cases blank with
    | nil => rw [List.append_nil]
    | cons c blank => exact firstKeyword_append_cons hchars ha (hblank c List.mem_cons_self) blank

theorem firstKeyword_strip (t : Text) : firstKeyword isWord (strip t) = firstKeyword isWord t := by
  obtain ⟨lead, trail, ht, hlead, htrail⟩ := exists_strip t
  conv_rhs => rw [ht]
  rw [firstKeyword_append_blank hchars _ htrail, firstKeyword_blank_append hlead]

end Keyword

end CleanTheory
end IsabelleGym
