import IsabelleGym.AttemptPrefix
import IsabelleGym.WordSearch

/-!
# The top-level commands of a theory body

A body is cut in front of a line that starts with a command word, where the lexer
is outside of comments, strings and cartouches. The lexer reads one line after the
other; no delimiter crosses a newline, so it is where it would be after reading all
the lines at once.
-/

namespace IsabelleGym
namespace TheorySplitter

open PythonStr AttemptPrefix

/-- The words behind which `COMMAND_STARTERS` are sorted, longest first. -/
def commandStarterSet : List String := [
  "chapter", "section", "subsection", "subsubsection", "subsubsubsection",
  "paragraph", "subparagraph", "text", "text_raw",
  "context", "locale", "interpretation", "sublocale", "experiment",
  "bundle", "unbundle", "include", "including", "notepad", "named_theorems",
  "lemma", "theorem", "corollary", "proposition", "schematic_goal",
  "definition", "abbreviation", "lemmas", "fun", "function", "primrec",
  "inductive", "inductive_set", "coinductive", "datatype", "codatatype",
  "record", "typedef", "class", "instantiation", "instance",
  "lift_definition", "termination", "consts", "axiomatization",
  "notation", "no_notation", "adhoc_overloading", "no_adhoc_overloading",
  "declare", "syntax", "no_syntax", "translations", "no_translations",
  "typed_print_translation", "print_translation", "parse_translation",
  "print_ast_translation", "parse_ast_translation",
  "hide_const", "hide_fact", "hide_type", "hide_class",
  "term", "typ", "thm", "prop", "value", "values",
  "print_statement", "find_theorems", "print_theorems", "print_record",
  "ML", "ML_file", "SML_export", "setup", "method_setup", "oracle",
  "proof", "qed", "by", "done", "oops", "sorry", "next",
  "fix", "assume", "presume", "case", "note", "let", "write",
  "have", "show", "thus", "hence", "obtain", "guess", "define",
  "then", "from", "with", "using", "unfolding", "supply",
  "moreover", "ultimately", "also", "finally",
  "apply", "apply_end", "subgoal", "defer", "prefer", "back",
  "end"]

def commandStarters : List Text :=
  (commandStarterSet.mergeSort fun s t =>
    t.length < s.length || (s.length = t.length && s ≤ t)).map String.toList

structure LexState where
  commentDepth : ℕ := 0
  inString : Bool := false
  cartoucheDepth : ℕ := 0
  unicodeCartoucheDepth : ℕ := 0
deriving DecidableEq

namespace LexState

def clear (state : LexState) : Bool :=
  state.commentDepth = 0 && !state.inString && state.cartoucheDepth = 0 &&
    state.unicodeCartoucheDepth = 0

end LexState

def backslash : Char := Char.ofNat 92

def opening : Text := backslash :: "<open>".toList

def closing : Text := backslash :: "<close>".toList

def leftQuote : Char := Char.ofNat 0x2039

def rightQuote : Char := Char.ofNat 0x203A

/-- An odd number of backslashes is just before; `before` is the text read so far, backwards. -/
def escapedQuote (before : Text) : Bool :=
  (before.takeWhile fun c => c = backslash).length % 2 = 1

/-- One round of the loop in front of the text `t`: the state, and how far the index moves. -/
def advanceOne (state : LexState) (before t : Text) : LexState × ℕ :=
  if 0 < state.commentDepth then
    if "(*".toList.isPrefixOf t then ({ state with commentDepth := state.commentDepth + 1 }, 2)
    else if "*)".toList.isPrefixOf t then
      ({ state with commentDepth := state.commentDepth - 1 }, 2)
    else (state, 1)
  else if state.inString then
    if t.head? = some TheoryParsing.quote && !escapedQuote before then
      ({ state with inString := false }, 1)
    else (state, 1)
  else if 0 < state.cartoucheDepth then
    if opening.isPrefixOf t then ({ state with cartoucheDepth := state.cartoucheDepth + 1 }, 7)
    else if closing.isPrefixOf t then
      ({ state with cartoucheDepth := state.cartoucheDepth - 1 }, 8)
    else (state, 1)
  else if 0 < state.unicodeCartoucheDepth then
    if t.head? = some leftQuote then
      ({ state with unicodeCartoucheDepth := state.unicodeCartoucheDepth + 1 }, 1)
    else if t.head? = some rightQuote then
      ({ state with unicodeCartoucheDepth := state.unicodeCartoucheDepth - 1 }, 1)
    else (state, 1)
  else if "(*".toList.isPrefixOf t then
    ({ state with commentDepth := state.commentDepth + 1 }, 2)
  else if opening.isPrefixOf t then
    ({ state with cartoucheDepth := state.cartoucheDepth + 1 }, 7)
  else if t.head? = some leftQuote then
    ({ state with unicodeCartoucheDepth := state.unicodeCartoucheDepth + 1 }, 1)
  else if t.head? = some TheoryParsing.quote then ({ state with inString := true }, 1)
  else (state, 1)

/-- The loop behind `before`, with as many characters still to be passed over. -/
def advanceFrom (state : LexState) (before : Text) : ℕ → Text → LexState
  | _, [] => state
  | skip + 1, c :: t => advanceFrom state (c :: before) skip t
  | 0, c :: t =>
    let round := advanceOne state before (c :: t)
    advanceFrom round.1 (c :: before) (round.2 - 1) t

def advanceLexState (state : LexState) (text : Text) : LexState := advanceFrom state [] 0 text

section Splitting

variable (isWord : Char → Bool)

/-- `(\b|\s|\(|$)` behind a word that ends in the given character. -/
def endsThere (last : Option Char) (rest : Text) : Bool :=
  last.any isWord != rest.head?.any isWord || rest.head?.any isSpace || rest.head? = some '(' ||
    rest.isEmpty

def lineStarterKeyword (stripped : Text) : Option Text :=
  if [".", "..", "..."].any fun dots => dots.toList = stripped then some stripped
  else commandStarters.find? fun kw =>
    kw.isPrefixOf stripped && endsThere isWord kw.getLast? (stripped.drop kw.length)

def replaceReturnNewline : Text → Text
  | '\r' :: '\n' :: t => '\n' :: replaceReturnNewline t
  | c :: t => c :: replaceReturnNewline t
  | [] => []

def unixNewlines (t : Text) : Text :=
  (replaceReturnNewline t).map fun c => if c = '\r' then '\n' else c

def blockOf (current : List Text) : List Text :=
  let block := strip (['\n'].intercalate current)
  if block.isEmpty then [] else [block]

/-- The starter of a line that the lexer reaches in the state. -/
def starterOf (state : LexState) (stripped : Text) : Option Text :=
  if state.clear && !stripped.isEmpty then lineStarterKeyword isWord stripped else none

def commandsFrom (state : LexState) (current : List Text) : List Text → List Text
  | [] => blockOf current
  | rawLine :: lines =>
    let line := rstrip rawLine
    let starter := starterOf isWord state (strip line)
    let state' := advanceLexState (advanceLexState state rawLine) ['\n']
    if !current.isEmpty && starter.isSome then
      blockOf current ++ commandsFrom state' [line] lines
    else commandsFrom state' (current ++ [line]) lines

def splitCommands (bodyText : Text) : List Text :=
  let text := strip (unixNewlines bodyText)
  if text.isEmpty then [] else commandsFrom isWord {} [] (text.splitOn '\n')

end Splitting

section Lexer

/-- A line break in front of which every line ends. -/
def isBreak (c : Char) : Bool := c = '\n' || c = '\r'

/-- Nothing, or a line break, is in front. -/
def AtBreak (t : Text) : Prop := ∀ c ∈ t.head?, isBreak c = true

theorem isPrefixOf_append_break {w : Text} (hw : ∀ c ∈ w, isBreak c = false) (a : Text) {b : Text}
    (hb : AtBreak b) : w.isPrefixOf (a ++ b) = w.isPrefixOf a := by
  refine TheoryParsing.isPrefixOf_append_of_head (p := fun c => !isBreak c) ?_ a ?_
  · intro c hc
    rw [hw c hc]
    rfl
  · intro c hc
    rw [hb c hc]
    rfl

theorem length_le_of_isPrefixOf {w t : Text} (h : w.isPrefixOf t = true) : w.length ≤ t.length :=
  (List.isPrefixOf_iff_prefix.mp h).length_le

theorem isBreak_delimiters :
    (∀ c ∈ "(*".toList, isBreak c = false) ∧ (∀ c ∈ "*)".toList, isBreak c = false) ∧
      (∀ c ∈ opening, isBreak c = false) ∧ ∀ c ∈ closing, isBreak c = false := by
  simp [isBreak, opening, closing, backslash]

/-- One round looks only at the line it is in. -/
theorem advanceOne_append_break (state : LexState) (before : Text) (c : Char) (a : Text)
    {b : Text} (hb : AtBreak b) :
    advanceOne state before (c :: a ++ b) = advanceOne state before (c :: a) := by
  obtain ⟨hcomment, hend, hopening, hclosing⟩ := isBreak_delimiters
  rw [advanceOne, advanceOne, isPrefixOf_append_break hcomment _ hb,
    isPrefixOf_append_break hend _ hb, isPrefixOf_append_break hopening _ hb,
    isPrefixOf_append_break hclosing _ hb]
  rfl

/-- One round moves the index, and not beyond the text. -/
theorem advanceOne_snd (state : LexState) (before : Text) (c : Char) (t : Text) :
    1 ≤ (advanceOne state before (c :: t)).2 ∧
      (advanceOne state before (c :: t)).2 ≤ (c :: t).length := by
  have hone : 1 ≤ (c :: t).length := by simp
  rw [advanceOne]
  split_ifs <;> first
    | exact ⟨le_rfl, hone⟩
    | (have hle := length_le_of_isPrefixOf ‹_›; exact ⟨Nat.succ_le_succ (Nat.zero_le _), hle⟩)

theorem escapedQuote_cons_congr {before before' : Text}
    (h : (before.takeWhile fun c => c = backslash).length =
      (before'.takeWhile fun c => c = backslash).length) (c : Char) :
    ((c :: before).takeWhile fun c => c = backslash).length =
      ((c :: before').takeWhile fun c => c = backslash).length := by
  simp only [List.takeWhile_cons]
  split_ifs
  · simp [h]
  · rfl

/-- Of the text before only the backslashes just before matter. -/
theorem advanceFrom_congr {before before' : Text}
    (h : (before.takeWhile fun c => c = backslash).length =
      (before'.takeWhile fun c => c = backslash).length)
    (state : LexState) (skip : ℕ) (t : Text) :
    advanceFrom state before skip t = advanceFrom state before' skip t := by
  induction t generalizing state before before' skip with
  | nil => rw [advanceFrom, advanceFrom]
  | cons c t ih =>
    have hcons := escapedQuote_cons_congr h c
    cases skip with
    | succ skip =>
      rw [advanceFrom, advanceFrom]
      exact ih hcons state skip
    | zero =>
      have hescaped : escapedQuote before = escapedQuote before' := by
        rw [escapedQuote, escapedQuote, h]
      have hround : advanceOne state before (c :: t) = advanceOne state before' (c :: t) := by
        rw [advanceOne, advanceOne, hescaped]
      rw [advanceFrom, advanceFrom, hround]
      exact ih hcons _ _

/-- A text that is cut in front of a line break is read in two parts. -/
theorem advanceFrom_append_break (state : LexState) (before : Text) {skip : ℕ} {a : Text}
    (hskip : skip ≤ a.length) {b : Text} (hb : AtBreak b) :
    advanceFrom state before skip (a ++ b) =
      advanceFrom (advanceFrom state before skip a) (a.reverse ++ before) 0 b := by
  induction a generalizing state before skip with
  | nil =>
    obtain rfl : skip = 0 := Nat.le_zero.mp hskip
    rw [List.nil_append, advanceFrom]
    rfl
  | cons c a ih =>
    have hreverse : (c :: a).reverse ++ before = a.reverse ++ c :: before := by simp
    rw [hreverse]
    cases skip with
    | succ skip =>
      rw [List.cons_append, advanceFrom, advanceFrom]
      exact ih state (c :: before) (by simpa using hskip)
    | zero =>
      have hround := advanceOne_append_break state before c a hb
      have hle := (advanceOne_snd state before c a).2
      rw [List.cons_append] at hround ⊢
      rw [advanceFrom, advanceFrom, hround]
      refine ih _ (c :: before) ?_
      rw [List.length_cons] at hle
      omega

theorem advanceOne_break (state : LexState) (before : Text) {c : Char} (hc : isBreak c = true)
    (t : Text) : advanceOne state before (c :: t) = (state, 1) := by
  have hprefix : ∀ w : Text, w ≠ [] → (∀ d ∈ w, isBreak d = false) →
      w.isPrefixOf (c :: t) = false := by
    intro w hne hw
    have hhead := isPrefixOf_append_break hw [] (b := c :: t) fun d hd => by
      obtain rfl : c = d := by simpa using hd
      exact hc
    rw [List.nil_append] at hhead
    rw [hhead]
    cases w with
    | nil => exact absurd rfl hne
    | cons d w => rfl
  obtain ⟨hcomment, hend, hopening, hclosing⟩ := isBreak_delimiters
  have hquote : ∀ d : Char, isBreak d = false → (some c = some d) = False := by
    intro d hd
    simp only [Option.some_inj, eq_iff_iff, iff_false]
    rintro rfl
    rw [hd] at hc
    cases hc
  rw [advanceOne, hprefix _ (by simp) hcomment, hprefix _ (by simp) hend,
    hprefix _ (by simp [opening]) hopening, hprefix _ (by simp [closing]) hclosing, List.head?_cons]
  simp only [hquote TheoryParsing.quote rfl, hquote leftQuote rfl, hquote rightQuote rfl,
    decide_false, Bool.false_and, Bool.false_eq_true, if_false, ite_self]

/-- Behind a line break the lexer starts over with the state it has. -/
theorem advanceFrom_break (state : LexState) (before : Text) {c : Char} (hc : isBreak c = true)
    (t : Text) : advanceFrom state before 0 (c :: t) = advanceLexState state t := by
  rw [advanceFrom, advanceOne_break state before hc]
  have hne : c ≠ backslash := by
    rintro rfl
    cases hc
  refine advanceFrom_congr ?_ state 0 t
  rw [List.takeWhile_cons_of_neg (by simpa using hne)]
  rfl

/-- A line with its break, and what follows it. -/
theorem advanceLexState_append_break (state : LexState) (a : Text) {c : Char}
    (hc : isBreak c = true) (b : Text) :
    advanceLexState state (a ++ c :: b) = advanceLexState (advanceLexState state a) b := by
  have hb : AtBreak (c :: b) := fun d hd => by
    obtain rfl : c = d := by simpa using hd
    exact hc
  rw [advanceLexState, advanceFrom_append_break state [] (Nat.zero_le _) hb,
    advanceFrom_break _ _ hc, ← advanceLexState]

theorem advanceLexState_newline (state : LexState) : advanceLexState state ['\n'] = state :=
  advanceFrom_break state [] rfl []

/-- The state of the loop behind the lines: each line is read by itself, then a newline. -/
def stateBehind (state : LexState) (lines : List Text) : LexState :=
  lines.foldl (fun state line => advanceLexState (advanceLexState state line) ['\n']) state

/-- Reading line by line is reading the lines at once. -/
theorem stateBehind_eq (state : LexState) (lines : List Text) :
    stateBehind state lines =
      advanceLexState state (lines.flatMap fun line => line ++ ['\n']) := by
  induction lines generalizing state with
  | nil => rfl
  | cons line lines ih =>
    have hassoc : (line :: lines).flatMap (fun line => line ++ ['\n']) =
        line ++ '\n' :: lines.flatMap (fun line => line ++ ['\n']) := by simp
    rw [stateBehind, List.foldl_cons, ← stateBehind, ih, advanceLexState_newline, hassoc,
      advanceLexState_append_break state line rfl]

end Lexer

section Newlines

theorem unixNewlines_return_newline (t : Text) :
    unixNewlines ('\r' :: '\n' :: t) = '\n' :: unixNewlines t := by
  simp [unixNewlines, replaceReturnNewline]

theorem unixNewlines_cons {c : Char} {t : Text} (h : c = '\r' → t.head? ≠ some '\n') :
    unixNewlines (c :: t) = (if c = '\r' then '\n' else c) :: unixNewlines t := by
  rw [unixNewlines, replaceReturnNewline]
  · rfl
  · rintro u hc rfl
    exact h hc rfl

theorem visible_cons (c : Char) (t : Text) :
    visible (c :: t) = (if isSpace c then [] else [c]) ++ visible t := by
  by_cases hc : isSpace c = true <;> simp [visible, hc]

theorem visible_unixNewlines (t : Text) : visible (unixNewlines t) = visible t := by
  fun_induction replaceReturnNewline t with
  | case1 t ih =>
    rw [unixNewlines_return_newline, visible_cons, visible_cons '\r', visible_cons '\n', ih]
    rfl
  | case2 c t hpair ih =>
    have hcons : c = '\r' → t.head? ≠ some '\n' := by
      intro hc hhead
      obtain ⟨u, rfl⟩ := List.head?_eq_some_iff.mp hhead
      exact hpair u hc rfl
    rw [unixNewlines_cons hcons, visible_cons, visible_cons c, ih]
    by_cases hc : c = '\r'
    · subst hc
      rfl
    · rw [if_neg hc]
  | case3 => rfl

/-- The text is cut behind a line break, and not inside a return with a newline. -/
def AtLineStart (before after : Text) : Prop :=
  before.getLast? = some '\n' ∨ before.getLast? = some '\r' ∧ after.head? ≠ some '\n'

theorem unixNewlines_append {a : Text} (ha : ∀ c ∈ a, isBreak c = false) (t : Text) :
    unixNewlines (a ++ t) = a ++ unixNewlines t := by
  induction a with
  | nil => rfl
  | cons c a ih =>
    have hc : c ≠ '\r' := by
      rintro rfl
      cases ha '\r' List.mem_cons_self
    rw [List.cons_append, unixNewlines_cons fun heq => absurd heq hc, if_neg hc,
      ih fun d hd => ha d (List.mem_cons_of_mem c hd), List.cons_append]

/-- Newlines are replaced in two parts where no return is cut off its newline. -/
theorem unixNewlines_append_of_head {a b : Text}
    (h : a.getLast? = some '\r' → b.head? ≠ some '\n') :
    unixNewlines (a ++ b) = unixNewlines a ++ unixNewlines b := by
  fun_induction replaceReturnNewline a with
  | case1 t ih =>
    have hlast : t.getLast? = some '\r' → b.head? ≠ some '\n' := by
      intro ht
      refine h ?_
      rw [List.getLast?_cons, List.getLast?_cons, ht]
      rfl
    rw [List.cons_append, List.cons_append, unixNewlines_return_newline,
      unixNewlines_return_newline, ih hlast, List.cons_append]
  | case2 c t hpair ih =>
    have hcons : c = '\r' → t.head? ≠ some '\n' := by
      intro hc hhead
      obtain ⟨u, rfl⟩ := List.head?_eq_some_iff.mp hhead
      exact hpair u hc rfl
    cases t with
    | nil =>
      have hbehind : c = '\r' → b.head? ≠ some '\n' := fun hc => h (by rw [hc]; rfl)
      rw [List.singleton_append, unixNewlines_cons hbehind, unixNewlines_cons hcons]
      rfl
    | cons d t =>
      have hbehind : c = '\r' → (d :: t ++ b).head? ≠ some '\n' := hcons
      rw [List.cons_append, unixNewlines_cons hbehind, unixNewlines_cons hcons, ih h,
        List.cons_append]
  | case3 => rfl

/-- A text is one line, or a line with its break and the text behind it. -/
theorem exists_line (t : Text) :
    (∀ c ∈ t, isBreak c = false) ∨
      ∃ a c u, t = a ++ c :: u ∧ (∀ d ∈ a, isBreak d = false) ∧ isBreak c = true := by
  induction t with
  | nil => exact Or.inl fun c hc => absurd hc List.not_mem_nil
  | cons c t ih =>
    cases hc : isBreak c with
    | true => exact Or.inr ⟨[], c, t, rfl, fun d hd => absurd hd List.not_mem_nil, hc⟩
    | false =>
      rcases ih with hline | ⟨a, d, u, rfl, ha, hd⟩
      · exact Or.inl (List.forall_mem_cons.mpr ⟨hc, hline⟩)
      · exact Or.inr ⟨c :: a, d, u, rfl, List.forall_mem_cons.mpr ⟨hc, ha⟩, hd⟩

/-- The lexer reads a text and the text with its newlines replaced alike. -/
theorem advanceLexState_unixNewlines (state : LexState) (t : Text) :
    advanceLexState state (unixNewlines t) = advanceLexState state t := by
  induction hn : t.length using Nat.strong_induction_on generalizing state t with
  | _ n ih =>
    subst hn
    rcases exists_line t with hline | ⟨a, c, u, rfl, ha, hc⟩
    · have hsame := unixNewlines_append hline []
      rw [List.append_nil] at hsame
      have hnil : unixNewlines [] = [] := rfl
      rw [hsame, hnil, List.append_nil]
    · rw [unixNewlines_append ha, advanceLexState_append_break state a hc]
      have hlength : u.length < (a ++ c :: u).length := by
        rw [List.length_append, List.length_cons]
        omega
      by_cases hpair : c = '\r' ∧ ∃ v, u = '\n' :: v
      · obtain ⟨rfl, v, rfl⟩ := hpair
        rw [unixNewlines_return_newline, advanceLexState_append_break state a rfl,
          ih v.length (by rw [List.length_cons] at hlength; omega) _ v rfl]
        exact (advanceFrom_break _ [] rfl v).symm
      · have hcons : c = '\r' → u.head? ≠ some '\n' := fun heq hhead =>
          hpair ⟨heq, List.head?_eq_some_iff.mp hhead⟩
        have hnewline : (if c = '\r' then '\n' else c) = '\n' := by
          rcases Bool.or_eq_true_iff.mp hc with h | h
          · rw [of_decide_eq_true h]
            rfl
          · rw [if_pos (of_decide_eq_true h)]
        rw [unixNewlines_cons hcons, hnewline, advanceLexState_append_break state a rfl,
          ih u.length hlength _ u rfl]

theorem AtLineStart.cons {before after : Text} (h : AtLineStart before after) (c : Char) :
    AtLineStart (c :: before) after := by
  rw [AtLineStart, List.getLast?_cons]
  rcases h with h | ⟨h, hafter⟩
  · exact Or.inl (by rw [h]; rfl)
  · exact Or.inr ⟨by rw [h]; rfl, hafter⟩

/-- A text with its newlines replaced that is cut behind a newline comes from a text that is cut at
a line start. -/
theorem exists_cut_unixNewlines {body p r : Text} (h : unixNewlines body = p ++ '\n' :: r) :
    ∃ before after, body = before ++ after ∧ AtLineStart before after ∧
      unixNewlines before = p ++ ['\n'] ∧ unixNewlines after = r := by
  fun_induction replaceReturnNewline body generalizing p with
  | case1 t ih =>
    rw [unixNewlines_return_newline] at h
    cases p with
    | nil =>
      obtain ⟨-, rfl⟩ := List.cons.inj h
      exact ⟨['\r', '\n'], t, rfl, Or.inl rfl, rfl, rfl⟩
    | cons d p =>
      obtain ⟨rfl, ht⟩ := List.cons.inj h
      obtain ⟨before, after, rfl, hstart, hbefore, hafter⟩ := ih ht
      refine ⟨'\r' :: '\n' :: before, after, rfl, (hstart.cons _).cons _, ?_, hafter⟩
      rw [unixNewlines_return_newline, hbefore, List.cons_append]
  | case2 c t hpair ih =>
    have hcons : c = '\r' → t.head? ≠ some '\n' := by
      intro hc hhead
      obtain ⟨u, rfl⟩ := List.head?_eq_some_iff.mp hhead
      exact hpair u hc rfl
    rw [unixNewlines_cons hcons] at h
    cases p with
    | nil =>
      obtain ⟨hc, rfl⟩ := List.cons.inj h
      refine ⟨[c], t, rfl, ?_, ?_, rfl⟩
      · by_cases hreturn : c = '\r'
        · exact Or.inr ⟨by rw [hreturn]; rfl, hcons hreturn⟩
        · rw [if_neg hreturn] at hc
          exact Or.inl (by rw [hc]; rfl)
      · rw [unixNewlines_cons fun _ => by simp, hc]
        rfl
    | cons d p =>
      obtain ⟨hc, ht⟩ := List.cons.inj h
      obtain ⟨before, after, rfl, hstart, hbefore, hafter⟩ := ih ht
      refine ⟨c :: before, after, rfl, hstart.cons c, ?_, hafter⟩
      have hhead : c = '\r' → before.head? ≠ some '\n' := by
        intro hreturn hhead
        refine hcons hreturn ?_
        rw [List.head?_append, hhead]
        rfl
      rw [unixNewlines_cons hhead, hc, hbefore, List.cons_append]
  | case3 =>
    cases p <;> cases h

end Newlines

section Cuts

variable {isWord : Char → Bool}

theorem visible_intercalate (lines : List Text) :
    visible (['\n'].intercalate lines) = lines.flatMap visible := by
  induction lines with
  | nil => rfl
  | cons line lines ih =>
    cases lines with
    | nil => simp
    | cons line' lines =>
      rw [List.intercalate_cons_cons, List.append_assoc, visible_append, visible_append, ih]
      rfl

theorem length_blockOf_le (current : List Text) : (blockOf current).length ≤ 1 := by
  rw [blockOf]
  split_ifs <;> simp

theorem visible_blockOf (current : List Text) :
    (blockOf current).flatMap visible = current.flatMap visible := by
  rw [← visible_intercalate current, blockOf]
  split_ifs with hblank
  · rw [List.isEmpty_iff] at hblank
    rw [← visible_strip (['\n'].intercalate current), hblank]
    rfl
  · rw [List.flatMap_singleton, visible_strip]

theorem visible_commandsFrom (state : LexState) (current lines : List Text) :
    (commandsFrom isWord state current lines).flatMap visible =
      current.flatMap visible ++ lines.flatMap visible := by
  induction lines generalizing state current with
  | nil => rw [commandsFrom, visible_blockOf, List.flatMap_nil, List.append_nil]
  | cons rawLine lines ih =>
    rw [commandsFrom]
    split_ifs
    · rw [List.flatMap_append, visible_blockOf, ih, List.flatMap_singleton, visible_rstrip,
        List.flatMap_cons]
    · rw [ih, List.flatMap_append, List.flatMap_singleton, visible_rstrip, List.flatMap_cons,
        List.append_assoc]

/-- Between two blocks the lines are cut where the lexer is outside of everything. -/
theorem exists_cut_commandsFrom {state : LexState} {current lines left right : List Text}
    (h : commandsFrom isWord state current lines = left ++ right) (hleft : left ≠ [])
    (hright : right ≠ []) :
    ∃ before after, lines = before ++ after ∧ after ≠ [] ∧
      current.flatMap visible ++ before.flatMap visible = left.flatMap visible ∧
      after.flatMap visible = right.flatMap visible ∧
      (stateBehind state before).clear = true := by
  induction lines generalizing state current left with
  | nil =>
    have hlength := congrArg List.length h
    rw [commandsFrom, List.length_append] at hlength
    have hle := length_blockOf_le current
    have hl := List.length_pos_iff.mpr hleft
    have hr := List.length_pos_iff.mpr hright
    omega
  | cons rawLine lines ih =>
    rw [commandsFrom] at h
    split_ifs at h with hcut
    · have hclear : state.clear = true := by
        by_contra hnot
        rw [Bool.not_eq_true] at hnot
        simp [starterOf, hnot] at hcut
      have hblock := visible_blockOf current
      by_cases hhere : left = blockOf current
      · -- The lines are cut here.
        subst hhere
        have hrest := List.append_cancel_left h
        refine ⟨[], rawLine :: lines, rfl, List.cons_ne_nil _ _, ?_, ?_, hclear⟩
        · rw [hblock, List.flatMap_nil, List.append_nil]
        · rw [← hrest, visible_commandsFrom, List.flatMap_singleton, visible_rstrip,
            List.flatMap_cons]
      · obtain ⟨later, hlater, hne⟩ : ∃ later, left = blockOf current ++ later ∧ later ≠ [] := by
          obtain ⟨later, hl, -⟩ | ⟨more, hb, -⟩ := List.append_eq_append_iff.mp h
          · exact ⟨later, hl, fun hnil => hhere (by rw [hl, hnil, List.append_nil])⟩
          · have hlength := congrArg List.length hb
            have hle := length_blockOf_le current
            have hpos := List.length_pos_iff.mpr hleft
            rw [List.length_append] at hlength
            have hnil : more = [] := List.length_eq_zero_iff.mp (by omega)
            exact absurd (by rw [hb, hnil, List.append_nil]) hhere
        rw [hlater, List.append_assoc] at h
        obtain ⟨before, after, rfl, hafter, hleft', hright', hstate⟩ :=
          ih (List.append_cancel_left h) hne
        refine ⟨rawLine :: before, after, rfl, hafter, ?_, hright', hstate⟩
        rw [hlater, List.flatMap_append, hblock, ← hleft', List.flatMap_singleton, visible_rstrip,
          List.flatMap_cons]
    · obtain ⟨before, after, rfl, hafter, hleft', hright', hstate⟩ := ih h hleft
      refine ⟨rawLine :: before, after, rfl, hafter, ?_, hright', hstate⟩
      rw [← hleft', List.flatMap_append, List.flatMap_singleton, visible_rstrip,
        List.flatMap_cons, List.append_assoc]

theorem isPrefixOf_cons_of_isSpace {d : Char} (hd : isSpace d = false) (w : Text) {c : Char}
    (hc : isSpace c = true) (t : Text) : (d :: w).isPrefixOf (c :: t) = false := by
  have hne : d ≠ c := by
    rintro rfl
    rw [hd] at hc
    cases hc
  simp [List.isPrefixOf, hne]

/-- White space in front of a text does not matter. -/
theorem advanceLexState_append_of_isSpace {lead : Text} (h : ∀ c ∈ lead, isSpace c = true)
    (t : Text) : advanceLexState {} (lead ++ t) = advanceLexState {} t := by
  induction lead with
  | nil => rfl
  | cons c lead ih =>
    have hc : isSpace c = true := h c List.mem_cons_self
    have hne : ∀ d : Char, isSpace d = false → c ≠ d := by
      rintro d hd rfl
      rw [hd] at hc
      cases hc
    have hround : advanceOne {} [] (c :: (lead ++ t)) = ({}, 1) := by
      have hcomment : "(*".toList.isPrefixOf (c :: (lead ++ t)) = false :=
        isPrefixOf_cons_of_isSpace rfl ['*'] hc _
      have hopening : opening.isPrefixOf (c :: (lead ++ t)) = false :=
        isPrefixOf_cons_of_isSpace rfl "<open>".toList hc _
      rw [advanceOne, hcomment, hopening, List.head?_cons]
      simp [hne leftQuote rfl, hne TheoryParsing.quote rfl]
    rw [List.cons_append, advanceLexState, advanceFrom, hround,
      ← ih fun d hd => h d (List.mem_cons_of_mem c hd)]
    refine advanceFrom_congr ?_ {} 0 (lead ++ t)
    rw [List.takeWhile_cons_of_neg (by simpa using hne backslash rfl)]
    rfl

theorem intercalate_append {a b : List Text} (hb : b ≠ []) :
    ['\n'].intercalate (a ++ b) =
      (a.flatMap fun line => line ++ ['\n']) ++ ['\n'].intercalate b := by
  induction a with
  | nil => rfl
  | cons line a ih =>
    obtain ⟨line', rest, hrest⟩ :=
      List.exists_cons_of_ne_nil (List.append_ne_nil_of_right_ne_nil a hb)
    rw [List.cons_append, hrest, List.intercalate_cons_cons, ← hrest, ih, List.flatMap_cons]
    simp only [List.append_assoc]

/-- The blocks have the characters of the body that are no white space, in order. Between two
blocks the body is cut at a line start, and the lexer that has read the body up to there at once is
outside of comments, strings and cartouches; read line by line, it is where it is after reading
the lines at once. -/
structure CutsSafely (body : Text) (blocks : List Text) : Prop where
  keeps : blocks.flatMap visible = visible body
  cuts : ∀ left right, blocks = left ++ right → left ≠ [] → right ≠ [] →
    ∃ before after, body = before ++ after ∧ AtLineStart before after ∧
      visible before = left.flatMap visible ∧ visible after = right.flatMap visible ∧
      (advanceLexState {} before).clear = true
  agrees : ∀ lines later, fileLines (strip (unixNewlines body)) = lines ++ later →
    stateBehind {} lines = advanceLexState {} (lines.flatMap fun line => line ++ ['\n'])

theorem splitCommands_cutsSafely (isWord : Char → Bool) (body : Text) :
    CutsSafely body (splitCommands isWord body) := by
  refine ⟨?_, ?_, fun lines _ _ => stateBehind_eq {} lines⟩
  · rw [splitCommands, ← visible_unixNewlines body, ← visible_strip (unixNewlines body)]
    split_ifs with hblank
    · rw [List.isEmpty_iff.mp hblank]
      rfl
    · rw [visible_commandsFrom, List.flatMap_nil, List.nil_append, ← visible_intercalate,
        List.intercalate_splitOn]
  · intro left right h hleft hright
    obtain ⟨lead, trail, hbody, hlead, htrail⟩ := exists_strip (unixNewlines body)
    have htext : ['\n'].intercalate (fileLines (strip (unixNewlines body))) =
        strip (unixNewlines body) := List.intercalate_splitOn '\n'
    obtain ⟨first, rest, hlines⟩ :=
      List.exists_cons_of_ne_nil (List.splitOn_ne_nil '\n' (strip (unixNewlines body)))
    rw [splitCommands, hlines] at h
    split_ifs at h with hblank
    · exact absurd (List.append_eq_nil_iff.mp h.symm).1 hleft
    rw [commandsFrom] at h
    simp only [List.isEmpty_nil, Bool.not_true, Bool.false_and, Bool.false_eq_true, if_false,
      List.nil_append] at h
    obtain ⟨before, after, hrest, hafter, hleft', hright', hclear⟩ :=
      exists_cut_commandsFrom h hleft hright
    -- The lines before the cut, with the first one, and those behind it.
    rw [fileLines, hlines, hrest, ← List.cons_append, intercalate_append hafter,
      ← intercalate_append_newline (List.cons_ne_nil first before)] at htext
    rw [← htext] at hbody
    have hcut : unixNewlines body = (lead ++ ['\n'].intercalate (first :: before)) ++
        '\n' :: (['\n'].intercalate after ++ trail) := by
      rw [hbody]
      simp
    obtain ⟨front, back, rfl, hstart, hfront, hback⟩ := exists_cut_unixNewlines hcut
    refine ⟨front, back, rfl, hstart, ?_, ?_, ?_⟩
    · rw [← visible_unixNewlines, hfront, visible_append, visible_append,
        visible_eq_nil_iff.mpr hlead, visible_intercalate, ← hleft', List.flatMap_singleton,
        visible_rstrip, List.flatMap_cons]
      simp [visible_cons, isSpace]
    · rw [← visible_unixNewlines, hback, visible_append, visible_intercalate,
        visible_eq_nil_iff.mpr htrail, List.append_nil, hright']
    · rw [← advanceLexState_unixNewlines, hfront, List.append_assoc,
        advanceLexState_append_of_isSpace hlead,
        intercalate_append_newline (List.cons_ne_nil first before), ← stateBehind_eq]
      exact hclear

end Cuts

end TheorySplitter
end IsabelleGym
