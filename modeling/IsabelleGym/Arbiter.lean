import Mathlib.Data.Rat.Defs
import IsabelleGym.HeaderText
import IsabelleGym.DiagnosticGuard

/-!
# The arbiter of an attempt

A problem is read from a theory with one theorem that ends in `sorry`. The arbiter
takes the final file of an attempt for a solution when two searches of its text and
the build of the server agree. The searches do not know comments and strings, and
the statement of the problem is not compared with anything.
-/

namespace IsabelleGym
namespace Arbiter

open PythonStr TheoryParsing DiagnosticGuard

structure Problem where
  name : Text
  theoremName : Text
  imports : List Text
  statement : Text
  fullText : Text
deriving DecidableEq

section Parse

def splitWords (t : Text) : List Text :=
  (t.splitBy fun a b => isSpace a == isSpace b).filter fun w => !w.any isSpace

def stripChar (c : Char) (t : Text) : Text := (t.dropWhile (· = c)).rdropWhile (· = c)

def normalizeImport (raw : Text) : Text :=
  stripChar (Char.ofNat 39) (stripChar quote (strip raw))

/-- The shortest text of at least one character that white space and `begin` follow. -/
def upToBegin : ℕ → Text → Option Text
  | _, [] => none
  | 0, c :: t => (upToBegin 1 t).map (c :: ·)
  | n + 1, c :: t =>
    if isSpace c && "begin".toList.isPrefixOf (t.dropWhile isSpace) then some []
    else (upToBegin (n + 1) t).map (c :: ·)

/-- `_HEADER_RE` at a place; the white space behind `imports` is taken as long as the rest
allows it. -/
def headerAt (t : Text) : Option (Text × Text) :=
  let named := (t.drop 6).dropWhile isSpace
  let name := named.takeWhile fun c => !isSpace c
  let behind := named.dropWhile fun c => !isSpace c
  let word := behind.dropWhile isSpace
  let gap := (word.drop 7).takeWhile isSpace
  if "theory".toList.isPrefixOf t && (t.drop 6).head?.any isSpace && !name.isEmpty &&
      behind.head?.any isSpace && "imports".toList.isPrefixOf word then
    ((List.range gap.length).reverse.findSome? fun k =>
      upToBegin 0 (word.drop (7 + (k + 1)))).map fun imports => (name, imports)
  else none

def searchHeader : Bool → Text → Option (Text × Text)
  | _, [] => none
  | lineStart, c :: t =>
    (if lineStart then headerAt (c :: t) else none).or (searchHeader (c = '\n') t)

variable (isWord : Char → Bool)

/-- `_THEOREM_RE` at a place, with the name and what stands in front of `sorry`. -/
def theoremAt (t : Text) : Option (Text × Text) :=
  let named := (t.drop 7).dropWhile isSpace
  let run := named.takeWhile fun c => !isSpace c
  if "theorem".toList.isPrefixOf t && (t.drop 7).head?.any isSpace then
    (List.range run.length).reverse.findSome? fun k =>
      let rest := (named.drop (k + 1)).dropWhile isSpace
      if rest.head? = some ':' then
        (findWord isWord "sorry".toList (some ':') rest.tail).map fun j =>
          (run.take (k + 1), t.take (t.length - (rest.length - 1) + j))
      else none
  else none

def searchTheorem : Text → Option (Text × Text)
  | [] => none
  | c :: t => (theoremAt isWord (c :: t)).or (searchTheorem t)

/-- `parse_thy`; `none` where it raises. -/
def parseThy (text : Text) : Option Problem :=
  (searchHeader true text).bind fun (name, imports) =>
    (searchTheorem isWord text).map fun (theoremName, statement) =>
      { name, theoremName, imports := (splitWords imports).map normalizeImport,
        statement := rstrip statement, fullText := text }

end Parse

section Statement

variable {isWord : Char → Bool}

/-- What is read for the statement starts with the word `theorem`, the name and a colon. -/
theorem theoremAt_eq_some {t name statement : Text}
    (h : theoremAt isWord t = some (name, statement)) :
    ∃ gap behind rest, (∀ c ∈ gap, isSpace c = true) ∧ gap ≠ [] ∧
      (∀ c ∈ behind, isSpace c = true) ∧
      statement = "theorem".toList ++ gap ++ name ++ behind ++ ':' :: rest := by
  rw [theoremAt] at h
  dsimp only at h
  split_ifs at h with hstart
  obtain ⟨hstarts, hblank⟩ := Bool.and_eq_true_iff.mp hstart
  obtain ⟨u, rfl⟩ := List.isPrefixOf_iff_prefix.mp hstarts
  have hdrop : ("theorem".toList ++ u).drop 7 = u := by
    change u.drop 0 = u
    rw [List.drop_zero]
  rw [hdrop] at h hblank
  obtain ⟨k, hk, hfound⟩ := List.exists_of_findSome?_eq_some h
  have hlt : k < ((u.dropWhile isSpace).takeWhile fun c => !isSpace c).length := by simpa using hk
  split_ifs at hfound with hcolon
  obtain ⟨j, -, heq⟩ := Option.map_eq_some_iff.mp hfound
  obtain ⟨hname, hstatement⟩ := Prod.mk.inj heq
  obtain ⟨tail, htail⟩ := List.head?_eq_some_iff.mp hcolon
  have hgap : u.takeWhile isSpace ≠ [] := by
    cases u with
    | nil => cases hblank
    | cons c u =>
      rw [List.takeWhile_cons_of_pos (by simpa using hblank)]
      exact List.cons_ne_nil _ _
  have htake : (u.dropWhile isSpace).take (k + 1) = name := by
    obtain ⟨s, hs⟩ := List.takeWhile_prefix (l := u.dropWhile isSpace) fun c => !isSpace c
    rw [← hname]
    conv_lhs => rw [← hs]
    exact List.take_append_of_le_length (by omega)
  have hsplit : "theorem".toList ++ u = ("theorem".toList ++ u.takeWhile isSpace ++ name ++
      ((u.dropWhile isSpace).drop (k + 1)).takeWhile isSpace) ++ ':' :: tail := by
    rw [← htake, ← htail, List.append_assoc, List.append_assoc, List.append_assoc,
      List.takeWhile_append_dropWhile, List.take_append_drop, List.takeWhile_append_dropWhile]
  refine ⟨u.takeWhile isSpace, ((u.dropWhile isSpace).drop (k + 1)).takeWhile isSpace,
    tail.take j, fun c hc => List.mem_takeWhile_imp hc, hgap,
    fun c hc => List.mem_takeWhile_imp hc, ?_⟩
  rw [← hstatement, htail, hsplit]
  generalize "theorem".toList ++ u.takeWhile isSpace ++ name ++
    ((u.dropWhile isSpace).drop (k + 1)).takeWhile isSpace = front
  have hlength : (front ++ ':' :: tail).length - ((':' :: tail).length - 1) + j =
      front.length + (j + 1) := by
    rw [List.length_append, List.length_cons]
    omega
  rw [hlength, List.take_length_add_append, List.take_succ_cons]

theorem theoremAt_of_searchTheorem {t : Text} {found : Text × Text}
    (h : searchTheorem isWord t = some found) : ∃ u, theoremAt isWord u = some found := by
  induction t with
  | nil => cases h
  | cons c t ih =>
    rw [searchTheorem] at h
    rcases Option.or_eq_some_iff.mp h with h | ⟨-, h⟩
    · exact ⟨_, h⟩
    · exact ih h

/-- The statement of a problem starts with the word `theorem`, the name of the problem and a
colon. -/
theorem statement_of_parseThy {text : Text} {p : Problem} (h : parseThy isWord text = some p) :
    ∃ gap behind rest, (∀ c ∈ gap, isSpace c = true) ∧ gap ≠ [] ∧
      (∀ c ∈ behind, isSpace c = true) ∧
      p.statement = "theorem".toList ++ gap ++ p.theoremName ++ behind ++ ':' :: rest := by
  obtain ⟨header, -, h⟩ := Option.bind_eq_some_iff.mp h
  obtain ⟨found, hfound, rfl⟩ := Option.map_eq_some_iff.mp h
  obtain ⟨u, hu⟩ := theoremAt_of_searchTheorem hfound
  obtain ⟨gap, behind, rest, hgap, hne, hbehind, hstatement⟩ := theoremAt_eq_some hu
  obtain ⟨tail, htail⟩ : ∃ tail, rstrip (':' :: rest) = ':' :: tail := by
    by_cases hrest : rstrip rest = []
    · exact ⟨[], by rw [← List.singleton_append, rstrip_append_of_nil hrest]; rfl⟩
    · exact ⟨rstrip rest, by rw [← List.singleton_append, rstrip_append hrest]; rfl⟩
  refine ⟨gap, behind, tail, hgap, hne, hbehind, ?_⟩
  have hrstrip : rstrip (':' :: rest) ≠ [] := by
    rw [htail]
    exact List.cons_ne_nil _ _
  change rstrip found.2 = _
  rw [hstatement, rstrip_append hrstrip, htail]

end Statement

structure BigstepRequest where
  theoryName : Text
  theoryText : Text
  field : Text
  timeout : ℚ
deriving DecidableEq

inductive BigstepReply
  | data (theoryVerified : Bool) (error : Option (Option Text)) (shown : Text)
  | raised (type : Text) (message : Text)

structure Verdict where
  solved : Bool
  error : Option Text
  buildLog : Text
deriving DecidableEq

section Check

variable (isWord : Char → Bool) (server : BigstepRequest → BigstepReply)

def containsSorryParsed (text : Text) : Bool :=
  (findWord isWord "sorry".toList none text).isSome ||
    (findWord isWord "oops".toList none text).isSome

def dependencies : List Text → List Text → List Text
  | deps, [] => deps
  | deps, i :: imports =>
    let parent := i.takeWhile (· ≠ '.')
    if i.contains '.' && !parent.isEmpty && !deps.contains parent && parent ≠ "Main".toList then
      dependencies (deps ++ [parent]) imports
    else dependencies deps imports

def effectiveField (p : Problem) (field : Text) : Text :=
  (dependencies [] p.imports).headD field

def target (p : Problem) : Text := "theorem ".toList ++ p.theoremName

def request (p : Problem) (text field : Text) (budget : ℚ) : BigstepRequest :=
  ⟨p.name, text, effectiveField p field, budget⟩

def check (p : Problem) (path : Text) (file : Option Text) (field : Text) (budget : ℚ) :
    Verdict :=
  match file with
  | none => ⟨false, some ("file not found: ".toList ++ path), []⟩
  | some text =>
    if containsSorryParsed isWord text then
      ⟨false, some "file still contains sorry/oops".toList, []⟩
    else if ¬ target p <:+: text then
      ⟨false, some ("target theorem ".toList ++ p.theoremName ++ " not found".toList), []⟩
    else
      match server (request p text field budget) with
      | .data solved error shown =>
        ⟨solved, if solved then none else error.getD (some "bigstep verification failed".toList),
          shown⟩
      | .raised type message =>
        ⟨false, some ("gym arbiter: ".toList ++ type ++ ": ".toList ++ message), []⟩

end Check

section Target

def placeAt : Place → Text → ℕ → Place
  | place, _, 0 => place
  | place, [], _ => place
  | place, c :: t, i + 1 => placeAt (place.next c t) t i

/-- At the position a theorem with the name starts, outside of comments and strings: behind the
name stands a colon or the bracket of its attributes. -/
structure TheoremAt (name text : Text) (i : ℕ) : Prop where
  outside : placeAt .outside text i = .outside
  before : (text.take i).getLast?.any isIdentChar = false
  named : ∃ gap behind c rest, IsGap gap ∧ gap ≠ [] ∧ IsGap behind ∧ (c = ':' ∨ c = '[') ∧
    text.drop i = "theorem".toList ++ gap ++ name ++ behind ++ c :: rest

/-- The statement stands at the position and a command keyword follows it. -/
def StatedAt (keywords : Set Text) (statement text : Text) (i : ℕ) : Prop :=
  ∃ gap, IsGap gap ∧ (statement ++ gap).getLast?.any isIdentChar = false ∧
    ∃ word ∈ keywords, ∃ rest, rest.head?.any isIdentChar = false ∧
      text.drop i = statement ++ gap ++ word ++ rest

/-- The file proves the theorem of the problem: the build accepts it, and outside of comments and
strings it has the theorem with the name and the statement. -/
def Proves (accepts : BigstepRequest → Prop) (keywords : Set Text) (p : Problem)
    (r : BigstepRequest) : Prop :=
  accepts r ∧ ∃ i, TheoremAt p.theoremName r.theoryText i ∧
    StatedAt keywords p.statement r.theoryText i

end Target

section Sound

variable {isWord : Char → Bool} {server : BigstepRequest → BigstepReply} {p : Problem}
  {path field : Text} {file : Option Text} {budget : ℚ}

/-- Solved is a file without `sorry` and `oops`, with the word `theorem` and the name somewhere in
it, that the server has verified. -/
theorem check_solved_iff : (check isWord server p path file field budget).solved = true ↔
    ∃ text, file = some text ∧ containsSorryParsed isWord text = false ∧ target p <:+: text ∧
      ∃ error shown, server (request p text field budget) = .data true error shown := by
  cases file with
  | none => simp [check]
  | some text =>
    rw [check]
    by_cases hsorry : containsSorryParsed isWord text = true
    · rw [if_pos hsorry]
      refine iff_of_false Bool.false_ne_true ?_
      rintro ⟨t, ht, hnone, -⟩
      rw [← Option.some.inj ht, hsorry] at hnone
      cases hnone
    by_cases htarget : target p <:+: text
    · rw [if_neg hsorry, if_neg (not_not.mpr htarget)]
      rw [Bool.not_eq_true] at hsorry
      cases hserver : server (request p text field budget) with
      | data solved error shown =>
        constructor
        · intro hsolved
          obtain rfl : solved = true := hsolved
          exact ⟨text, rfl, hsorry, htarget, error, shown, hserver⟩
        · rintro ⟨t, ht, -, -, error', shown', heq⟩
          rw [← Option.some.inj ht, hserver] at heq
          exact (BigstepReply.data.inj heq).1
      | raised type message =>
        refine iff_of_false Bool.false_ne_true ?_
        rintro ⟨t, ht, -, -, error', shown', heq⟩
        rw [← Option.some.inj ht, hserver] at heq
        cases heq
    · rw [if_neg hsorry, if_pos htarget]
      refine iff_of_false Bool.false_ne_true ?_
      rintro ⟨t, ht, -, hin, -⟩
      rw [← Option.some.inj ht] at hin
      exact htarget hin

theorem isGap_of_isSpace {gap : Text} (h : ∀ c ∈ gap, isSpace c = true) : IsGap gap := by
  induction gap with
  | nil => exact .nil
  | cons c gap ih =>
    exact .space (h c List.mem_cons_self) (ih fun d hd => h d (List.mem_cons_of_mem c hd))

/-- Where the statement of the problem stands, the theorem of the problem starts. -/
theorem theoremAt_of_statedAt {source text : Text} {keywords : Set Text} {i : ℕ}
    (hp : parseThy isWord source = some p) (hplace : placeAt .outside text i = .outside)
    (hbefore : (text.take i).getLast?.any isIdentChar = false)
    (hstated : StatedAt keywords p.statement text i) : TheoremAt p.theoremName text i := by
  obtain ⟨gap, behind, rest, hgap, hne, hbehind, hstatement⟩ := statement_of_parseThy hp
  obtain ⟨last, -, -, word, -, more, -, htext⟩ := hstated
  refine ⟨hplace, hbefore, gap, behind, ':', rest ++ last ++ word ++ more, isGap_of_isSpace hgap,
    hne, isGap_of_isSpace hbehind, Or.inl rfl, ?_⟩
  rw [htext, hstatement]
  simp only [List.append_assoc, List.cons_append]

/-- A file that the arbiter takes for a solution of a problem is accepted by the build, has neither
`sorry` nor `oops`, and has the word `theorem` and the name somewhere. It proves the theorem of a
problem that was read from a theory just where it has the statement of the problem outside of
comments and strings. -/
theorem solved_sound {accepts : BigstepRequest → Prop} (keywords : Set Text)
    (hserver : ∀ r error shown, server r = .data true error shown → accepts r)
    (h : (check isWord server p path file field budget).solved = true) :
    ∃ text, file = some text ∧ accepts (request p text field budget) ∧
      containsSorryParsed isWord text = false ∧ target p <:+: text ∧
      ∀ source, parseThy isWord source = some p →
        (Proves accepts keywords p (request p text field budget) ↔
          ∃ i, placeAt .outside text i = .outside ∧
            (text.take i).getLast?.any isIdentChar = false ∧
              StatedAt keywords p.statement text i) := by
  obtain ⟨text, hfile, hsorry, htarget, error, shown, hverified⟩ := check_solved_iff.mp h
  have haccepts := hserver _ _ _ hverified
  refine ⟨text, hfile, haccepts, hsorry, htarget, fun source hp => ⟨?_, ?_⟩⟩
  · rintro ⟨-, i, htheorem, hstated⟩
    exact ⟨i, htheorem.outside, htheorem.before, hstated⟩
  · rintro ⟨i, hplace, hbefore, hstated⟩
    exact ⟨haccepts, i, theoremAt_of_statedAt hp hplace hbefore hstated, hstated⟩

end Sound

section Weakened

def problemText : Text :=
  "theory A\n  imports Main\nbegin\ntheorem foo: \"x = (x::nat)\"\n  sorry\nend".toList

/-- The theory with another statement under the name. -/
def weakened : Text :=
  "theory A\n  imports Main\nbegin\ntheorem foo: True\n  by simp\nend".toList

def fooProblem : Problem :=
  ⟨['A'], "foo".toList, ["Main".toList], "theorem foo: \"x = (x::nat)\"".toList, problemText⟩

/-- A server whose build accepts the theory with the other statement, and nothing else. -/
def weakServer (r : BigstepRequest) : BigstepReply := .data (r.theoryText = weakened) none []

theorem accepted_of_weakServer (r : BigstepRequest) (error : Option (Option Text)) (shown : Text)
    (h : weakServer r = .data true error shown) : r.theoryText = weakened :=
  of_decide_eq_true (BigstepReply.data.inj h).1

theorem weakened_solved : (check asciiWordChar weakServer fooProblem [] (some weakened)
    "HOL".toList 900).solved = true := by
  have hsorry : containsSorryParsed asciiWordChar weakened = false := by decide +kernel
  have htarget : target fooProblem <:+: weakened := by decide +kernel
  refine check_solved_iff.mpr ⟨weakened, rfl, hsorry, htarget, none, [], ?_⟩
  rw [weakServer, request, decide_eq_true rfl]

theorem parseThy_problemText : parseThy asciiWordChar problemText = some fooProblem := by
  decide +kernel

theorem solved_sound_weakened : target fooProblem <:+: weakened := by
  obtain ⟨text, htext, -, -, hoccurs, -⟩ :=
    solved_sound ∅ accepted_of_weakServer weakened_solved
  rwa [← Option.some.inj htext] at hoccurs

/-- The problem is read from its theory, and the theory with the other statement is taken for a
solution of it. -/
theorem weakened_taken_for_solved : parseThy asciiWordChar problemText = some fooProblem ∧
    (∀ r error shown, weakServer r = .data true error shown → r.theoryText = weakened) ∧
    (check asciiWordChar weakServer fooProblem [] (some weakened) "HOL".toList 900).solved = true ∧
    ∀ keywords, ¬ Proves (fun r => r.theoryText = weakened) keywords fooProblem
      (request fooProblem weakened "HOL".toList 900) := by
  refine ⟨parseThy_problemText, accepted_of_weakServer, weakened_solved, ?_⟩
  rintro keywords ⟨-, i, -, gap, -, -, word, -, rest, -, hstated⟩
  have hin : fooProblem.statement <:+: weakened := by
    have hstarts : fooProblem.statement <+: weakened.drop i := ⟨gap ++ word ++ rest, by
      rw [← List.append_assoc, ← List.append_assoc]
      exact hstated.symm⟩
    exact hstarts.isInfix.trans (List.drop_suffix i weakened).isInfix
  exact absurd hin (by decide +kernel)

end Weakened

end Arbiter
end IsabelleGym
