import IsabelleGym.TheoryHeader
import IsabelleGym.WordSearch

/-!
# The import tokens of a header

A quoted name gives one token, a bare one gives one when all its characters are those
of the token expression. Names that are separated are read one after the other, and
the search for `begin` passes over them.
-/

namespace IsabelleGym
namespace TheoryParsing

open PythonStr

def tokensOf (t : Text) : List Text := importTokens t.length t

theorem importTokens_of_le {n : ℕ} {t : Text} (h : t.length ≤ n) :
    importTokens n t = tokensOf t := by
  rw [tokensOf]
  induction n using Nat.strong_induction_on generalizing t with
  | _ n ih =>
    cases t with
    | nil => cases n <;> rfl
    | cons c t =>
      obtain ⟨n, rfl⟩ : ∃ k, n = k + 1 := ⟨n - 1, by rw [List.length_cons] at h; omega⟩
      rw [List.length_cons] at h
      have hrec : ∀ u : Text, u.length ≤ t.length → importTokens n u = importTokens t.length u := by
        intro u hu
        rw [ih n (Nat.lt_succ_self n) (by omega)]
        by_cases htn : t.length = n
        · rw [htn, ih n (Nat.lt_succ_self n) (by omega)]
        · rw [ih t.length (by omega) hu]
      rw [List.length_cons, importTokens, importTokens, hrec t le_rfl,
        hrec _ (List.drop_suffix _ _).length_le, hrec _ (List.dropWhile_suffix _).length_le]

theorem tokensOf_cons (c : Char) (t : Text) :
    tokensOf (c :: t) =
      if c = quote then
        if (t.takeWhile fun d => d ≠ quote).isEmpty ||
            (t.drop (t.takeWhile fun d => d ≠ quote).length).isEmpty then tokensOf t
        else (t.takeWhile fun d => d ≠ quote) ::
          tokensOf (t.drop ((t.takeWhile fun d => d ≠ quote).length + 1))
      else if isImportStart c then
        (c :: t.takeWhile isImportChar) :: tokensOf (t.dropWhile isImportChar)
      else tokensOf t := by
  rw [tokensOf, List.length_cons, importTokens, importTokens_of_le le_rfl,
    importTokens_of_le (List.drop_suffix _ _).length_le,
    importTokens_of_le (List.dropWhile_suffix _).length_le]

theorem isImportChar_of_isImportStart {c : Char} (h : isImportStart c = true) :
    isImportChar c = true := by
  rw [isImportStart, Bool.or_eq_true, decide_eq_true_eq] at h
  rcases h with h | rfl
  · have halpha : c.isAlphanum = (c.isAlpha || c.isDigit) := rfl
    rw [isImportChar, halpha, h]
    rfl
  · rfl

theorem isImportChar_quote : isImportChar quote = false := rfl

theorem isImportChar_of_isSpace {c : Char} (h : isSpace c = true) : isImportChar c = false := by
  have hbound := toNat_of_isSpace h
  rw [isImportChar, Bool.or_eq_false_iff]
  constructor
  · rw [Bool.eq_false_iff]
    intro halpha
    have := toNat_of_isAlphanum halpha
    omega
  · rw [Bool.eq_false_iff]
    intro hmem
    have hc : c = '_' ∨ c = '.' ∨ c = '/' ∨ c = '-' := by simpa using hmem
    rcases hc with rfl | rfl | rfl | rfl <;> cases h

/-- A character that no token starts with is passed over. -/
theorem tokensOf_cons_of_not {c : Char} (hquote : c ≠ quote) (hc : isImportChar c = false)
    (t : Text) : tokensOf (c :: t) = tokensOf t := by
  have hstart : isImportStart c = false := by
    rw [Bool.eq_false_iff]
    intro hstart
    rw [isImportChar_of_isImportStart hstart] at hc
    cases hc
  rw [tokensOf_cons, if_neg hquote, hstart]
  rfl

theorem tokensOf_append_of_isSpace {gap : Text} (h : ∀ c ∈ gap, isSpace c = true) (t : Text) :
    tokensOf (gap ++ t) = tokensOf t := by
  induction gap with
  | nil => rfl
  | cons c gap ih =>
    have hc := h c List.mem_cons_self
    have hne : c ≠ quote := by
      rintro rfl
      cases hc
    rw [List.cons_append, tokensOf_cons_of_not hne (isImportChar_of_isSpace hc),
      ih fun d hd => h d (List.mem_cons_of_mem c hd)]

section Names

theorem takeWhile_append_stop {p : Char → Bool} {a : Text} (ha : ∀ c ∈ a, p c = true) {b : Text}
    (hb : ∀ c ∈ b.head?, p c = false) : (a ++ b).takeWhile p = a := by
  rw [List.takeWhile_append_of_pos ha]
  cases b with
  | nil => simp
  | cons c b => simp [hb c rfl]

theorem dropWhile_append_stop {p : Char → Bool} {a : Text} (ha : ∀ c ∈ a, p c = true) {b : Text}
    (hb : ∀ c ∈ b.head?, p c = false) : (a ++ b).dropWhile p = b := by
  rw [List.dropWhile_append_of_pos ha]
  cases b with
  | nil => rfl
  | cons c b => simp [hb c rfl]

theorem tokensOf_quoted {name : Text} (hne : name ≠ []) (hname : quote ∉ name) (t : Text) :
    tokensOf (quote :: (name ++ quote :: t)) = name :: tokensOf t := by
  have htake : (name ++ quote :: t).takeWhile (fun d => d ≠ quote) = name := by
    refine takeWhile_append_stop (fun c hc => decide_eq_true ?_) fun c hc => ?_
    · rintro rfl
      exact hname hc
    · obtain rfl : quote = c := by simpa using hc
      simp
  rw [tokensOf_cons, if_pos rfl, htake, if_neg (by simp [hne])]
  have hdrop : (name ++ quote :: t).drop (name.length + 1) = t := by
    rw [← List.drop_drop, List.drop_left]
    rfl
  rw [hdrop]

theorem tokensOf_bare {c : Char} {name : Text} (hc : isImportStart c = true)
    (hname : ∀ d ∈ name, isImportChar d = true) {t : Text}
    (ht : ∀ d ∈ t.head?, isImportChar d = false) :
    tokensOf (c :: name ++ t) = (c :: name) :: tokensOf t := by
  have hne : c ≠ quote := by
    rintro rfl
    cases hc
  rw [List.cons_append, tokensOf_cons, if_neg hne, if_pos hc, takeWhile_append_stop hname ht,
    dropWhile_append_stop hname ht]

/-- A quote that is not closed is passed over. -/
theorem tokensOf_open {t : Text} (ht : quote ∉ t) : tokensOf (quote :: t) = tokensOf t := by
  have htake : t.takeWhile (fun d => d ≠ quote) = t := by
    rw [List.takeWhile_eq_self_iff]
    intro c hc
    rw [decide_eq_true_eq]
    rintro rfl
    exact ht hc
  rw [tokensOf_cons, if_pos rfl, htake, List.drop_length]
  simp

/-- A token is not longer than its text. -/
theorem length_le_of_mem_tokensOf {t tok : Text} (h : tok ∈ tokensOf t) :
    tok.length ≤ t.length := by
  induction hn : t.length using Nat.strong_induction_on generalizing t with
  | _ n ih =>
    subst hn
    cases t with
    | nil => cases h
    | cons c t =>
      have hrec : ∀ u : Text, u.length ≤ t.length → tok ∈ tokensOf u →
          tok.length ≤ (c :: t).length := by
        intro u hu hmem
        have hle := ih u.length (by rw [List.length_cons]; omega) hmem rfl
        rw [List.length_cons]
        omega
      rw [tokensOf_cons] at h
      split_ifs at h
      · exact hrec t le_rfl h
      · rcases List.mem_cons.mp h with rfl | h
        · have := (List.takeWhile_prefix (l := t) fun d => decide (d ≠ quote)).length_le
          rw [List.length_cons]
          omega
        · exact hrec _ (List.drop_suffix _ _).length_le h
      · rcases List.mem_cons.mp h with rfl | h
        · have := (List.takeWhile_prefix (l := t) isImportChar).length_le
          rw [List.length_cons, List.length_cons]
          omega
        · exact hrec _ (List.dropWhile_suffix _).length_le h
      · exact hrec t le_rfl h

theorem ne_nil_of_mem_tokensOf {t tok : Text} (h : tok ∈ tokensOf t) : tok ≠ [] := by
  induction hn : t.length using Nat.strong_induction_on generalizing t with
  | _ n ih =>
    subst hn
    cases t with
    | nil => cases h
    | cons c t =>
      have hrec : ∀ u : Text, u.length ≤ t.length → tok ∈ tokensOf u → tok ≠ [] := by
        intro u hu hmem
        exact ih u.length (by rw [List.length_cons]; omega) hmem rfl
      rw [tokensOf_cons] at h
      split_ifs at h with _ hempty
      · exact hrec t le_rfl h
      · rcases List.mem_cons.mp h with rfl | h
        · rintro hnil
          rw [hnil] at hempty
          exact hempty rfl
        · exact hrec _ (List.drop_suffix _ _).length_le h
      · rcases List.mem_cons.mp h with rfl | h
        · exact List.cons_ne_nil _ _
        · exact hrec _ (List.dropWhile_suffix _).length_le h
      · exact hrec t le_rfl h

def isBareToken (tok : Text) : Bool := tok.head?.any isImportStart && tok.all isImportChar

/-- How many tokens are none that a bare name gives. -/
def countQuoted (toks : List Text) : ℕ := toks.countP fun tok => !isBareToken tok

/-- Text without quotes gives bare tokens only. -/
theorem countQuoted_tokensOf_append {u t : Text} (hu : quote ∉ u)
    (ht : ∀ d ∈ t.head?, isImportChar d = false) :
    countQuoted (tokensOf (u ++ t)) = countQuoted (tokensOf t) := by
  induction hn : u.length using Nat.strong_induction_on generalizing u with
  | _ n ih =>
    subst hn
    cases u with
    | nil => rfl
    | cons c u =>
      have hne : c ≠ quote := fun heq => hu (by rw [heq]; exact List.mem_cons_self)
      have hrec : ∀ v : Text, v <:+ u →
          countQuoted (tokensOf (v ++ t)) = countQuoted (tokensOf t) := by
        intro v hv
        have hlt : v.length < (c :: u).length := by
          have := hv.length_le
          rw [List.length_cons]
          omega
        exact ih v.length hlt (fun hq => hu (List.mem_cons_of_mem c (hv.subset hq))) rfl
      rw [List.cons_append, tokensOf_cons, if_neg hne]
      split_ifs with hstart
      · have hdrop : (u ++ t).dropWhile isImportChar = u.dropWhile isImportChar ++ t := by
          have hall : ∀ d ∈ u.takeWhile isImportChar, isImportChar d = true :=
            fun d hd => List.mem_takeWhile_imp hd
          have hhead : ∀ d ∈ (u.dropWhile isImportChar ++ t).head?, isImportChar d = false := by
            intro d hd
            cases hrest : u.dropWhile isImportChar with
            | nil => exact ht d (by rwa [hrest] at hd)
            | cons e v =>
              rw [hrest] at hd
              obtain rfl : e = d := by simpa using hd
              have hfirst := List.head_dropWhile_not isImportChar (l := u) (by rw [hrest]; simp)
              simpa [hrest] using hfirst
          conv_lhs => rw [← List.takeWhile_append_dropWhile (p := isImportChar) (l := u)]
          rw [List.append_assoc]
          exact dropWhile_append_stop hall hhead
        have hbare : isBareToken (c :: (u ++ t).takeWhile isImportChar) = true := by
          simp only [isBareToken, List.head?_cons, Option.any_some, hstart, Bool.true_and,
            List.all_cons, isImportChar_of_isImportStart hstart]
          exact List.all_eq_true.mpr fun d hd => List.mem_takeWhile_imp hd
        rw [countQuoted, List.countP_cons_of_neg (by simp [hbare]), hdrop]
        exact hrec _ (List.dropWhile_suffix _)
      · exact hrec u List.suffix_rfl

end Names

inductive ImportName
  | bare (name : Text)
  | quoted (name : Text)
deriving DecidableEq

namespace ImportName

def name : ImportName → Text
  | bare name => name
  | quoted name => name

def text : ImportName → Text
  | bare name => name
  | quoted name => quote :: (name ++ [quote])

def isBare : ImportName → Bool
  | bare _ => true
  | quoted _ => false

theorem count_text {c : Char} (hquote : c ≠ quote) (i : ImportName) :
    i.text.count c = i.name.count c := by
  cases i with
  | bare name => rfl
  | quoted name =>
    rw [text, List.count_cons_of_ne hquote.symm, List.count_append,
      List.count_cons_of_ne hquote.symm]
    rfl

/-- The name is one token of the token expression. -/
def OneToken : ImportName → Prop
  | bare name => name.head?.any isImportStart = true ∧ ∀ d ∈ name, isImportChar d = true
  | quoted name => name ≠ [] ∧ quote ∉ name

/-- The name is read back: it is one token, has no word `begin` in it and is no word of the
header. -/
structure Readable (isWord : Char → Bool) (i : ImportName) : Prop where
  oneToken : i.OneToken
  noBegin : findWord isWord "begin".toList none i.name = none
  notNoise : noise.contains i.name = false

end ImportName

/-- Import names, each behind a gap. -/
abbrev Pieces := List (Text × ImportName)

namespace Pieces

def text (ps : Pieces) : Text := ps.flatMap fun p => p.1 ++ p.2.text

def names (ps : Pieces) : List Text := ps.map fun p => p.2.name

/-- The gaps are white space, and two bare words have one between them; `bare` says whether a bare
word is in front. -/
def Separated : Bool → Pieces → Prop
  | _, [] => True
  | bare, p :: ps =>
    (∀ c ∈ p.1, isSpace c = true) ∧ (bare = true → p.2.isBare = true → p.1 ≠ []) ∧
      Separated p.2.isBare ps

def endsBare : Bool → Pieces → Bool
  | bare, [] => bare
  | _, p :: ps => endsBare p.2.isBare ps

@[simp] theorem text_nil : text [] = [] := rfl

@[simp] theorem text_cons (p : Text × ImportName) (ps : Pieces) :
    text (p :: ps) = p.1 ++ p.2.text ++ text ps := rfl

/-- What follows a bare word is of another kind. -/
theorem head_text {p : Char → Bool} (hspace : ∀ c, isSpace c = true → p c = false)
    (hquote : p quote = false) {ps : Pieces} (h : Separated true ps) {rest : Text}
    (hrest : ps = [] → ∀ c ∈ rest.head?, p c = false) :
    ∀ c ∈ (text ps ++ rest).head?, p c = false := by
  cases ps with
  | nil => exact hrest rfl
  | cons q ps =>
    obtain ⟨gap, i⟩ := q
    obtain ⟨hgap, hbare, -⟩ := h
    cases gap with
    | cons d gap =>
      intro c hc
      obtain rfl : d = c := by simpa using hc
      exact hspace d (hgap d List.mem_cons_self)
    | nil =>
      cases i with
      | bare name => exact absurd rfl (hbare rfl rfl)
      | quoted name =>
        intro c hc
        obtain rfl : quote = c := by simpa [ImportName.text] using hc
        exact hquote

/-- Readable names are read one after the other. -/
theorem tokensOf_text {ps : Pieces}
    (hread : ∀ p ∈ ps, p.2.OneToken) {bare : Bool} (hsep : Separated bare ps) {rest : Text}
    (hrest : endsBare bare ps = true → ∀ c ∈ rest.head?, isImportChar c = false) :
    tokensOf (text ps ++ rest) = names ps ++ tokensOf rest := by
  induction ps generalizing bare with
  | nil => rfl
  | cons p ps ih =>
    obtain ⟨gap, i⟩ := p
    obtain ⟨hgap, -, hps⟩ := hsep
    have hrec := ih (fun q hq => hread q (List.mem_cons_of_mem _ hq)) hps hrest
    have hi := hread (gap, i) List.mem_cons_self
    rw [text_cons, List.append_assoc, List.append_assoc, tokensOf_append_of_isSpace hgap, names,
      List.map_cons, List.cons_append]
    cases i with
    | quoted name =>
      have htext : (ImportName.quoted name).text ++ (text ps ++ rest) =
          quote :: (name ++ quote :: (text ps ++ rest)) := by simp [ImportName.text]
      rw [htext, tokensOf_quoted hi.1 hi.2, hrec]
      rfl
    | bare name =>
      obtain ⟨hstart, hchars⟩ := hi
      cases name with
      | nil => cases hstart
      | cons c name =>
        have hhead := head_text (fun c => isImportChar_of_isSpace) isImportChar_quote hps
          (fun hnil => hrest (by rw [hnil]; rfl))
        have hbare := tokensOf_bare (c := c) hstart
          (fun d hd => hchars d (List.mem_cons_of_mem c hd)) hhead
        change tokensOf (c :: name ++ (text ps ++ rest)) = _
        rw [hbare, hrec]
        rfl

/-- How many of the names are none that a bare name gives, and stand in quotes. -/
def quotedNames (ps : Pieces) : ℕ := ps.countP fun p => !p.2.isBare && !isBareToken p.2.name

/-- A bare name that is no bare token is one more. -/
theorem quotedNames_lt {ps : Pieces} {gap name : Text} (h : (gap, .bare name) ∈ ps)
    (hname : isBareToken name = false) : quotedNames ps < countQuoted (names ps) := by
  have hle : ∀ qs : Pieces, quotedNames qs ≤ countQuoted (names qs) := by
    intro qs
    rw [quotedNames, countQuoted, names, List.countP_map]
    exact List.countP_mono_left fun p _ hp => (Bool.and_eq_true_iff.mp hp).2
  obtain ⟨a, b, rfl⟩ := List.append_of_mem h
  have ha := hle a
  have hb := hle b
  have hodd : countQuoted [name] = 1 := by simp [countQuoted, hname]
  have hnames : countQuoted (names (a ++ (gap, .bare name) :: b)) =
      countQuoted (names a) + (countQuoted [name] + countQuoted (names b)) := by
    rw [names, List.map_append, List.map_cons, countQuoted, List.countP_append,
      ← List.singleton_append, List.countP_append]
    rfl
  have hquoted : quotedNames (a ++ (gap, .bare name) :: b) = quotedNames a + quotedNames b := by
    simp [quotedNames, ImportName.isBare]
  omega

/-- Names that are cut off somewhere give, beside bare tokens, at most the quoted names, whatever
gaps are between them. -/
theorem countQuoted_tokensOf_take {ps : Pieces}
    (hquote : ∀ p ∈ ps, p.2.name ≠ [] ∧ quote ∉ p.2.name) (hgap : ∀ p ∈ ps, quote ∉ p.1)
    {u rest : Text} (hu : quote ∉ u) (hrest : quote ∉ rest) (m : ℕ) :
    countQuoted (tokensOf ((u ++ (text ps ++ rest)).take m)) ≤ quotedNames ps := by
  have hfree : ∀ t : Text, quote ∉ t → countQuoted (tokensOf t) = 0 := by
    intro t ht
    have hnone := countQuoted_tokensOf_append ht (t := []) (by simp)
    rwa [List.append_nil] at hnone
  induction ps generalizing u m with
  | nil =>
    rw [text_nil, List.nil_append, hfree]
    · exact Nat.zero_le _
    · intro hmem
      rcases List.mem_append.mp (List.mem_of_mem_take hmem) with hmem | hmem
      · exact hu hmem
      · exact hrest hmem
  | cons p ps ih =>
    obtain ⟨gap, i⟩ := p
    obtain ⟨hne, hi⟩ := hquote (gap, i) List.mem_cons_self
    have hgapquote := hgap (gap, i) List.mem_cons_self
    have hrec : ∀ {v : Text}, quote ∉ v → ∀ m,
        countQuoted (tokensOf ((v ++ (text ps ++ rest)).take m)) ≤ quotedNames ps :=
      fun hv m => ih (fun q hq => hquote q (List.mem_cons_of_mem _ hq))
        (fun q hq => hgap q (List.mem_cons_of_mem _ hq)) hv m
    have hugap : quote ∉ u ++ gap := fun hmem => (List.mem_append.mp hmem).elim hu hgapquote
    cases i with
    | bare name =>
      have htext : u ++ (text ((gap, .bare name) :: ps) ++ rest) =
          (u ++ gap ++ name) ++ (text ps ++ rest) := by simp [ImportName.text]
      have hcount : quotedNames ((gap, .bare name) :: ps) = quotedNames ps := by
        simp [quotedNames, ImportName.isBare]
      rw [htext, hcount]
      exact hrec (fun hmem => (List.mem_append.mp hmem).elim hugap hi) m
    | quoted name =>
      have hne : name ≠ [] := hne
      have hi : quote ∉ name := hi
      have htext : u ++ (text ((gap, .quoted name) :: ps) ++ rest) =
          (u ++ gap) ++ quote :: (name ++ quote :: (text ps ++ rest)) := by simp [ImportName.text]
      have hcount : quotedNames ((gap, .quoted name) :: ps) =
          quotedNames ps + countQuoted [name] := by
        simp [quotedNames, countQuoted, ImportName.isBare, ImportName.name, List.countP_cons]
      have hfront : quote ∉ (u ++ gap).take m := fun hmem => hugap (List.mem_of_mem_take hmem)
      have hhead : ∀ k, ∀ c ∈ ((quote :: (name ++ quote :: (text ps ++ rest))).take k).head?,
          isImportChar c = false := by
        intro k c hc
        cases k with
        | zero => cases hc
        | succ k =>
          obtain rfl : quote = c := by simpa using hc
          rfl
      rw [htext, List.take_append, countQuoted_tokensOf_append hfront (hhead _), hcount]
      obtain hk | ⟨k, hk⟩ : m - (u ++ gap).length = 0 ∨ ∃ k, m - (u ++ gap).length = k + 1 := by
        cases m - (u ++ gap).length <;> simp
      · rw [hk, List.take_zero]
        exact Nat.zero_le _
      · rw [hk, List.take_succ_cons, List.take_append]
        by_cases hin : k ≤ name.length
        · -- The name is cut off and its quote is open.
          have hcut : quote ∉ name.take k := fun hmem => hi (List.mem_of_mem_take hmem)
          rw [Nat.sub_eq_zero_of_le hin, List.take_zero, List.append_nil, tokensOf_open hcut,
            hfree _ hcut]
          exact Nat.zero_le _
        · obtain ⟨j, hj⟩ : ∃ j, k - name.length = j + 1 := ⟨k - name.length - 1, by omega⟩
          have hcons : countQuoted (name :: tokensOf ((text ps ++ rest).take j)) =
              countQuoted (tokensOf ((text ps ++ rest).take j)) + countQuoted [name] := by
            simp [countQuoted, List.countP_cons]
          rw [List.take_of_length_le (by omega), hj, List.take_succ_cons, tokensOf_quoted hne hi,
            hcons]
          have := hrec (v := []) (by simp) j
          rw [List.nil_append] at this
          omega

section Begin

variable {isWord : Char → Bool} (hchars : WordChars isWord)

include hchars

theorem isWord_begin : ∀ c ∈ "begin".toList, isWord c = true := hchars.isWord (by simp)

theorem isWord_quote : isWord quote = false := hchars.ascii quote (by decide)

/-- A bare name behind a gap does not continue what is before the gap. -/
theorem any_getLast?_of_separated {gap : Text} (hgap : ∀ c ∈ gap, isSpace c = true) {bare : Bool}
    (hbare : bare = true → gap ≠ []) {before : Option Char}
    (hbefore : before.any isWord = true → bare = true) :
    (gap.getLast?.or before).any isWord = false := by
  cases hg : gap.getLast? with
  | some c => exact hchars.space c (hgap c (List.mem_of_getLast? hg))
  | none =>
    rw [Option.none_or]
    by_contra hb
    exact hbare (hbefore (Bool.of_not_eq_false hb)) (List.getLast?_eq_none_iff.mp hg)

/-- The search goes through a quoted name and goes on at its closing quote. -/
theorem findWord_quoted (before : Option Char) (name t : Text) :
    findWord isWord "begin".toList before ((ImportName.quoted name).text ++ t) =
      ((findWord isWord "begin".toList none name).or
        ((findWord isWord "begin".toList (some quote) t).map (· + 1 + name.length))).map
          (· + 1) := by
  have hne : "begin".toList ≠ [] := by simp
  have hword := isWord_begin hchars
  have hq := isWord_quote hchars
  have hquote : (some quote).any isWord = (none : Option Char).any isWord := hq
  have htext : (ImportName.quoted name).text ++ t = quote :: (name ++ quote :: t) := by
    simp [ImportName.text]
  have hhead : ∀ c ∈ (quote :: t).head?, isWord c = false := by
    intro c hc
    obtain rfl : quote = c := by simpa using hc
    exact hq
  rw [htext, findWord_cons_of_not hne hword _ hq, findWord_append hword _ name hhead,
    findWord_congr hquote name, findWord_cons_of_not hne hword _ hq, Option.map_map]
  rfl

/-- Names without a word `begin` are passed over. -/
theorem findWord_text {ps : Pieces}
    (hbegin : ∀ p ∈ ps, findWord isWord "begin".toList none p.2.name = none) {bare : Bool}
    (hsep : Separated bare ps) {rest : Text}
    (hrest : endsBare bare ps = true → ∀ c ∈ rest.head?, isWord c = false)
    {before : Option Char} (hbefore : before.any isWord = true → bare = true) :
    findWord isWord "begin".toList before (text ps ++ rest) =
      (findWord isWord "begin".toList none rest).map (· + (text ps).length) := by
  have hne : "begin".toList ≠ [] := by simp
  have hword := isWord_begin hchars
  induction ps generalizing bare before with
  | nil =>
    have hsame : findWord isWord "begin".toList before rest =
        findWord isWord "begin".toList none rest := by
      cases hb : before.any isWord with
      | true => exact findWord_congr_of_head hne hword (hrest (hbefore hb)) before none
      | false => exact findWord_congr hb rest
    rw [text_nil, List.nil_append, hsame, List.length_nil]
    simp
  | cons p ps ih =>
    obtain ⟨gap, i⟩ := p
    obtain ⟨hgap, hbare, hps⟩ := hsep
    have hgap' : ∀ c ∈ gap, isWord c = false := fun c hc => hchars.space c (hgap c hc)
    have hname := hbegin (gap, i) List.mem_cons_self
    have hrec : ∀ before' : Option Char, (before'.any isWord = true → i.isBare = true) →
        findWord isWord "begin".toList before' (text ps ++ rest) =
          (findWord isWord "begin".toList none rest).map (· + (text ps).length) :=
      fun before' hb => ih (fun q hq => hbegin q (List.mem_cons_of_mem _ hq)) hps hrest hb
    rw [text_cons, List.append_assoc, List.append_assoc, findWord_gap hne hword hgap']
    cases i with
    | bare name =>
      have hhead := head_text hchars.space (isWord_quote hchars) hps
        (fun hnil => hrest (by rw [hnil]; rfl))
      have hlast := any_getLast?_of_separated hchars hgap (fun hb => hbare hb rfl) hbefore
      have hfree : findWord isWord "begin".toList (gap.getLast?.or before) name = none :=
        (findWord_congr hlast name).trans hname
      rw [ImportName.text, findWord_append hword _ name hhead, hfree, Option.none_or,
        hrec _ fun _ => rfl, Option.map_map, Option.map_map]
      congr 1
      funext n
      simp
      omega
    | quoted name =>
      have hfree : findWord isWord "begin".toList none name = none := hname
      rw [findWord_quoted hchars, hfree, Option.none_or,
        hrec (some quote) (by simp [isWord_quote hchars]), Option.map_map, Option.map_map,
        Option.map_map]
      congr 1
      funext n
      simp [ImportName.text]
      omega

/-- The place of a word `begin` in a name, counted in the text of the name. -/
def beginIn (i : ImportName) (k : ℕ) : ℕ := if i.isBare then k else k + 1

/-- A name with a word `begin` in it stops the search. -/
theorem findWord_text_cons_of_begin {gap : Text} {i : ImportName} {ps : Pieces} {bare : Bool}
    (hsep : Separated bare ((gap, i) :: ps)) {rest : Text}
    (hrest : endsBare bare ((gap, i) :: ps) = true → ∀ c ∈ rest.head?, isWord c = false)
    {before : Option Char} (hbefore : before.any isWord = true → bare = true) {k : ℕ}
    (hk : findWord isWord "begin".toList none i.name = some k) :
    findWord isWord "begin".toList before (text ((gap, i) :: ps) ++ rest) =
      some (gap.length + beginIn i k) := by
  have hne : "begin".toList ≠ [] := by simp
  have hword := isWord_begin hchars
  obtain ⟨hgap, hbare, hps⟩ := hsep
  have hgap' : ∀ c ∈ gap, isWord c = false := fun c hc => hchars.space c (hgap c hc)
  rw [text_cons, List.append_assoc, List.append_assoc, findWord_gap hne hword hgap']
  cases i with
  | bare name =>
    have hlast := any_getLast?_of_separated hchars hgap (fun hb => hbare hb rfl) hbefore
    have hhead := head_text hchars.space (isWord_quote hchars) hps
      (fun hnil => hrest (by rw [hnil]; rfl))
    have hfound : findWord isWord "begin".toList (gap.getLast?.or before) name = some k :=
      (findWord_congr hlast name).trans hk
    rw [ImportName.text, findWord_append hword _ name hhead, hfound, Option.some_or,
      Option.map_some, Nat.add_comm]
    rfl
  | quoted name =>
    have hfound : findWord isWord "begin".toList none name = some k := hk
    rw [findWord_quoted hchars, hfound, Option.some_or, Option.map_some, Option.map_some,
      Nat.add_comm]
    rfl

end Begin

end Pieces

end TheoryParsing
end IsabelleGym
