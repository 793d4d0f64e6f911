import IsabelleGym.PosixPath
import Mathlib.Data.List.Infix

/-!
# File name patterns

A pattern is cut into stars, question marks, bracket expressions and characters
that stand for themselves. A bracket that is not closed is such a character.
-/

namespace FileGlob

open PosixPath

inductive Token
  | star
  | any
  | literal (c : Char)
  | oneOf (negated : Bool) (ranges : List (Char × Char))
deriving DecidableEq

/-- What stands between a bracket and the one that closes it, which cannot be the first
character. -/
def closeBracket : List Char → Option (List Char × List Char)
  | [] => none
  | c :: t =>
    let i := t.idxOf ']'
    if i < t.length then some (c :: t.take i, t.drop (i + 1)) else none

def ranges : List Char → List (Char × Char)
  | lo :: '-' :: hi :: t => (lo, hi) :: ranges t
  | c :: t => (c, c) :: ranges t
  | [] => []

def bracket (inside : List Char) : Token :=
  match inside with
  | '!' :: t => .oneOf true (ranges t)
  | t => .oneOf false (ranges t)

def openBracket : List Char → Option (Token × List Char)
  | '!' :: t => (closeBracket t).map fun (inside, rest) => (bracket ('!' :: inside), rest)
  | t => (closeBracket t).map fun (inside, rest) => (bracket inside, rest)

/-- The first token of a pattern, and what is left of the pattern behind it. -/
def nextToken (c : Char) (t : List Char) : Token × List Char :=
  if c = '*' then (.star, t)
  else if c = '?' then (.any, t)
  else if c = '[' then (openBracket t).getD (.literal '[', t)
  else (.literal c, t)

def tokensFrom : ℕ → List Char → List Token
  | 0, _ | _, [] => []
  | fuel + 1, c :: t => (nextToken c t).1 :: tokensFrom fuel (nextToken c t).2

def tokens (pattern : List Char) : List Token := tokensFrom pattern.length pattern

def inRanges (c : Char) (rs : List (Char × Char)) : Bool :=
  rs.any fun (lo, hi) => lo.toNat ≤ c.toNat && c.toNat ≤ hi.toNat

/-- The token stands for this one character; a star stands for none by itself. -/
def Token.accepts : Token → Char → Bool
  | .star, _ => false
  | .any, _ => true
  | .literal d, c => c = d
  | .oneOf negated rs, c => inRanges c rs != negated

def tokensMatch : List Token → List Char → Bool
  | [], name => name.isEmpty
  | .star :: ts, name => name.tails.any (tokensMatch ts)
  | token :: ts, c :: name => token.accepts c && tokensMatch ts name
  | _ :: _, [] => false

def fnmatch (pattern name : List Char) : Bool := tokensMatch (tokens pattern) name

section Patterns

theorem closeBracket_append {b : List Char} (hb : ']' ∉ b) (t : List Char) :
    closeBracket (t ++ b) = (closeBracket t).map fun x => (x.1, x.2 ++ b) := by
  have hnone : ∀ {c : Char} {t : List Char}, ']' ∉ t → closeBracket (c :: t) = none := by
    intro c t ht
    simp [closeBracket, List.idxOf_eq_length ht]
  cases t with
  | nil =>
    cases b with
    | nil => rfl
    | cons c b => exact hnone fun hin => hb (List.mem_cons_of_mem c hin)
  | cons c t =>
    by_cases ht : ']' ∈ t
    · have hlt := List.idxOf_lt_length_of_mem ht
      have hlt' : t.idxOf ']' < (t ++ b).length := by
        rw [List.length_append]
        omega
      rw [List.cons_append, closeBracket, closeBracket]
      simp only [List.idxOf_append_of_mem ht, if_pos hlt, if_pos hlt', Option.map_some,
        Option.some.injEq, Prod.mk.injEq]
      rw [List.take_append_of_le_length (Nat.le_of_lt hlt), List.drop_append_of_le_length hlt]
      exact ⟨rfl, rfl⟩
    · rw [hnone ht, List.cons_append, hnone]
      · rfl
      · rw [List.mem_append]
        exact fun hin => hin.elim ht hb

theorem openBracket_append {b : List Char} (hb : ']' ∉ b) (t : List Char) :
    openBracket (t ++ b) = (openBracket t).map fun x => (x.1, x.2 ++ b) := by
  have hend : openBracket b = none := by
    unfold openBracket
    split
    case h_1 c =>
      have hnone := closeBracket_append (fun hin => hb (List.mem_cons_of_mem '!' hin)) []
      rw [List.nil_append] at hnone
      rw [hnone]
      rfl
    case h_2 =>
      have hnone := closeBracket_append hb []
      rw [List.nil_append] at hnone
      rw [hnone]
      rfl
  cases t with
  | nil => exact hend
  | cons c t =>
    by_cases hc : c = '!'
    · subst hc
      rw [List.cons_append, openBracket, openBracket, closeBracket_append hb, Option.map_map,
        Option.map_map]
      rfl
    · have hplain : ∀ u : List Char, openBracket (c :: u) =
          (closeBracket (c :: u)).map fun (inside, rest) => (bracket inside, rest) := by
        intro u
        unfold openBracket
        split
        case h_1 heq =>
          cases heq
          exact absurd rfl hc
        case h_2 => rfl
      rw [List.cons_append, hplain, hplain, ← List.cons_append, closeBracket_append hb,
        Option.map_map, Option.map_map]
      rfl

theorem nextToken_append {b : List Char} (hb : ']' ∉ b) (c : Char) (t : List Char) :
    nextToken c (t ++ b) = ((nextToken c t).1, (nextToken c t).2 ++ b) := by
  unfold nextToken
  rw [openBracket_append hb]
  split_ifs
  · rfl
  · rfl
  · cases openBracket t <;> rfl
  · rfl

theorem length_nextToken_le (c : Char) (t : List Char) :
    (nextToken c t).2.length ≤ t.length := by
  have hclose : ∀ {t inside rest : List Char}, closeBracket t = some (inside, rest) →
      rest.length ≤ t.length := by
    intro t inside rest h
    unfold closeBracket at h
    split at h
    · cases h
    · dsimp only at h
      split_ifs at h
      cases h
      rw [List.length_drop, List.length_cons]
      omega
  unfold nextToken
  split_ifs
  · exact Nat.le_refl _
  · exact Nat.le_refl _
  · cases hopen : openBracket t with
    | none => exact Nat.le_refl _
    | some x =>
      unfold openBracket at hopen
      split at hopen
      all_goals
        obtain ⟨⟨inside, rest⟩, hx, rfl⟩ := Option.map_eq_some_iff.mp hopen
        have hlength := hclose hx
        simp only [Option.getD_some, List.length_cons]
        omega
  · exact Nat.le_refl _

theorem tokensFrom_eq {fuel : ℕ} {t : List Char} (h : t.length ≤ fuel) :
    tokensFrom fuel t = tokens t := by
  have hfuel : ∀ (fuel fuel' : ℕ) (t : List Char), t.length ≤ fuel → t.length ≤ fuel' →
      tokensFrom fuel t = tokensFrom fuel' t := by
    intro fuel
    induction fuel with
    | zero =>
      intro fuel' t h _
      rw [List.length_eq_zero_iff.mp (Nat.le_zero.mp h)]
      cases fuel' <;> rfl
    | succ fuel ih =>
      intro fuel' t h h'
      cases t with
      | nil => cases fuel' <;> rfl
      | cons c t =>
        cases fuel' with
        | zero => cases h'
        | succ fuel' =>
          have hle := length_nextToken_le c t
          rw [List.length_cons] at h h'
          rw [tokensFrom, tokensFrom, ih fuel' _ (by omega) (by omega)]
  exact hfuel fuel t.length t h (Nat.le_refl _)

theorem tokens_cons (c : Char) (t : List Char) :
    tokens (c :: t) = (nextToken c t).1 :: tokens (nextToken c t).2 := by
  rw [tokens, List.length_cons, tokensFrom, tokensFrom_eq (length_nextToken_le c t)]

/-- A text without a closing bracket ends no bracket expression of what stands before it. -/
theorem tokens_append {b : List Char} (hb : ']' ∉ b) (a : List Char) :
    tokens (a ++ b) = tokens a ++ tokens b := by
  induction hn : a.length using Nat.strongRecOn generalizing a with
  | ind n ih =>
    cases a with
    | nil => rfl
    | cons c t =>
      have hle := length_nextToken_le c t
      rw [List.length_cons] at hn
      rw [List.cons_append, tokens_cons, tokens_cons, nextToken_append hb,
        ih (nextToken c t).2.length (by omega) _ rfl, List.cons_append]

theorem tokensMatch_star {ts : List Token} {name : List Char} :
    tokensMatch (.star :: ts) name = true ↔
      ∃ u v, name = u ++ v ∧ tokensMatch ts v = true := by
  rw [tokensMatch, List.any_eq_true]
  constructor
  · rintro ⟨v, hv, hmatch⟩
    obtain ⟨u, rfl⟩ := (List.mem_tails v name).mp hv
    exact ⟨u, v, rfl, hmatch⟩
  · rintro ⟨u, v, rfl, hmatch⟩
    exact ⟨v, (List.mem_tails v _).mpr (List.suffix_append u v), hmatch⟩

theorem tokensMatch_cons {token : Token} (htoken : token ≠ .star) {ts : List Token}
    {name : List Char} :
    tokensMatch (token :: ts) name = true ↔
      ∃ c v, name = c :: v ∧ token.accepts c = true ∧ tokensMatch ts v = true := by
  cases name with
  | nil => simp [tokensMatch]
  | cons c v => simp [tokensMatch]

theorem tokensMatch_append {ts us : List Token} {name : List Char} :
    tokensMatch (ts ++ us) name = true ↔
      ∃ m r, name = m ++ r ∧ tokensMatch ts m = true ∧ tokensMatch us r = true := by
  induction ts generalizing name with
  | nil =>
    constructor
    · exact fun h => ⟨[], name, rfl, rfl, h⟩
    · rintro ⟨m, r, rfl, hm, hr⟩
      cases m with
      | nil => exact hr
      | cons c m => cases hm
  | cons token ts ih =>
    by_cases htoken : token = .star
    · subst htoken
      rw [List.cons_append, tokensMatch_star]
      constructor
      · rintro ⟨u, v, rfl, hmatch⟩
        obtain ⟨m, r, rfl, hm, hr⟩ := ih.mp hmatch
        exact ⟨u ++ m, r, by simp, tokensMatch_star.mpr ⟨u, m, rfl, hm⟩, hr⟩
      · rintro ⟨m, r, rfl, hm, hr⟩
        obtain ⟨u, v, rfl, hv⟩ := tokensMatch_star.mp hm
        exact ⟨u, v ++ r, by simp, ih.mpr ⟨v, r, rfl, hv, hr⟩⟩
    · rw [List.cons_append, tokensMatch_cons htoken]
      constructor
      · rintro ⟨c, v, rfl, haccepts, hmatch⟩
        obtain ⟨m, r, rfl, hm, hr⟩ := ih.mp hmatch
        exact ⟨c :: m, r, rfl, (tokensMatch_cons htoken).mpr ⟨c, m, rfl, haccepts, hm⟩, hr⟩
      · rintro ⟨m, r, rfl, hm, hr⟩
        obtain ⟨c, v, rfl, haccepts, hv⟩ := (tokensMatch_cons htoken).mp hm
        exact ⟨c, v ++ r, rfl, haccepts, ih.mpr ⟨v, r, rfl, hv, hr⟩⟩

/-- A star takes up anything. -/
theorem tokensMatch_pump {ts : List Token} (hstar : Token.star ∈ ts) {name : List Char}
    (h : tokensMatch ts name = true) :
    ∃ u v, name = u ++ v ∧ ∀ x, tokensMatch ts (u ++ x ++ v) = true := by
  induction ts generalizing name with
  | nil => cases hstar
  | cons token ts ih =>
    by_cases htoken : token = .star
    · subst htoken
      obtain ⟨u, v, rfl, hv⟩ := tokensMatch_star.mp h
      exact ⟨u, v, rfl, fun x => tokensMatch_star.mpr ⟨u ++ x, v, rfl, hv⟩⟩
    · obtain ⟨c, w, rfl, haccepts, hw⟩ := (tokensMatch_cons htoken).mp h
      obtain ⟨u, v, rfl, hx⟩ := ih ((List.mem_cons.mp hstar).resolve_left (Ne.symm htoken)) hw
      exact ⟨c :: u, v, rfl, fun x =>
        (tokensMatch_cons htoken).mpr ⟨c, u ++ x ++ v, rfl, haccepts, hx x⟩⟩

/-- A question mark takes any other character. -/
theorem tokensMatch_swap {ts : List Token} (hany : Token.any ∈ ts) {name : List Char}
    (h : tokensMatch ts name = true) :
    ∃ u d v, name = u ++ d :: v ∧ ∀ x, tokensMatch ts (u ++ x :: v) = true := by
  induction ts generalizing name with
  | nil => cases hany
  | cons token ts ih =>
    by_cases htoken : token = .star
    · subst htoken
      obtain ⟨u', w, rfl, hw⟩ := tokensMatch_star.mp h
      obtain ⟨u, d, v, rfl, hx⟩ := ih ((List.mem_cons.mp hany).resolve_left nofun) hw
      refine ⟨u' ++ u, d, v, by simp, fun x => ?_⟩
      exact tokensMatch_star.mpr ⟨u', u ++ x :: v, by simp, hx x⟩
    · obtain ⟨c, w, rfl, haccepts, hw⟩ := (tokensMatch_cons htoken).mp h
      by_cases hhead : token = .any
      · subst hhead
        exact ⟨[], c, w, rfl, fun x => (tokensMatch_cons htoken).mpr ⟨x, w, rfl, rfl, hw⟩⟩
      · obtain ⟨u, d, v, rfl, hx⟩ := ih ((List.mem_cons.mp hany).resolve_left (Ne.symm hhead)) hw
        exact ⟨c :: u, d, v, rfl, fun x =>
          (tokensMatch_cons htoken).mpr ⟨c, u ++ x :: v, rfl, haccepts, hx x⟩⟩

theorem length_of_tokensMatch {ts : List Token} (hstar : Token.star ∉ ts) {name : List Char}
    (h : tokensMatch ts name = true) : name.length = ts.length := by
  induction ts generalizing name with
  | nil => simpa [tokensMatch] using h
  | cons token ts ih =>
    have htoken : token ≠ .star := fun heq => hstar (heq ▸ List.mem_cons_self)
    obtain ⟨c, v, rfl, -, hv⟩ := (tokensMatch_cons htoken).mp h
    rw [List.length_cons, List.length_cons, ih (fun hin => hstar (List.mem_cons_of_mem _ hin)) hv]

theorem tokensMatch_literal {c name : List Char} :
    tokensMatch (c.map Token.literal) name = true ↔ name = c := by
  induction c generalizing name with
  | nil => simp [tokensMatch]
  | cons d c ih =>
    have hne : Token.literal d ≠ .star := by simp
    rw [List.map_cons, tokensMatch_cons hne]
    constructor
    · rintro ⟨e, v, rfl, haccepts, hv⟩
      rw [ih.mp hv, show e = d by simpa [Token.accepts] using haccepts]
    · rintro rfl
      exact ⟨d, c, rfl, by simp [Token.accepts], ih.mpr rfl⟩

/-- Without wildcards a pattern matches itself only. -/
theorem fnmatch_iff_of_forall {c name : List Char}
    (h : ∀ d ∈ c, d ≠ '*' ∧ d ≠ '?' ∧ d ≠ '[') : fnmatch c name = true ↔ name = c := by
  have htokens : tokens c = c.map Token.literal := by
    induction c with
    | nil => rfl
    | cons d c ih =>
      obtain ⟨hstar, hany, hopen⟩ := h d List.mem_cons_self
      have hnext : nextToken d c = (.literal d, c) := by
        rw [nextToken, if_neg hstar, if_neg hany, if_neg hopen]
      rw [tokens_cons, hnext, ih fun e he => h e (List.mem_cons_of_mem d he), List.map_cons]
  rw [fnmatch, htokens, tokensMatch_literal]

/-- In two characters there is no bracket expression. -/
theorem tokens_of_length_le {c : List Char} (h : c.length ≤ 2) (hstar : Token.star ∉ tokens c)
    (hany : Token.any ∉ tokens c) : tokens c = c.map Token.literal := by
  have hopen : ∀ t : List Char, t.length ≤ 1 → openBracket t = none := by
    intro t ht
    match t with
    | [] => rfl
    | [d] =>
      unfold openBracket
      split
      case h_1 heq =>
        cases heq
        rfl
      case h_2 => rfl
    | _ :: _ :: _ => simp at ht
  have hnext : ∀ (d : Char) (t : List Char), t.length ≤ 1 →
      nextToken d t = (.star, t) ∨ nextToken d t = (.any, t) ∨ nextToken d t = (.literal d, t) := by
    intro d t ht
    unfold nextToken
    split_ifs with h₁ h₂ h₃
    · exact .inl rfl
    · exact .inr (.inl rfl)
    · rw [hopen t ht, h₃]
      exact .inr (.inr rfl)
    · exact .inr (.inr rfl)
  induction c with
  | nil => rfl
  | cons d t ih =>
    have ht : t.length ≤ 1 := by simpa using h
    rw [tokens_cons] at hstar hany ⊢
    rcases hnext d t ht with heq | heq | heq
    · rw [heq] at hstar
      exact absurd List.mem_cons_self hstar
    · rw [heq] at hany
      exact absurd List.mem_cons_self hany
    · rw [heq] at hstar hany ⊢
      rw [ih (Nat.le_succ_of_le ht) (fun hin => hstar (List.mem_cons_of_mem _ hin))
        (fun hin => hany (List.mem_cons_of_mem _ hin)), List.map_cons]

/-- A name that as a pattern matches no other name. -/
def NamesItself (c : List Char) : Prop :=
  IsPlain c ∧ ∀ n, IsPlain n → fnmatch c n = true → n = c

theorem namesItself_of_forall {c : List Char} (hplain : IsPlain c)
    (h : ∀ d ∈ c, d ≠ '*' ∧ d ≠ '?' ∧ d ≠ '[') : NamesItself c :=
  ⟨hplain, fun _ _ hmatch => (fnmatch_iff_of_forall h).mp hmatch⟩

theorem isPlain_of_mem {n : List Char} (hslash : '/' ∉ n) {d : Char} (hd : d ∈ n) (hne : d ≠ '.') :
    IsPlain n := by
  refine ⟨List.ne_nil_of_mem hd, hslash, ?_, ?_⟩
  · rintro rfl
    exact hne (List.mem_singleton.mp hd)
  · rintro rfl
    simp [dotDot] at hd
    exact hne hd

theorem tokens_dot_star (c : List Char) :
    tokens (c ++ ".*".toList) = tokens c ++ [.literal '.', .star] := by
  have hdot : tokens ".*".toList = [.literal '.', .star] := by decide
  rw [tokens_append (by decide), hdot]

/-- A name that matches can go on behind a dot, where a dot and a star stand in the pattern. -/
theorem fnmatch_dot_star {c m : List Char} (h : fnmatch c m = true) (r : List Char) :
    fnmatch (c ++ ".*".toList) (m ++ '.' :: r) = true := by
  have hne : Token.literal '.' ≠ .star := by simp
  rw [fnmatch, tokens_dot_star, tokensMatch_append]
  refine ⟨m, '.' :: r, rfl, h, (tokensMatch_cons hne).mpr ⟨'.', r, rfl, ?_, ?_⟩⟩
  · simp [Token.accepts]
  · exact tokensMatch_star.mpr ⟨r, [], by simp, rfl⟩

/-- Only the name itself stands before the dot of `name.*`, where the name is a match at all. -/
theorem NamesItself.eq_of_fnmatch_dot {c : List Char} (hc : NamesItself c)
    (hself : fnmatch c c = true) {n : List Char} (hslash : '/' ∉ n)
    (h : fnmatch (c ++ ".*".toList) n = true) : ∃ ext, n = c ++ '.' :: ext := by
  obtain ⟨hplain, hnames⟩ := hc
  rw [fnmatch, tokens_dot_star, tokensMatch_append] at h
  obtain ⟨m, r, rfl, hm, hr⟩ := h
  have hne : Token.literal '.' ≠ .star := by simp
  obtain ⟨d, ext, rfl, hd, -⟩ := (tokensMatch_cons hne).mp hr
  have hd : d = '.' := by simpa [Token.accepts] using hd
  subst hd
  refine ⟨ext, ?_⟩
  have hmslash : '/' ∉ m := fun hin => hslash (List.mem_append_left _ hin)
  by_cases hmplain : IsPlain m
  · rw [hnames m hmplain hm]
  · -- what is not plain has at most two characters, and the pattern has as many
    have hstar : Token.star ∉ tokens c := by
      intro hin
      obtain ⟨u, v, hsplit, hx⟩ := tokensMatch_pump hin hself
      have hlonger : u ++ ['a'] ++ v = c := by
        refine hnames _ (isPlain_of_mem (d := 'a') ?_ (by simp) (by decide)) (hx ['a'])
        have hcslash := hplain.2.1
        rw [hsplit] at hcslash
        simpa using hcslash
      have hlength := congrArg List.length hlonger
      rw [hsplit] at hlength
      simp only [List.length_append, List.length_cons, List.length_nil] at hlength
      omega
    have hany : Token.any ∉ tokens c := by
      intro hin
      obtain ⟨u, d, v, rfl, hx⟩ := tokensMatch_swap hin hm
      have hother : ∀ x : Char, x ≠ '.' → x ≠ '/' → u ++ x :: v = c := by
        intro x hx' hx''
        refine hnames _ (isPlain_of_mem (d := x) ?_ (by simp) hx') (hx x)
        simp only [List.mem_append, List.mem_cons, not_or] at hmslash ⊢
        exact ⟨hmslash.1, Ne.symm hx'', hmslash.2.2⟩
      have hab := (hother 'a' (by decide) (by decide)).trans
        (hother 'b' (by decide) (by decide)).symm
      simp at hab
    have hlength : m.length ≤ 2 := by
      by_contra hlong
      refine hmplain ⟨?_, hmslash, ?_, ?_⟩
      · rintro rfl
        simp at hlong
      · rintro rfl
        simp [dot] at hlong
      · rintro rfl
        simp [dotDot] at hlong
    have hc2 : c.length ≤ 2 := by
      rw [length_of_tokensMatch hstar hself, ← length_of_tokensMatch hstar hm]
      exact hlength
    rw [tokens_of_length_le hc2 hstar hany, tokensMatch_literal] at hm
    rw [hm]

end Patterns

example : fnmatch "[a-c]?*.thy".toList "bx.thy".toList = true := by decide

end FileGlob
