import IsabelleGym.TheoryParsing

/-!
# Strings of the outer syntax

A quoted string ends at the first quote that no backslash escapes. A backslash
also starts symbols with a name, which stand for themselves. A text is literal
where it is the content of the string that it is between two quotes.
-/

namespace IsabelleGym
namespace OuterString

open TheoryParsing

def backslash : Char := Char.ofNat 92

def isSymbolChar (c : Char) : Bool := c.isAlphanum || "_'".toList.contains c

/-- Behind a backslash stands the rest of a symbol. -/
def isSymbolRest : Text → Bool
  | '<' :: t =>
    let name := if t.head? = some '^' then t.tail else t
    name.head?.any Char.isAlpha && (name.dropWhile isSymbolChar).head? = some '>'
  | _ => false

/-- What an escape behind a backslash stands for, and how many characters it has there. -/
def escape : Text → Option (Char × ℕ)
  | a :: b :: c :: _ =>
    if a = quote || a = backslash then some (a, 1)
    else if a.isDigit && b.isDigit && c.isDigit then
      some (Char.ofNat (100 * (a.toNat - 48) + 10 * (b.toNat - 48) + (c.toNat - 48)), 3)
    else none
  | a :: _ => if a = quote || a = backslash then some (a, 1) else none
  | [] => none

/-- The content of a string behind its first quote, and what is behind its last one. So many
characters are part of an escape that has been read. -/
def stringBody : ℕ → Text → Option (Text × Text)
  | _, [] => none
  | skip + 1, _ :: t => stringBody skip t
  | 0, c :: t =>
    if c = quote then some ([], t)
    else if c = backslash && !isSymbolRest t then
      match escape t with
      | some (d, n) => (stringBody n t).map fun s => (d :: s.1, s.2)
      | none => none
    else (stringBody 0 t).map fun s => (c :: s.1, s.2)

/-- No quote, and no backslash but those of symbols. -/
def isLiteral : Text → Bool
  | [] => true
  | c :: t => c ≠ quote && (c ≠ backslash || isSymbolRest t) && isLiteral t

theorem head?_dropWhile_append_quote {p : Char → Bool} (hquote : p quote = false) (s rest : Text) :
    ((s ++ quote :: rest).dropWhile p).head? = ((s.dropWhile p).head?).or (some quote) := by
  induction s with
  | nil => simp [hquote]
  | cons c s ih =>
    rw [List.cons_append, List.dropWhile_cons, List.dropWhile_cons]
    split_ifs
    · exact ih
    · rfl

theorem isSymbolRest_append_quote (s rest : Text) :
    isSymbolRest (s ++ quote :: rest) = isSymbolRest s := by
  have hname : ∀ t : Text, ((t ++ quote :: rest).head?.any Char.isAlpha &&
      ((t ++ quote :: rest).dropWhile isSymbolChar).head? = some '>') =
        (t.head?.any Char.isAlpha && (t.dropWhile isSymbolChar).head? = some '>') := by
    intro t
    rw [head?_dropWhile_append_quote (by decide)]
    cases t with
    | nil => simp [quote]
    | cons c t =>
      cases (List.dropWhile isSymbolChar (c :: t)).head? with
      | none => simp [quote]
      | some d => rfl
  cases s with
  | nil => rfl
  | cons c s =>
    by_cases hc : c = '<'
    · subst hc
      cases s with
      | nil => simp [isSymbolRest, quote]
      | cons d s =>
        by_cases hd : d = '^'
        · subst hd
          simpa [isSymbolRest] using hname s
        · simpa [isSymbolRest, hd] using hname (d :: s)
    · simp [isSymbolRest, hc]

theorem stringBody_append_quote {s : Text} (h : isLiteral s = true) (rest : Text) :
    stringBody 0 (s ++ quote :: rest) = some (s, rest) := by
  induction s with
  | nil => simp [stringBody]
  | cons c s ih =>
    simp only [isLiteral, Bool.and_eq_true, decide_eq_true_eq, Bool.or_eq_true] at h
    obtain ⟨⟨hquote, hsymbol⟩, hs⟩ := h
    rw [List.cons_append, stringBody, if_neg hquote, if_neg, ih hs]
    · rfl
    · rw [isSymbolRest_append_quote]
      rcases hsymbol with hne | hrest
      · simp [hne]
      · simp [hrest]

theorem stringBody_eq_none {t : Text} (h : quote ∉ t) (skip : ℕ) : stringBody skip t = none := by
  induction t generalizing skip with
  | nil => cases skip <;> rfl
  | cons c t ih =>
    obtain ⟨hc, ht⟩ := List.ne_and_not_mem_of_not_mem_cons h
    cases skip with
    | succ skip => exact ih ht skip
    | zero =>
      rw [stringBody, if_neg (Ne.symm hc)]
      split_ifs
      · split
        · rw [ih ht, Option.map_none]
        · rfl
      · rw [ih ht, Option.map_none]

theorem one_le_of_escape {t : Text} {d : Char} {n : ℕ} (h : escape t = some (d, n)) : 1 ≤ n := by
  unfold escape at h
  split at h
  · split_ifs at h
    · obtain ⟨-, rfl⟩ := Prod.mk.inj (Option.some.inj h)
      omega
    · obtain ⟨-, rfl⟩ := Prod.mk.inj (Option.some.inj h)
      omega
  · split_ifs at h
    obtain ⟨-, rfl⟩ := Prod.mk.inj (Option.some.inj h)
    omega
  · cases h

/-- Only a literal text is as long as its content. -/
theorem length_stringBody {s rest : Text} (hrest : quote ∉ rest) {skip : ℕ} {v w : Text}
    (h : stringBody skip (s ++ quote :: rest) = some (v, w)) :
    v.length + skip ≤ s.length ∧ (v.length = s.length → isLiteral s = true) := by
  induction s generalizing skip v w with
  | nil =>
    cases skip with
    | succ skip =>
      rw [List.nil_append, stringBody, stringBody_eq_none hrest] at h
      cases h
    | zero =>
      rw [List.nil_append, stringBody, if_pos rfl] at h
      obtain ⟨rfl, -⟩ := Prod.mk.inj (Option.some.inj h)
      simp [isLiteral]
  | cons c s ih =>
    cases skip with
    | succ skip =>
      obtain ⟨hlength, -⟩ := ih h
      rw [List.length_cons]
      exact ⟨by omega, fun heq => by omega⟩
    | zero =>
      rw [List.cons_append, stringBody, isSymbolRest_append_quote] at h
      split_ifs at h with hquote hescape
      · obtain ⟨rfl, -⟩ := Prod.mk.inj (Option.some.inj h)
        simp
      · split at h
        · rename_i d n hn
          obtain ⟨⟨v', w'⟩, hbody, heq⟩ := Option.map_eq_some_iff.mp h
          obtain ⟨rfl, -⟩ := Prod.mk.inj heq
          obtain ⟨hlength, -⟩ := ih hbody
          have hone := one_le_of_escape hn
          simp only [List.length_cons]
          exact ⟨by omega, fun heq => by omega⟩
        · cases h
      · obtain ⟨⟨v', w'⟩, hbody, heq⟩ := Option.map_eq_some_iff.mp h
        obtain ⟨rfl, -⟩ := Prod.mk.inj heq
        obtain ⟨hlength, hliteral⟩ := ih hbody
        simp only [List.length_cons]
        refine ⟨by omega, fun heq => ?_⟩
        simp only [isLiteral, Bool.and_eq_true, decide_eq_true_eq, Bool.or_eq_true]
        refine ⟨⟨hquote, ?_⟩, hliteral (by omega)⟩
        simpa only [Bool.and_eq_true, decide_eq_true_eq, Bool.not_eq_true', not_and,
          Bool.not_eq_false, ← imp_iff_not_or] using hescape

/-- Between two quotes that are the only ones a string has what is behind them as its rest. -/
theorem snd_stringBody {s rest : Text} (hs : quote ∉ s) (hrest : quote ∉ rest) {skip : ℕ}
    {body : Text × Text} (h : stringBody skip (s ++ quote :: rest) = some body) :
    body.2 = rest := by
  induction s generalizing skip body with
  | nil =>
    cases skip with
    | succ skip =>
      rw [List.nil_append, stringBody, stringBody_eq_none hrest] at h
      cases h
    | zero =>
      rw [List.nil_append, stringBody, if_pos rfl] at h
      rw [← Option.some.inj h]
  | cons c s ih =>
    obtain ⟨hc, hs⟩ := List.ne_and_not_mem_of_not_mem_cons hs
    cases skip with
    | succ skip => exact ih hs h
    | zero =>
      rw [List.cons_append, stringBody, if_neg (Ne.symm hc)] at h
      split_ifs at h
      · split at h
        · obtain ⟨body', hbody, rfl⟩ := Option.map_eq_some_iff.mp h
          have hsnd := ih hs hbody
          exact hsnd
        · cases h
      · obtain ⟨body', hbody, rfl⟩ := Option.map_eq_some_iff.mp h
        have hsnd := ih hs hbody
        exact hsnd

/-- A text between quotes is read back exactly where it is literal. -/
theorem stringBody_eq_iff {s rest : Text} (hrest : quote ∉ rest) :
    (stringBody 0 (s ++ quote :: rest)).map Prod.fst = some s ↔ isLiteral s = true := by
  constructor
  · intro h
    obtain ⟨⟨v, w⟩, hbody, rfl⟩ := Option.map_eq_some_iff.mp h
    exact (length_stringBody hrest hbody).2 rfl
  · intro h
    rw [stringBody_append_quote h]
    rfl

end OuterString
end IsabelleGym
