import IsabelleGym.TheoryHeader
import IsabelleGym.WordSearch

/-!
# Gaps and tokens of a theory header

White space and nested comments may stand between any two tokens of a header, and
something stands between two words. Stripping comments leaves the white space of a
gap, which may be nothing.
-/

namespace IsabelleGym
namespace TheoryParsing

open PythonStr

/-- Behind as many open comments as the depth says, the text closes them and ends. -/
def closesComments : ℕ → Text → Bool
  | 0, t => t.isEmpty
  | depth + 1, '(' :: '*' :: t => closesComments (depth + 2) t
  | depth + 1, '*' :: ')' :: t => closesComments depth t
  | depth + 1, _ :: t => closesComments (depth + 1) t
  | _ + 1, [] => false

def IsComment (t : Text) : Prop := ∃ u, t = '(' :: '*' :: u ∧ closesComments 1 u = true

/-- White space and comments. -/
inductive IsGap : Text → Prop
  | nil : IsGap []
  | space {c : Char} {t : Text} (hc : isSpace c = true) (ht : IsGap t) : IsGap (c :: t)
  | comment {a t : Text} (ha : IsComment a) (ht : IsGap t) : IsGap (a ++ t)

theorem getLast?_of_closesComments {depth : ℕ} {t : Text} (h : closesComments depth t = true)
    (hdepth : depth ≠ 0) : t.getLast? = some ')' := by
  fun_induction closesComments depth t with
  | case1 t => exact absurd rfl hdepth
  | case2 depth t ih =>
    rw [List.getLast?_cons_cons, List.getLast?_cons, ih h (by omega)]
    rfl
  | case3 depth t ih =>
    cases depth with
    | zero =>
      rw [closesComments, List.isEmpty_iff] at h
      rw [h]
      rfl
    | succ depth =>
      rw [List.getLast?_cons_cons, List.getLast?_cons, ih h (by omega)]
      rfl
  | case4 depth c t hopen hclose ih =>
    rw [List.getLast?_cons, ih h (by omega)]
    rfl
  | case5 depth => cases h

theorem IsComment.getLast? {t : Text} (h : IsComment t) : t.getLast? = some ')' := by
  obtain ⟨u, rfl, hu⟩ := h
  rw [List.getLast?_cons_cons, List.getLast?_cons, getLast?_of_closesComments hu (by decide)]
  rfl

section Boundaries

variable {isWord : Char → Bool}

theorem IsGap.head {gap : Text} (h : IsGap gap) (hchars : WordChars isWord) :
    ∀ c ∈ gap.head?, isWord c = false := by
  induction h with
  | nil => exact fun c hc => by cases hc
  | @space c t hc ht ih =>
    intro d hd
    obtain rfl : c = d := by simpa using hd
    exact hchars.space c hc
  | @comment a t ha ht ih =>
    obtain ⟨u, rfl, hu⟩ := ha
    intro d hd
    obtain rfl : '(' = d := by simpa using hd
    exact hchars.ascii '(' (by decide)

/-- A gap ends in white space or with a comment. -/
theorem IsGap.last {gap : Text} (h : IsGap gap) :
    ∀ c ∈ gap.getLast?, isSpace c = true ∨ c = ')' := by
  induction h with
  | nil => exact fun c hc => by cases hc
  | @space c t hc ht ih =>
    intro d hd
    rw [List.getLast?_cons] at hd
    cases hlast : t.getLast? with
    | none =>
      rw [hlast] at hd
      obtain rfl : c = d := by simpa using hd
      exact Or.inl hc
    | some e =>
      rw [hlast] at hd
      obtain rfl : e = d := by simpa using hd
      exact ih e hlast
  | @comment a t ha ht ih =>
    intro d hd
    rw [List.getLast?_append, ha.getLast?] at hd
    cases hlast : t.getLast? with
    | none =>
      rw [hlast] at hd
      obtain rfl : ')' = d := by simpa using hd
      exact Or.inr rfl
    | some e =>
      rw [hlast] at hd
      obtain rfl : e = d := by simpa using hd
      exact ih e hlast

theorem isWord_of_isSpace_or_close (hchars : WordChars isWord) {c : Char}
    (h : isSpace c = true ∨ c = ')') : isWord c = false := by
  rcases h with h | rfl
  · exact hchars.space c h
  · exact hchars.ascii ')' (by decide)

end Boundaries

/-- A token of a header: a word, a text in quotes, or punctuation. -/
inductive HeaderToken
  | word (t : Text)
  | quoted (t : Text)
  | mark (t : Text)
deriving DecidableEq

namespace HeaderToken

def text : HeaderToken → Text
  | word t => t
  | quoted t => quote :: (t ++ [quote])
  | mark t => t

def isWordToken : HeaderToken → Bool
  | word _ => true
  | _ => false

/-- A word has no white space, quotes or parentheses and is not `begin`; punctuation has no word
characters. -/
def Valid (isWord : Char → Bool) : HeaderToken → Prop
  | word t => t ≠ [] ∧ t ≠ "begin".toList ∧
      ∀ c ∈ t, isSpace c = false ∧ c ≠ quote ∧ c ≠ '(' ∧ c ≠ ')'
  | quoted _ => True
  | mark t => t ≠ [] ∧ ∀ c ∈ t, isWord c = false ∧ isSpace c = false ∧ c ≠ quote

end HeaderToken

/-- Tokens, each behind a gap. -/
abbrev HeaderTokens := List (Text × HeaderToken)

namespace HeaderTokens

def text (ts : HeaderTokens) : Text := ts.flatMap fun p => p.1 ++ p.2.text

/-- Two words have a gap between them; `word` says whether a word is in front. -/
def Spaced : Bool → HeaderTokens → Prop
  | _, [] => True
  | word, p :: ts =>
    IsGap p.1 ∧ (word = true → p.2.isWordToken = true → p.1 ≠ []) ∧ Spaced p.2.isWordToken ts

def endsWord : Bool → HeaderTokens → Bool
  | word, [] => word
  | _, p :: ts => endsWord p.2.isWordToken ts

@[simp] theorem text_nil : text [] = [] := rfl

@[simp] theorem text_cons (p : Text × HeaderToken) (ts : HeaderTokens) :
    text (p :: ts) = p.1 ++ p.2.text ++ text ts := rfl

section Ends

variable {isWord : Char → Bool} (hchars : WordChars isWord) {ts : HeaderTokens} {gap : Text}

include hchars

theorem isWord_quote_of : isWord quote = false := hchars.ascii quote (by decide)

/-- What is between a word and `begin` starts with a character of another kind. -/
theorem head_text (hspaced : Spaced true ts) (hvalid : ∀ p ∈ ts, p.2.Valid isWord)
    (hgap : IsGap gap) (hends : endsWord true ts = true → gap ≠ []) :
    ∃ c t, text ts ++ gap = c :: t ∧ isWord c = false := by
  cases ts with
  | nil =>
    obtain ⟨c, t, rfl⟩ := List.exists_cons_of_ne_nil (hends rfl)
    exact ⟨c, t, rfl, hgap.head hchars c rfl⟩
  | cons p ts =>
    obtain ⟨front, tok⟩ := p
    obtain ⟨hfront, hword, -⟩ := hspaced
    cases front with
    | cons c front => exact ⟨c, _, rfl, hfront.head hchars c rfl⟩
    | nil =>
      cases tok with
      | word t => exact absurd rfl (hword rfl rfl)
      | quoted t => exact ⟨quote, _, rfl, isWord_quote_of hchars⟩
      | mark t =>
        obtain ⟨hne, hmark⟩ := hvalid ([], .mark t) List.mem_cons_self
        obtain ⟨c, t, rfl⟩ := List.exists_cons_of_ne_nil hne
        exact ⟨c, _, rfl, (hmark c List.mem_cons_self).1⟩

/-- It ends with a character of another kind, too. -/
theorem last_text (hvalid : ∀ p ∈ ts, p.2.Valid isWord) {word : Bool} (hgap : IsGap gap)
    (hends : endsWord word ts = true → gap ≠ []) (hword : ts = [] → word = true) :
    ∃ t c, text ts ++ gap = t ++ [c] ∧ isWord c = false := by
  rcases List.eq_nil_or_concat' gap with rfl | ⟨t, c, rfl⟩
  · induction ts generalizing word with
    | nil => exact absurd rfl (hends (hword rfl))
    | cons p ts ih =>
      obtain ⟨front, tok⟩ := p
      cases ts with
      | cons q ts =>
        have hends' : endsWord true (q :: ts) = true → ([] : Text) ≠ [] := hends
        obtain ⟨t, c, htext, hc⟩ := ih (fun r hr => hvalid r (List.mem_cons_of_mem _ hr))
          (fun _ => rfl) hends'
        rw [List.append_nil] at htext ⊢
        exact ⟨front ++ tok.text ++ t, c, by rw [text_cons, htext, List.append_assoc _ t], hc⟩
      | nil =>
        cases tok with
        | word t => exact absurd rfl (hends rfl)
        | quoted t =>
          exact ⟨front ++ quote :: t, quote, by simp [HeaderToken.text], isWord_quote_of hchars⟩
        | mark t =>
          obtain ⟨hne, hmark⟩ := hvalid (front, .mark t) List.mem_cons_self
          rcases List.eq_nil_or_concat' t with rfl | ⟨t, c, rfl⟩
          · exact absurd rfl hne
          · exact ⟨front ++ t, c, by simp [HeaderToken.text], (hmark c (by simp)).1⟩
  · refine ⟨text ts ++ t, c, by rw [List.append_assoc], ?_⟩
    exact isWord_of_isSpace_or_close hchars (hgap.last c (by simp))

end Ends

end HeaderTokens

end TheoryParsing
end IsabelleGym
