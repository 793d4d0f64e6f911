import IsabelleGym.CommentDepth
import IsabelleGym.HeaderText
import IsabelleGym.HeaderImports

/-!
# Headers without their comments

A gap leaves its white space, whatever stands behind it. A token is left as it is
where no comment opens in it; where one opens, an asterisk of the token is lost.
-/

namespace IsabelleGym
namespace TheoryParsing

open PythonStr

section Steps

theorem strip_open (depth : ℕ) (t : Text) :
    stripTheoryComments depth ('(' :: '*' :: t) = stripTheoryComments (depth + 1) t := by
  rw [stripTheoryComments]

theorem strip_close (depth : ℕ) (t : Text) :
    stripTheoryComments (depth + 1) ('*' :: ')' :: t) = stripTheoryComments depth t := by
  rw [stripTheoryComments]

theorem strip_zero_cons {c : Char} {t : Text} (h : ¬ (c = '(' ∧ t.head? = some '*')) :
    stripTheoryComments 0 (c :: t) = c :: stripTheoryComments 0 t := by
  rw [stripTheoryComments]
  rintro u rfl rfl
  exact h ⟨rfl, rfl⟩

theorem strip_succ_cons {c : Char} {t : Text} (depth : ℕ)
    (hopen : ¬ (c = '(' ∧ t.head? = some '*')) (hclose : ¬ (c = '*' ∧ t.head? = some ')')) :
    stripTheoryComments (depth + 1) (c :: t) =
      (if c = '\n' then ['\n'] else []) ++ stripTheoryComments (depth + 1) t := by
  rw [stripTheoryComments]
  · split_ifs <;> rfl
  · rintro u rfl rfl
    exact hopen ⟨rfl, rfl⟩
  · rintro u rfl rfl
    exact hclose ⟨rfl, rfl⟩

end Steps

section Gaps

/-- A comment leaves its newlines at any depth. -/
theorem exists_strip_closes {k : ℕ} {u : Text} (h : closesComments k u = true) (depth : ℕ) :
    ∃ blanks, (∀ c ∈ blanks, c = '\n') ∧ ∀ t,
      stripTheoryComments (depth + k) (u ++ t) = blanks ++ stripTheoryComments depth t := by
  fun_induction closesComments k u with
  | case1 u =>
    rw [List.isEmpty_iff] at h
    exact ⟨[], by simp, fun t => by rw [h]; rfl⟩
  | case2 k u ih =>
    obtain ⟨blanks, hblanks, hstrip⟩ := ih h
    exact ⟨blanks, hblanks, fun t => (strip_open (depth + (k + 1)) (u ++ t)).trans (hstrip t)⟩
  | case3 k u ih =>
    obtain ⟨blanks, hblanks, hstrip⟩ := ih h
    exact ⟨blanks, hblanks, fun t => (strip_close (depth + k) (u ++ t)).trans (hstrip t)⟩
  | case4 k c u hopen hclose ih =>
    obtain ⟨blanks, hblanks, hstrip⟩ := ih h
    cases u with
    | nil => cases h
    | cons d u =>
      refine ⟨(if c = '\n' then ['\n'] else []) ++ blanks, ?_, fun t => ?_⟩
      · intro e he
        rcases List.mem_append.mp he with he | he
        · split_ifs at he
          · exact List.mem_singleton.mp he
          · cases he
        · exact hblanks e he
      · have hstep := strip_succ_cons (c := c) (t := d :: (u ++ t)) (depth + k)
          (by
            rintro ⟨rfl, hd⟩
            obtain rfl : d = '*' := by simpa using hd
            exact hopen u rfl rfl)
          (by
            rintro ⟨rfl, hd⟩
            obtain rfl : d = ')' := by simpa using hd
            exact hclose u rfl rfl)
        have hrest := hstrip t
        rw [List.cons_append] at hrest
        rw [List.cons_append, List.cons_append, List.append_assoc, ← hrest]
        exact hstep
  | case5 k => cases h

theorem IsGap.exists_strip {gap : Text} (h : IsGap gap) (depth : ℕ) :
    ∃ blanks, (∀ c ∈ blanks, isSpace c = true) ∧ ∀ t,
      stripTheoryComments depth (gap ++ t) = blanks ++ stripTheoryComments depth t := by
  induction h with
  | nil => exact ⟨[], by simp, fun t => rfl⟩
  | @space c gap hc hgap ih =>
    obtain ⟨blanks, hblanks, hstrip⟩ := ih
    have hopen : ∀ t : Text, ¬ (c = '(' ∧ t.head? = some '*') := by
      rintro t ⟨rfl, -⟩
      cases hc
    have hclose : ∀ t : Text, ¬ (c = '*' ∧ t.head? = some ')') := by
      rintro t ⟨rfl, -⟩
      cases hc
    cases depth with
    | zero =>
      refine ⟨c :: blanks, List.forall_mem_cons.mpr ⟨hc, hblanks⟩, fun t => ?_⟩
      rw [List.cons_append, strip_zero_cons (hopen _), hstrip t]
      rfl
    | succ depth =>
      refine ⟨(if c = '\n' then ['\n'] else []) ++ blanks, ?_, fun t => ?_⟩
      · intro e he
        rcases List.mem_append.mp he with he | he
        · split_ifs at he with hnl
          · rw [List.mem_singleton.mp he]
            rfl
          · cases he
        · exact hblanks e he
      · rw [List.cons_append, strip_succ_cons depth (hopen _) (hclose _), hstrip t,
          List.append_assoc]
  | @comment a gap ha hgap ih =>
    obtain ⟨blanks, hblanks, hstrip⟩ := ih
    obtain ⟨u, rfl, hu⟩ := ha
    obtain ⟨lines, hlines, hcomment⟩ := exists_strip_closes hu depth
    refine ⟨lines ++ blanks, ?_, fun t => ?_⟩
    · intro c hc
      rcases List.mem_append.mp hc with hc | hc
      · rw [hlines c hc]
        rfl
      · exact hblanks c hc
    · rw [List.append_assoc, List.cons_append, List.cons_append, strip_open, hcomment, hstrip t,
        List.append_assoc]

/-- A gap leaves white space only. -/
theorem IsGap.isSpace_strip {gap : Text} (h : IsGap gap) (depth : ℕ) :
    ∀ c ∈ stripTheoryComments depth gap, isSpace c = true := by
  obtain ⟨blanks, hblanks, hstrip⟩ := h.exists_strip depth
  have hnil := hstrip []
  rw [List.append_nil, stripTheoryComments, List.append_nil] at hnil
  rwa [hnil]

theorem IsGap.strip_append {gap : Text} (h : IsGap gap) (depth : ℕ) (t : Text) :
    stripTheoryComments depth (gap ++ t) =
      stripTheoryComments depth gap ++ stripTheoryComments depth t := by
  obtain ⟨blanks, -, hstrip⟩ := h.exists_strip depth
  have hnil := hstrip []
  rw [List.append_nil, stripTheoryComments, List.append_nil] at hnil
  rw [hstrip t, hnil]

end Gaps

section Tokens

def opensComment : Text → Bool
  | '(' :: '*' :: _ => true
  | _ :: t => opensComment t
  | [] => false

theorem opensComment_of_not_mem {t : Text} (h : '(' ∉ t) : opensComment t = false := by
  fun_induction opensComment t with
  | case1 t => exact absurd List.mem_cons_self h
  | case2 c t hopen ih => exact ih fun hmem => h (List.mem_cons_of_mem c hmem)
  | case3 => rfl

/-- A text in which no comment opens is left as it is. -/
theorem strip_append_of_not_opens {w : Text} (h : opensComment w = false)
    (hlast : ∀ c ∈ w.getLast?, c ≠ '(') (t : Text) :
    stripTheoryComments 0 (w ++ t) = w ++ stripTheoryComments 0 t := by
  fun_induction opensComment w with
  | case1 w => cases h
  | case2 c w hopen ih =>
    have hstep : ¬ (c = '(' ∧ (w ++ t).head? = some '*') := by
      rintro ⟨rfl, hhead⟩
      cases w with
      | nil => exact hlast '(' rfl rfl
      | cons d w =>
        obtain rfl : d = '*' := by simpa using hhead
        exact hopen w rfl rfl
    rw [List.cons_append, strip_zero_cons hstep, ih h fun d hd => ?_]
    · rfl
    · refine hlast d ?_
      rw [List.getLast?_cons, Option.mem_def.mp hd]
      rfl
  | case3 => rfl

/-- At the end of a text behind which no comment opens or closes, there is some depth. -/
theorem exists_depth (depth : ℕ) {w : Text} (hlast : ∀ c ∈ w.getLast?, c ≠ '(' ∧ c ≠ '*') :
    ∃ depth', ∀ t, stripTheoryComments depth (w ++ t) =
      stripTheoryComments depth w ++ stripTheoryComments depth' t := by
  have htail : ∀ {c : Char} {u : Text}, (∀ d ∈ (c :: u).getLast?, d ≠ '(' ∧ d ≠ '*') →
      ∀ d ∈ u.getLast?, d ≠ '(' ∧ d ≠ '*' := by
    intro c u h d hd
    refine h d ?_
    rw [List.getLast?_cons, Option.mem_def.mp hd]
    rfl
  -- What follows the last character does not change what it is.
  have hhead : ∀ {c d : Char} {u : Text}, (∀ e ∈ (c :: u).getLast?, e ≠ '(' ∧ e ≠ '*') →
      c = '(' ∨ c = '*' → ∀ t : Text, (u ++ t).head? = some d → u.head? = some d := by
    intro c d u h hc t hd
    cases u with
    | nil =>
      have hne := h c rfl
      rcases hc with rfl | rfl
      · exact absurd rfl hne.1
      · exact absurd rfl hne.2
    | cons e u => exact hd
  fun_induction stripTheoryComments depth w with
  | case1 depth => exact ⟨depth, fun t => rfl⟩
  | case2 depth w ih =>
    obtain ⟨depth', hstrip⟩ := ih (htail (htail hlast))
    exact ⟨depth', fun t => (strip_open depth (w ++ t)).trans (hstrip t)⟩
  | case3 depth w ih =>
    obtain ⟨depth', hstrip⟩ := ih (htail (htail hlast))
    exact ⟨depth', fun t => (strip_close depth (w ++ t)).trans (hstrip t)⟩
  | case4 c w hopen ih =>
    obtain ⟨depth', hstrip⟩ := ih (htail hlast)
    refine ⟨depth', fun t => ?_⟩
    have hstep : ¬ (c = '(' ∧ (w ++ t).head? = some '*') := by
      rintro ⟨rfl, hd⟩
      obtain ⟨u, rfl⟩ := List.head?_eq_some_iff.mp (hhead hlast (Or.inl rfl) t hd)
      exact hopen u rfl rfl
    rw [List.cons_append, strip_zero_cons hstep, hstrip t]
    rfl
  | case5 depth w hopen hclose ih =>
    obtain ⟨depth', hstrip⟩ := ih (htail hlast)
    refine ⟨depth', fun t => ?_⟩
    rw [List.cons_append, strip_succ_cons depth (by rintro ⟨⟨⟩, -⟩) (by rintro ⟨⟨⟩, -⟩), hstrip t]
    rfl
  | case6 depth c w hopen hclose hc ih =>
    obtain ⟨depth', hstrip⟩ := ih (htail hlast)
    refine ⟨depth', fun t => ?_⟩
    have hopen' : ¬ (c = '(' ∧ (w ++ t).head? = some '*') := by
      rintro ⟨rfl, hd⟩
      obtain ⟨u, rfl⟩ := List.head?_eq_some_iff.mp (hhead hlast (Or.inl rfl) t hd)
      exact hopen u rfl rfl
    have hclose' : ¬ (c = '*' ∧ (w ++ t).head? = some ')') := by
      rintro ⟨rfl, hd⟩
      obtain ⟨u, rfl⟩ := List.head?_eq_some_iff.mp (hhead hlast (Or.inr rfl) t hd)
      exact hclose u rfl rfl
    rw [List.cons_append, strip_succ_cons depth hopen' hclose', if_neg hc, List.nil_append,
      hstrip t]

theorem strip_sublist (depth : ℕ) (w : Text) : (stripTheoryComments depth w).Sublist w := by
  fun_induction stripTheoryComments depth w with
  | case1 => exact List.Sublist.slnil
  | case2 depth w ih => exact (ih.cons '*').cons '('
  | case3 depth w ih => exact (ih.cons ')').cons '*'
  | case4 c w hopen ih => exact ih.cons_cons c
  | case5 depth w hopen hclose ih => exact ih.cons_cons '\n'
  | case6 depth c w hopen hclose hc ih => exact ih.cons c

/-- Where a comment opens an asterisk is lost. -/
theorem count_strip_of_opens {w : Text} (h : opensComment w = true) :
    (stripTheoryComments 0 w).count '*' < w.count '*' := by
  fun_induction opensComment w with
  | case1 w =>
    have hle := (strip_sublist 1 w).count_le '*'
    rw [strip_open, Nat.zero_add, List.count_cons_of_ne (by decide), List.count_cons_self]
    omega
  | case2 c w hopen ih =>
    have hstep : ¬ (c = '(' ∧ w.head? = some '*') := by
      rintro ⟨rfl, hd⟩
      obtain ⟨u, rfl⟩ := List.head?_eq_some_iff.mp hd
      exact hopen u rfl rfl
    have hlt := ih h
    rw [strip_zero_cons hstep, List.count_cons, List.count_cons]
    omega
  | case3 => cases h

end Tokens

namespace HeaderTokens

variable {ts : HeaderTokens}

def tokenCount (c : Char) (ts : HeaderTokens) : ℕ := (ts.flatMap fun p => p.2.text).count c

/-- Between tokens comments open and close only in the gaps and inside a token. -/
def Closed (ts : HeaderTokens) : Prop :=
  ∀ p ∈ ts, IsGap p.1 ∧ ∀ c ∈ p.2.text.getLast?, c ≠ '(' ∧ c ≠ '*'

theorem count_strip_gap {gap : Text} (hgap : IsGap gap) {c : Char} (hc : isSpace c = false)
    (depth : ℕ) (t : Text) :
    (stripTheoryComments depth (gap ++ t)).count c = (stripTheoryComments depth t).count c := by
  have hnone : (stripTheoryComments depth gap).count c = 0 := by
    rw [List.count_eq_zero]
    intro hmem
    rw [hgap.isSpace_strip depth c hmem] at hc
    cases hc
  rw [hgap.strip_append, List.count_append, hnone, Nat.zero_add]

/-- Stripped tokens have no character more often than the tokens, whatever the depth in front. -/
theorem count_strip_le (h : ts.Closed) {c : Char} (hc : isSpace c = false) (depth : ℕ) :
    (stripTheoryComments depth ts.text).count c ≤ ts.tokenCount c := by
  induction ts generalizing depth with
  | nil => simp [stripTheoryComments]
  | cons p ts ih =>
    obtain ⟨hgap, hlast⟩ := h p List.mem_cons_self
    obtain ⟨depth', hstrip⟩ := exists_depth depth hlast
    have hrest := ih (fun q hq => h q (List.mem_cons_of_mem p hq)) depth'
    have htoken := (strip_sublist depth p.2.text).count_le c
    rw [text_cons, List.append_assoc, count_strip_gap hgap hc, hstrip, List.count_append]
    rw [tokenCount, List.flatMap_cons, List.count_append]
    rw [tokenCount] at hrest
    omega

/-- Where a comment opens in one of the tokens an asterisk is lost. -/
theorem count_strip_lt (h : ts.Closed) (hopens : ∃ p ∈ ts, opensComment p.2.text = true) :
    (stripTheoryComments 0 ts.text).count '*' < ts.tokenCount '*' := by
  induction ts with
  | nil => simp at hopens
  | cons p ts ih =>
    obtain ⟨hgap, hlast⟩ := h p List.mem_cons_self
    have hts : Closed ts := fun q hq => h q (List.mem_cons_of_mem p hq)
    rw [text_cons, List.append_assoc, count_strip_gap hgap (by decide), tokenCount,
      List.flatMap_cons, List.count_append]
    cases hp : opensComment p.2.text with
    | true =>
      obtain ⟨depth', hstrip⟩ := exists_depth 0 hlast
      have hlt := count_strip_of_opens hp
      have hle := count_strip_le hts (c := '*') (by decide) depth'
      rw [tokenCount] at hle
      rw [hstrip, List.count_append]
      omega
    | false =>
      have hrest : ∃ q ∈ ts, opensComment q.2.text = true := by
        obtain ⟨q, hq, hopen⟩ := hopens
        rcases List.mem_cons.mp hq with rfl | hq
        · rw [hp] at hopen
          cases hopen
        · exact ⟨q, hq, hopen⟩
      have hlt := ih hts hrest
      rw [tokenCount] at hlt
      rw [strip_append_of_not_opens hp (fun c hc => (hlast c hc).1), List.count_append]
      omega

end HeaderTokens

end TheoryParsing
end IsabelleGym
