import IsabelleGym.LineCount
import IsabelleGym.TheoryHeader

/-!
# The comment depth of a position

Comments are read from left to right, one position after the other: in front of
every position of a text stand a depth and the question whether the position is
the second half of a delimiter. The stripper goes over a text in steps of one
or two characters; what it keeps is told here position by position.
-/

namespace IsabelleGym
namespace TheoryParsing

structure CommentState where
  depth : ℕ
  second : Bool
deriving DecidableEq

namespace CommentState

def goesOn (t : Text) (delimiter : Text) : Bool := delimiter.isPrefixOf t

/-- The position behind which `t` goes on opens a comment. -/
def opens (s : CommentState) (t : Text) : Bool := !s.second && goesOn t "(*".toList

/-- It closes one; outside of comments nothing is closed. -/
def closes (s : CommentState) (t : Text) : Bool :=
  !s.second && decide (0 < s.depth) && goesOn t "*)".toList

def inDelimiter (s : CommentState) (t : Text) : Bool := s.second || s.opens t || s.closes t

def next (s : CommentState) (t : Text) : CommentState :=
  if s.opens t then ⟨s.depth + 1, true⟩
  else if s.closes t then ⟨s.depth - 1, true⟩
  else ⟨s.depth, false⟩

/-- The state in front of each position of the text. -/
def inFront (s : CommentState) (t : Text) : ℕ → CommentState
  | 0 => s
  | i + 1 => (s.inFront t i).next (t.drop i)

/-- A character is outside of comments and in no delimiter, or a newline. -/
def survives (s : CommentState) (t : Text) (entry : Char × ℕ) : Bool :=
  entry.1 = '\n' ||
    (s.inFront t entry.2).depth == 0 && !(s.inFront t entry.2).inDelimiter (t.drop entry.2)

def survivors (s : CommentState) (t : Text) : List (Char × ℕ) := t.zipIdx.filter (s.survives t)

section Survivors

variable (s : CommentState) (c : Char) (t : Text)

theorem inFront_cons (i : ℕ) : s.inFront (c :: t) (i + 1) = (s.next (c :: t)).inFront t i := by
  induction i with
  | zero => rfl
  | succ i ih => rw [inFront, ih, inFront, List.drop_succ_cons]

/-- What survives of a text is its first character, if that does, and what survives of the rest. -/
theorem map_fst_survivors_cons : (s.survivors (c :: t)).map Prod.fst =
    (if s.survives (c :: t) (c, 0) then [c] else []) ++
      ((s.next (c :: t)).survivors t).map Prod.fst := by
  have hshift : ∀ entry : Char × ℕ, s.survives (c :: t) (entry.1, entry.2 + 1) =
      (s.next (c :: t)).survives t entry := by
    intro entry
    rw [survives, survives, inFront_cons, List.drop_succ_cons]
  have hrest : ((t.zipIdx 1).filter (s.survives (c :: t))).map Prod.fst =
      ((s.next (c :: t)).survivors t).map Prod.fst := by
    rw [List.zipIdx_succ, List.filter_map, List.map_map, survivors]
    refine congrArg₂ List.map rfl (List.filter_congr fun entry _ => ?_)
    exact hshift entry
  rw [survivors, List.zipIdx_cons, Nat.zero_add, List.filter_cons, ← hrest]
  split <;> simp

section Plain

variable (depth : ℕ) (hopen : goesOn (c :: t) "(*".toList = false)
  (hclose : 0 < depth → goesOn (c :: t) "*)".toList = false)

include hopen in
theorem opens_of_plain : (CommentState.mk depth false).opens (c :: t) = false := by
  rw [opens, hopen, Bool.and_false]

include hclose in
theorem closes_of_plain : (CommentState.mk depth false).closes (c :: t) = false := by
  by_cases hdepth : 0 < depth
  · rw [closes, hclose hdepth, Bool.and_false]
  · simp [closes, hdepth]

include hopen hclose

/-- A position that neither opens nor closes a comment leaves the depth as it is. -/
theorem next_of_plain : (CommentState.mk depth false).next (c :: t) = ⟨depth, false⟩ := by
  simp [next, opens_of_plain c t depth hopen, closes_of_plain c t depth hclose]

theorem map_fst_survivors_of_plain :
    ((CommentState.mk depth false).survivors (c :: t)).map Prod.fst =
      (if c = '\n' ∨ depth = 0 then [c] else []) ++
        ((CommentState.mk depth false).survivors t).map Prod.fst := by
  have hsurvives : (CommentState.mk depth false).survives (c :: t) (c, 0) =
      decide (c = '\n' ∨ depth = 0) := by
    rw [Bool.eq_iff_iff]
    simp [survives, inFront, inDelimiter, opens_of_plain c t depth hopen,
      closes_of_plain c t depth hclose]
  rw [map_fst_survivors_cons, next_of_plain c t depth hopen hclose, hsurvives]
  simp only [decide_eq_true_eq]

end Plain

end Survivors

theorem goesOn_eq_false {t : Text} {a b : Char}
    (h : ∀ u, t = a :: b :: u → False) : goesOn t [a, b] = false := by
  rw [goesOn, ← Bool.not_eq_true, List.isPrefixOf_iff_prefix]
  rintro ⟨u, rfl⟩
  exact h u rfl

end CommentState

/-- Stripping keeps what survives. -/
theorem stripTheoryComments_eq_survivors (depth : ℕ) (t : Text) :
    stripTheoryComments depth t = ((CommentState.mk depth false).survivors t).map Prod.fst := by
  fun_induction stripTheoryComments depth t with
  | case1 => rfl
  | case2 depth t ih =>
    rw [ih, CommentState.map_fst_survivors_cons, CommentState.map_fst_survivors_cons]
    simp [CommentState.survives, CommentState.inFront, CommentState.inDelimiter,
      CommentState.opens, CommentState.closes, CommentState.goesOn, CommentState.next]
  | case3 depth t ih =>
    rw [ih, CommentState.map_fst_survivors_cons, CommentState.map_fst_survivors_cons]
    simp [CommentState.survives, CommentState.inFront, CommentState.inDelimiter,
      CommentState.opens, CommentState.closes, CommentState.goesOn, CommentState.next]
  | case4 c t hopen ih =>
    have hplain : CommentState.goesOn (c :: t) "(*".toList = false :=
      CommentState.goesOn_eq_false fun u heq => by cases heq; exact hopen u rfl rfl
    rw [ih, CommentState.map_fst_survivors_of_plain c t 0 hplain (by simp)]
    simp
  | case5 depth t hopen hclose ih =>
    have hplain : ∀ a b, '\n' ≠ a → CommentState.goesOn ('\n' :: t) [a, b] = false :=
      fun a b hne => CommentState.goesOn_eq_false fun u heq => hne (List.cons.inj heq).1
    rw [ih, CommentState.map_fst_survivors_of_plain '\n' t _ (hplain _ _ (by decide))
      fun _ => hplain _ _ (by decide)]
    simp
  | case6 depth c t hopen hclose hc ih =>
    have hplain : CommentState.goesOn (c :: t) "(*".toList = false :=
      CommentState.goesOn_eq_false fun u heq => by cases heq; exact hopen u rfl rfl
    have hplain' : CommentState.goesOn (c :: t) "*)".toList = false :=
      CommentState.goesOn_eq_false fun u heq => by cases heq; exact hclose u rfl rfl
    rw [ih, CommentState.map_fst_survivors_of_plain c t _ hplain fun _ => hplain']
    simp [hc]

/-- As far as the newlines survive, what survives is on the line that it was on. -/
theorem count_newlines_of_survivor {p : Char × ℕ → Bool} (hp : ∀ i, p ('\n', i) = true)
    (t : Text) (n : ℕ) {k i : ℕ} {c : Char} (h : ((t.zipIdx n).filter p)[k]? = some (c, i)) :
    n ≤ i ∧ (((t.zipIdx n).filter p).take k |>.map Prod.fst).count '\n' =
      (t.take (i - n)).count '\n' := by
  induction t generalizing n k with
  | nil => cases h
  | cons d t ih =>
    rw [List.zipIdx_cons, List.filter_cons] at h ⊢
    by_cases hd : p (d, n) = true
    · rw [if_pos hd] at h ⊢
      cases k with
      | zero =>
        obtain ⟨rfl, rfl⟩ := Prod.mk.inj (Option.some.inj h)
        simp
      | succ k =>
        obtain ⟨hle, hcount⟩ := ih (n + 1) h
        refine ⟨by omega, ?_⟩
        have hsub : i - n = (i - (n + 1)) + 1 := by omega
        rw [hsub, List.take_succ_cons, List.take_succ_cons, List.map_cons, List.count_cons,
          List.count_cons, hcount]
    · rw [if_neg hd] at h ⊢
      have hne : d ≠ '\n' := by
        rintro rfl
        exact hd (hp n)
      obtain ⟨hle, hcount⟩ := ih (n + 1) h
      refine ⟨by omega, ?_⟩
      have hsub : i - n = (i - (n + 1)) + 1 := by omega
      rw [hcount, hsub, List.take_succ_cons, List.count_cons_of_ne hne]

/-- `strip_theory_comments` keeps the newlines and the characters outside of comments and
delimiters, each on its line; behind a comment that is not closed that is the newlines. -/
theorem stripTheoryComments_exact (t : Text) :
    stripTheoryComments 0 t = ((CommentState.mk 0 false).survivors t).map Prod.fst ∧
      (∀ k c i, ((CommentState.mk 0 false).survivors t)[k]? = some (c, i) →
        LineCount.lineAt '\n' (stripTheoryComments 0 t) k = LineCount.lineAt '\n' t i) ∧
      ∀ i, (∀ j, i < j → j ≤ t.length → 0 < ((CommentState.mk 0 false).inFront t j).depth) →
        ∀ entry ∈ (CommentState.mk 0 false).survivors t, i ≤ entry.2 → entry.1 = '\n' := by
  refine ⟨stripTheoryComments_eq_survivors 0 t, ?_, ?_⟩
  · intro k c i h
    have hcount := (count_newlines_of_survivor (by simp [CommentState.survives]) t 0 h).2
    rw [LineCount.lineAt, LineCount.lineAt, stripTheoryComments_eq_survivors, ← List.map_take]
    exact congrArg (1 + ·) hcount
  · rintro i hopen ⟨c, j⟩ hin hle
    obtain ⟨hmem, hsurvives⟩ := List.mem_filter.mp hin
    have hlt : j < t.length := by
      simpa using (List.mem_zipIdx hmem).2.1
    -- the comment is open behind the position, so the position is in it or opens it
    have hbehind := hopen (j + 1) (by omega) (by omega)
    rw [CommentState.inFront, CommentState.next] at hbehind
    rw [CommentState.survives, Bool.or_eq_true, Bool.and_eq_true] at hsurvives
    rcases hsurvives with hnewline | ⟨hdepth, hno⟩
    · simpa using hnewline
    · simp only [CommentState.inDelimiter, Bool.not_eq_true', Bool.or_eq_false_iff] at hno
      simp only [hno, Bool.false_eq_true, if_false] at hbehind
      have hzero : ((CommentState.mk 0 false).inFront t j).depth = 0 := beq_iff_eq.mp hdepth
      omega

/-- A star between parentheses opens a comment and closes none. -/
example : stripTheoryComments 0 "a(*)b*)(*\n".toList = "a\n".toList := by decide

end TheoryParsing
end IsabelleGym
