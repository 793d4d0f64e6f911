import IsabelleGym.LineCount
import IsabelleGym.PosixPath
import IsabelleGym.PythonStr
import IsabelleGym.ThyStatus

/-!
# The prefix of an attempt

A candidate is checked behind the text before its line, and the lines that the
report names are counted back from there. The text is cut with `splitlines`, the
reported lines count newlines.
-/

namespace IsabelleGym
namespace AttemptPrefix

open PythonStr

def sliceTo {α : Type*} (lines : List α) (n : ℤ) : List α :=
  if 0 ≤ n then lines.take n.toNat else lines.take (lines.length - (-n).toNat)

def attemptPrefix (text : Text) (line : ℤ) : Text :=
  ['\n'].intercalate (sliceTo (splitlines text) (line - 1)) ++ ['\n']

def candidateLine (reported line : ℤ) : ℤ := reported - (line - 1)

def fileLines (text : Text) : List Text := text.splitOn '\n'

def textBefore (text : Text) (line : ℕ) : Text :=
  ((fileLines text).take (line - 1)).flatMap fun l => l ++ ['\n']

/-- The prefix is the text before the line, and behind it candidate lines are counted as in the
candidate. -/
structure Exact (text : Text) (line : ℕ) : Prop where
  newlines : (attemptPrefix text line).count '\n' = line - 1
  lines : attemptPrefix text line = textBefore text line
  candidate : ∀ candidate offset, candidateLine
      (LineCount.lineAt '\n' (attemptPrefix text line ++ candidate)
        ((attemptPrefix text line).length + offset)) line =
    LineCount.lineAt '\n' candidate offset

/-- There is a line before, no line before has another line boundary in it, and the text does not
end in the newline before the line. -/
structure Plain (text : Text) (line : ℕ) : Prop where
  second : 2 ≤ line
  noBreak : ∀ l ∈ (fileLines text).take (line - 1), ∀ c ∈ l, isLineBreak c = false
  notEnd : line = (fileLines text).length + 1 → text = [] ∨ text.getLast? ≠ some '\n'

section Splitlines

theorem splitlinesFrom_cons {c : Char} (hc : isLineBreak c = false) (line t : Text) :
    splitlinesFrom line (c :: t) = splitlinesFrom (line ++ [c]) t := by
  rw [splitlinesFrom, hc]
  · simp
  · rintro u rfl
    exact absurd hc (by decide)

theorem splitlinesFrom_append_newline (line : Text) {l : Text}
    (hl : ∀ c ∈ l, isLineBreak c = false) (t : Text) :
    splitlinesFrom line (l ++ '\n' :: t) = (line ++ l) :: splitlines t := by
  induction l generalizing line with
  | nil =>
    have hbreak : isLineBreak '\n' = true := rfl
    rw [List.nil_append, splitlinesFrom, if_pos hbreak, List.append_nil, splitlines]
    simp
  | cons c l ih =>
    rw [List.cons_append, splitlinesFrom_cons (hl c List.mem_cons_self),
      ih _ fun d hd => hl d (List.mem_cons_of_mem c hd), List.append_assoc, List.singleton_append]

theorem splitlinesFrom_eq_singleton (line : Text) {l : Text}
    (hl : ∀ c ∈ l, isLineBreak c = false) :
    splitlinesFrom line l = if (line ++ l).isEmpty then [] else [line ++ l] := by
  induction l generalizing line with
  | nil => rw [List.append_nil, splitlinesFrom]
  | cons c l ih =>
    rw [splitlinesFrom_cons (hl c List.mem_cons_self),
      ih _ fun d hd => hl d (List.mem_cons_of_mem c hd), List.append_assoc, List.singleton_append]

/-- A line that `splitlines` finds has no line boundary in it. -/
theorem isLineBreak_of_mem_splitlinesFrom {line t l : Text} (h : l ∈ splitlinesFrom line t)
    {c : Char} (hc : c ∈ l) : c ∈ line ∨ isLineBreak c = false := by
  fun_induction splitlinesFrom line t with
  | case1 line hline => cases h
  | case2 line hline =>
    rw [List.mem_singleton.mp h] at hc
    exact Or.inl hc
  | case3 line t ih =>
    rcases List.mem_cons.mp h with rfl | h
    · exact Or.inl hc
    · exact Or.inr ((ih h).resolve_left (by simp))
  | case4 line d t hpair hd ih =>
    rcases List.mem_cons.mp h with rfl | h
    · exact Or.inl hc
    · exact Or.inr ((ih h).resolve_left (by simp))
  | case5 line d t hpair hd ih =>
    rcases ih h with hmem | hbreak
    · rcases List.mem_append.mp hmem with hmem | hmem
      · exact Or.inl hmem
      · rw [List.mem_singleton.mp hmem]
        exact Or.inr (by simpa using hd)
    · exact Or.inr hbreak

/-- The lines before are found as they are, where no other line boundary is in them. -/
theorem splitlines_intercalate {L : List Text} {k : ℕ} (hk : k < L.length)
    (hL : ∀ l ∈ L.take k, ∀ c ∈ l, isLineBreak c = false) :
    splitlines (['\n'].intercalate L) = L.take k ++ splitlines (['\n'].intercalate (L.drop k)) := by
  induction k generalizing L with
  | zero => rfl
  | succ k ih =>
    cases L with
    | nil => cases hk
    | cons l L =>
      cases L with
      | nil => simp at hk
      | cons l' L =>
        have hl : ∀ c ∈ l, isLineBreak c = false := hL l (by simp)
        have hrest := ih (L := l' :: L) (by simpa using hk) fun m hm =>
          hL m (List.mem_cons_of_mem l hm)
        rw [List.intercalate_cons_cons, List.append_assoc, List.singleton_append, splitlines,
          splitlinesFrom_append_newline [] hl, hrest]
        rfl

end Splitlines

section Lines

theorem intercalate_append_newline {L : List Text} (h : L ≠ []) :
    ['\n'].intercalate L ++ ['\n'] = L.flatMap fun l => l ++ ['\n'] := by
  induction L with
  | nil => exact absurd rfl h
  | cons l L ih =>
    cases L with
    | nil => simp
    | cons l' L =>
      rw [List.intercalate_cons_cons, List.append_assoc, List.append_assoc,
        ih (List.cons_ne_nil l' L), List.flatMap_cons (x := l), List.append_assoc]

theorem mem_of_mem_intercalate {L : List Text} {c : Char} (h : c ∈ ['\n'].intercalate L) :
    c = '\n' ∨ ∃ l ∈ L, c ∈ l := by
  have hmem : c ∈ L.flatMap fun l => l ++ ['\n'] := by
    cases L with
    | nil => cases h
    | cons l L =>
      rw [← intercalate_append_newline (List.cons_ne_nil l L)]
      exact List.mem_append_left _ h
  obtain ⟨l, hl, hc⟩ := List.mem_flatMap.mp hmem
  rcases List.mem_append.mp hc with hc | hc
  · exact Or.inr ⟨l, hl, hc⟩
  · exact Or.inl (List.mem_singleton.mp hc)

theorem intercalate_concat_nil {L : List Text} (h : L ≠ []) :
    ['\n'].intercalate (L ++ [[]]) = ['\n'].intercalate L ++ ['\n'] := by
  have hboth : ['\n'].intercalate (L ++ [[]]) ++ ['\n'] =
      ['\n'].intercalate L ++ ['\n'] ++ ['\n'] := by
    rw [intercalate_append_newline (by simp), intercalate_append_newline h, List.flatMap_append]
    rfl
  exact List.append_cancel_right hboth

theorem newline_not_mem_fileLines {text l : Text} (h : l ∈ fileLines text) : '\n' ∉ l := by
  induction text generalizing l with
  | nil =>
    obtain rfl : l = [] := by simpa [fileLines, List.splitOn_nil] using h
    simp
  | cons c text ih =>
    by_cases hc : c = '\n'
    · subst hc
      have hsplit : fileLines ('\n' :: text) = [] :: fileLines text := by
        have happend := List.splitOn_append_cons_self (a := '\n') [] text
        rwa [List.nil_append, List.splitOn_nil, List.singleton_append] at happend
      rw [hsplit] at h
      rcases List.mem_cons.mp h with rfl | h
      · simp
      · exact ih h
    · have hbeq : (c == '\n') = false := by simpa using hc
      rw [fileLines, List.splitOn_cons_eq_if_modifyHead, hbeq] at h
      obtain ⟨m, ms, hsplit⟩ := List.exists_cons_of_ne_nil (List.splitOn_ne_nil '\n' text)
      rw [hsplit] at h
      have hm : ∀ l ∈ m :: ms, '\n' ∉ l := fun l hl => ih (by rwa [fileLines, hsplit])
      rcases List.mem_cons.mp h with rfl | h
      · rw [List.mem_cons, not_or]
        exact ⟨fun heq => hc heq.symm, hm m List.mem_cons_self⟩
      · exact hm l (List.mem_cons_of_mem m h)

theorem fileLines_concat_newline (text : Text) :
    fileLines (text ++ ['\n']) = fileLines text ++ [[]] := by
  rw [fileLines, List.splitOn_append_cons_self, List.splitOn_nil, fileLines]

theorem count_textBefore {text : Text} {line : ℕ} (h : line ≤ (fileLines text).length + 1) :
    (textBefore text line).count '\n' = line - 1 := by
  have hcount : ∀ L : List Text, (∀ l ∈ L, '\n' ∉ l) →
      (L.flatMap fun l => l ++ ['\n']).count '\n' = L.length := by
    intro L hL
    induction L with
    | nil => rfl
    | cons l L ih =>
      rw [List.flatMap_cons, List.count_append, List.count_append,
        List.count_eq_zero.mpr (hL l List.mem_cons_self),
        ih fun m hm => hL m (List.mem_cons_of_mem l hm), List.length_cons]
      simp
      omega
  rw [textBefore, hcount _ fun l hl => newline_not_mem_fileLines (List.mem_of_mem_take hl),
    List.length_take]
  omega

end Lines

theorem attemptPrefix_succ (text : Text) (k : ℕ) :
    attemptPrefix text (k + 1 : ℕ) =
      ['\n'].intercalate ((splitlines text).take k) ++ ['\n'] := by
  simp [attemptPrefix, sliceTo]

/-- Where the prefix is the text before the line, the lines behind it are counted from there. -/
theorem exact_of_eq {text : Text} {line : ℕ} (hone : 1 ≤ line)
    (hline : line ≤ (fileLines text).length + 1)
    (h : attemptPrefix text line = textBefore text line) : Exact text line where
  newlines := by rw [h, count_textBefore hline]
  lines := h
  candidate := by
    intro candidate offset
    rw [h, LineCount.lineAt, LineCount.lineAt, List.take_length_add_append, List.count_append,
      count_textBefore hline, candidateLine]
    omega

/-- The prefix is the text before the line when no line boundary but the newline is in that text,
which is not empty and does not end where the text of the file ends with a newline. -/
theorem eq_textBefore_of_plain {text : Text} {line : ℕ} (h : Plain text line)
    (hline : line ≤ (fileLines text).length + 1) :
    attemptPrefix text line = textBefore text line := by
  obtain ⟨k, rfl⟩ : ∃ k, line = k + 1 := ⟨line - 1, by have := h.second; omega⟩
  have hpos : 1 ≤ k := by
    have := h.second
    omega
  have htext : ['\n'].intercalate (fileLines text) = text := List.intercalate_splitOn '\n'
  have hbreak := h.noBreak
  rw [Nat.add_sub_cancel] at hbreak
  suffices hlines : (splitlines text).take k = (fileLines text).take k ∨
      (splitlines text).take k = [] ∧ (fileLines text).take k = [[]] by
    rw [attemptPrefix_succ, textBefore, Nat.add_sub_cancel]
    rcases hlines with heq | ⟨hnil, hblank⟩
    · rw [heq, intercalate_append_newline]
      rw [← List.length_pos_iff, List.length_take]
      have hlen := List.length_pos_iff.mpr (List.splitOn_ne_nil '\n' text)
      rw [fileLines]
      omega
    · rw [hnil, hblank]
      rfl
  by_cases hk : k < (fileLines text).length
  · left
    have hsplit := splitlines_intercalate hk hbreak
    rw [htext] at hsplit
    rw [hsplit, List.take_append_of_le_length, List.take_take, Nat.min_self]
    rw [List.length_take]
    omega
  · have hend := h.notEnd (by omega)
    obtain rfl : k = (fileLines text).length := by omega
    rcases List.eq_nil_or_concat' text with rfl | ⟨u, c, rfl⟩
    · exact Or.inr ⟨rfl, rfl⟩
    · left
      rw [List.take_length] at hbreak ⊢
      obtain ⟨L, x, hlast⟩ : ∃ L x, fileLines (u ++ [c]) = L ++ [x] := by
        rcases List.eq_nil_or_concat' (fileLines (u ++ [c])) with hnil | ⟨L, x, hx⟩
        · exact absurd hnil (List.splitOn_ne_nil '\n' _)
        · exact ⟨L, x, hx⟩
      rw [hlast] at htext hbreak ⊢
      have hx : x ≠ [] := by
        rintro rfl
        cases L with
        | nil => simp at htext
        | cons l L =>
          rw [intercalate_concat_nil (List.cons_ne_nil l L)] at htext
          have hnewline : '\n' = c := (List.append_inj' htext rfl).2 |> List.cons.inj |>.1
          rw [← hnewline] at hend
          simp at hend
      have hplain : ∀ c ∈ x, isLineBreak c = false := hbreak x (by simp)
      have hsplit := splitlines_intercalate (L := L ++ [x]) (k := L.length) (by simp) fun l hl =>
        hbreak l (List.mem_of_mem_take hl)
      rw [htext, List.take_left, List.drop_left, List.intercalate_singleton] at hsplit
      rw [hsplit, splitlines, splitlinesFrom_eq_singleton [] hplain, List.nil_append,
        if_neg (by simpa using hx)]
      simp

/-- A prefix that is the text before the line has no other line boundary in it. -/
theorem plain_of_exact {text : Text} {line : ℕ} (h : Exact text line) (hone : 1 ≤ line) :
    Plain text line := by
  obtain ⟨k, rfl⟩ : ∃ k, line = k + 1 := ⟨line - 1, by omega⟩
  have hnewlines := h.newlines
  have hlines := h.lines
  rw [attemptPrefix_succ] at hnewlines hlines
  rw [Nat.add_sub_cancel] at hnewlines
  have hbreak : ∀ l ∈ (fileLines text).take k, ∀ c ∈ l, isLineBreak c = false := by
    intro l hl c hc
    have hne : c ≠ '\n' := by
      rintro rfl
      exact newline_not_mem_fileLines (List.mem_of_mem_take hl) hc
    have hmem : c ∈ ['\n'].intercalate ((splitlines text).take k) ++ ['\n'] := by
      rw [hlines, textBefore]
      exact List.mem_flatMap.mpr ⟨l, hl, List.mem_append_left _ hc⟩
    rcases List.mem_append.mp hmem with hmem | hmem
    · rcases mem_of_mem_intercalate hmem with heq | ⟨m, hm, hcm⟩
      · exact absurd heq hne
      · exact (isLineBreak_of_mem_splitlinesFrom (List.mem_of_mem_take hm) hcm).resolve_left
          (by simp)
    · exact absurd (List.mem_singleton.mp hmem) hne
  refine ⟨?_, hbreak, ?_⟩
  · rw [List.count_append, List.count_singleton_self] at hnewlines
    omega
  · intro hend
    rw [Nat.add_right_cancel_iff] at hend
    subst hend
    rcases List.eq_nil_or_concat' text with rfl | ⟨u, c, rfl⟩
    · exact Or.inl rfl
    · refine Or.inr fun hlast => ?_
      rw [List.getLast?_concat, Option.some_inj] at hlast
      subst hlast
      -- The last of the lines is empty, and `splitlines` does not find it.
      have htext : ['\n'].intercalate (fileLines (u ++ ['\n'])) = u ++ ['\n'] :=
        List.intercalate_splitOn '\n'
      have hne : fileLines u ≠ [] := List.splitOn_ne_nil '\n' u
      rw [fileLines_concat_newline] at hbreak hlines htext
      rw [List.take_length] at hbreak
      have hsplit := splitlines_intercalate (L := fileLines u ++ [[]]) (k := (fileLines u).length)
        (by simp) fun l hl => hbreak l (List.mem_of_mem_take hl)
      rw [htext, List.take_left, List.drop_left, List.intercalate_singleton] at hsplit
      rw [hsplit, textBefore, fileLines_concat_newline, Nat.add_sub_cancel, List.take_length,
        splitlines, splitlinesFrom] at hlines
      simp only [List.isEmpty_nil, if_true, List.append_nil] at hlines
      rw [List.take_of_length_le (by simp), List.flatMap_append,
        ← intercalate_append_newline hne] at hlines
      have hlength := congrArg List.length hlines
      simp at hlength

/-- The prefix is exact when a line is before, no other line boundary is in the lines before, and
the text does not end in the newline before the line. -/
theorem exact_iff_plain (text : Text) {line : ℕ} (hone : 1 ≤ line)
    (hline : line ≤ (fileLines text).length + 1) : Exact text line ↔ Plain text line :=
  ⟨fun h => plain_of_exact h hone,
    fun h => exact_of_eq hone hline (eq_textBefore_of_plain h hline)⟩

theorem exact_iff_plain_second :
    Exact ['a', '\n', 'b'] 2 ∧ (Exact ['a', '\n', 'b'] 2 ↔ Plain ['a', '\n', 'b'] 2) := by
  have hiff : Exact ['a', '\n', 'b'] 2 ↔ Plain ['a', '\n', 'b'] 2 :=
    exact_iff_plain ['a', '\n', 'b'] (by decide) (by decide)
  refine ⟨hiff.mpr ⟨le_rfl, ?_, by decide⟩, hiff⟩
  have htake : (fileLines ['a', '\n', 'b']).take (2 - 1) = [['a']] := rfl
  rw [htake]
  simp [isLineBreak]

/-- A form feed ends a line of `splitlines`: the last line before is lost. -/
theorem not_exact_form_feed :
    ¬ Exact ['a', Char.ofNat 12, 'b', '\n', 'c', '\n'] 3 := fun h =>
  absurd h.lines (by decide)

end AttemptPrefix
end IsabelleGym
