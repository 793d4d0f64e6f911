import Mathlib.Data.List.DropRight

/-!
# Stripping and splitting of strings

The string methods `strip`, `lstrip` and `splitlines` on lists of characters,
with the white space and the line boundaries of Python. The stripped lines with
content do not depend on white space around the text, and joining texts with a
newline joins them.
-/

namespace PythonStr

/-- The code points that `strip` removes. -/
def isSpace (c : Char) : Bool :=
  let n := c.toNat
  (9 ≤ n && n ≤ 13) || (28 ≤ n && n ≤ 32) || n = 0x85 || n = 0xA0 || n = 0x1680 ||
    (0x2000 ≤ n && n ≤ 0x200A) || n = 0x2028 || n = 0x2029 || n = 0x202F || n = 0x205F ||
    n = 0x3000

/-- The line boundaries of `splitlines`. -/
def isLineBreak (c : Char) : Bool :=
  let n := c.toNat
  (10 ≤ n && n ≤ 13) || (28 ≤ n && n ≤ 30) || n = 0x85 || n = 0x2028 || n = 0x2029

def lstrip (t : List Char) : List Char := t.dropWhile isSpace

def rstrip (t : List Char) : List Char := t.rdropWhile isSpace

def strip (t : List Char) : List Char := rstrip (lstrip t)

def splitlinesFrom : List Char → List Char → List (List Char)
  | line, [] => if line.isEmpty then [] else [line]
  | line, '\r' :: '\n' :: t => line :: splitlinesFrom [] t
  | line, c :: t =>
    if isLineBreak c then line :: splitlinesFrom [] t else splitlinesFrom (line ++ [c]) t

def splitlines (t : List Char) : List (List Char) := splitlinesFrom [] t

theorem isSpace_of_isLineBreak {c : Char} (h : isLineBreak c = true) : isSpace c = true := by
  simp only [isLineBreak, isSpace, Bool.or_eq_true, Bool.and_eq_true, decide_eq_true_eq] at h ⊢
  omega

theorem count_eq_zero_of_forall {t : List Char} (ht : ∀ d ∈ t, isSpace d = true) {c : Char}
    (hc : isSpace c = false) : t.count c = 0 := by
  rw [List.count_eq_zero]
  intro hmem
  rw [ht c hmem] at hc
  cases hc

@[simp] theorem strip_nil : strip [] = [] := rfl

theorem strip_cons_of_isSpace {c : Char} (h : isSpace c = true) (t : List Char) :
    strip (c :: t) = strip t := by
  simp [strip, lstrip, h]

theorem rstrip_concat_of_isSpace {c : Char} (h : isSpace c = true) (t : List Char) :
    rstrip (t ++ [c]) = rstrip t :=
  List.rdropWhile_concat_pos _ _ _ h

theorem strip_concat_of_isSpace {c : Char} (h : isSpace c = true) (t : List Char) :
    strip (t ++ [c]) = strip t := by
  induction t with
  | nil => simp [strip_cons_of_isSpace h]
  | cons d t ih =>
    by_cases hd : isSpace d = true
    · rw [List.cons_append, strip_cons_of_isSpace hd, strip_cons_of_isSpace hd, ih]
    · simp only [strip, lstrip, List.cons_append, List.dropWhile_cons_of_neg hd]
      exact rstrip_concat_of_isSpace h (d :: t)

/-- Removing trailing white space commutes with extending on the left by
anything, once something is left. -/
theorem rstrip_append {a b : List Char} (hb : rstrip b ≠ []) : rstrip (a ++ b) = a ++ rstrip b := by
  induction b using List.reverseRecOn with
  | nil => exact absurd rfl hb
  | append_singleton b c ih =>
    by_cases hc : isSpace c = true
    · rw [rstrip_concat_of_isSpace hc] at hb ⊢
      rw [← List.append_assoc, rstrip_concat_of_isSpace hc, ih hb]
    · rw [← List.append_assoc, rstrip, rstrip, List.rdropWhile_concat_neg _ _ _ hc,
        List.rdropWhile_concat_neg _ _ _ hc, List.append_assoc]

theorem rstrip_append_of_nil {a b : List Char} (hb : rstrip b = []) :
    rstrip (a ++ b) = rstrip a := by
  induction b using List.reverseRecOn with
  | nil => rw [List.append_nil]
  | append_singleton b c ih =>
    have hc : isSpace c = true := List.rdropWhile_eq_nil_iff.mp hb c (by simp)
    rw [rstrip_concat_of_isSpace hc] at hb
    rw [← List.append_assoc, rstrip_concat_of_isSpace hc, ih hb]

theorem rstrip_prefix_append (a b : List Char) : rstrip a <+: rstrip (a ++ b) := by
  by_cases hb : rstrip b = []
  · simp [rstrip_append_of_nil hb]
  · rw [rstrip_append hb]
    exact (List.rdropWhile_prefix isSpace a).trans (List.prefix_append _ _)

theorem rstrip_eq_nil_iff {t : List Char} : rstrip t = [] ↔ ∀ c ∈ t, isSpace c = true :=
  List.rdropWhile_eq_nil_iff

/-- What is left of a nonblank text behind its leading white space is no white space. -/
theorem strip_eq_nil_iff {t : List Char} : strip t = [] ↔ ∀ c ∈ t, isSpace c = true := by
  induction t with
  | nil => simp
  | cons c t ih =>
    by_cases hc : isSpace c = true
    · rw [strip_cons_of_isSpace hc, ih]
      simp [hc]
    · rw [strip, lstrip, List.dropWhile_cons_of_neg hc, rstrip_eq_nil_iff]

theorem strip_strip (t : List Char) : strip (strip t) = strip t := by
  induction t with
  | nil => rfl
  | cons c t ih =>
    by_cases hc : isSpace c = true
    · rw [strip_cons_of_isSpace hc, ih]
    · have hstrip : strip (c :: t) = rstrip (c :: t) := by
        rw [strip, lstrip, List.dropWhile_cons_of_neg hc]
      have hhead : ∃ u, rstrip (c :: t) = c :: u := by
        by_cases ht : rstrip t = []
        · refine ⟨[], ?_⟩
          rw [← List.singleton_append, rstrip_append_of_nil ht]
          simp [rstrip, List.rdropWhile_singleton, hc]
        · exact ⟨rstrip t, by rw [← List.singleton_append, rstrip_append ht]; rfl⟩
      obtain ⟨u, hu⟩ := hhead
      have hagain : strip (c :: u) = rstrip (c :: u) := by
        rw [strip, lstrip, List.dropWhile_cons_of_neg hc]
      rw [hstrip, hu, hagain, ← hu]
      exact List.rdropWhile_idempotent _ _

/-- `strip` takes white space away at both ends. -/
theorem exists_strip (t : List Char) : ∃ lead trail, t = lead ++ strip t ++ trail ∧
    (∀ c ∈ lead, isSpace c = true) ∧ ∀ c ∈ trail, isSpace c = true := by
  refine ⟨t.takeWhile isSpace, (lstrip t).rtakeWhile isSpace, ?_, ?_, ?_⟩
  · rw [List.append_assoc, strip, rstrip, List.rdropWhile_append_rtakeWhile, lstrip,
      List.takeWhile_append_dropWhile]
  · exact fun c hc => List.mem_takeWhile_imp hc
  · exact fun c hc => List.mem_rtakeWhile_imp hc

def visible (t : List Char) : List Char := t.filter fun c => !isSpace c

@[simp] theorem visible_nil : visible [] = [] := rfl

@[simp] theorem visible_append (a b : List Char) : visible (a ++ b) = visible a ++ visible b :=
  List.filter_append a b

theorem visible_eq_nil_iff {t : List Char} : visible t = [] ↔ ∀ c ∈ t, isSpace c = true := by
  simp [visible, List.filter_eq_nil_iff]

theorem visible_strip (t : List Char) : visible (strip t) = visible t := by
  obtain ⟨lead, trail, ht, hlead, htrail⟩ := exists_strip t
  conv_rhs => rw [ht]
  rw [visible_append, visible_append, visible_eq_nil_iff.mpr hlead, visible_eq_nil_iff.mpr htrail,
    List.nil_append, List.append_nil]

theorem visible_rstrip (t : List Char) : visible (rstrip t) = visible t := by
  have ht : rstrip t ++ t.rtakeWhile isSpace = t := List.rdropWhile_append_rtakeWhile
  have htrail : visible (t.rtakeWhile isSpace) = [] :=
    visible_eq_nil_iff.mpr fun c hc => List.mem_rtakeWhile_imp hc
  conv_rhs => rw [← ht]
  rw [visible_append, htrail, List.append_nil]

def contentLinesFrom (line t : List Char) : List (List Char) :=
  ((splitlinesFrom line t).map strip).filter (!·.isEmpty)

def contentLines (t : List Char) : List (List Char) := contentLinesFrom [] t

def content (line : List Char) : List (List Char) :=
  if (strip line).isEmpty then [] else [strip line]

@[simp] theorem content_nil : content [] = [] := rfl

theorem contentLinesFrom_nil (line : List Char) : contentLinesFrom line [] = content line := by
  cases line with
  | nil => rfl
  | cons c line =>
    by_cases h : strip (c :: line) = [] <;> simp [contentLinesFrom, splitlinesFrom, content, h]

theorem contentLinesFrom_break (line t : List Char) {rest : List (List Char)}
    (h : splitlinesFrom line t = line :: rest) :
    contentLinesFrom line t = content line ++ (rest.map strip).filter (!·.isEmpty) := by
  by_cases hl : strip line = [] <;> simp [contentLinesFrom, h, content, hl]

/-- A return and newline pair ends one line; reading it as two line ends adds
only a blank line. -/
theorem contentLinesFrom_cons (line : List Char) (c : Char) (t : List Char) :
    contentLinesFrom line (c :: t) =
      if isLineBreak c then content line ++ contentLinesFrom [] t
      else contentLinesFrom (line ++ [c]) t := by
  by_cases hpair : ∃ t', c = '\r' ∧ t = '\n' :: t'
  · obtain ⟨t', rfl, rfl⟩ := hpair
    have hcr : isLineBreak '\r' = true := rfl
    have hfirst : splitlinesFrom line ('\r' :: '\n' :: t') = line :: splitlinesFrom [] t' := by
      rw [splitlinesFrom]
    have hsecond : splitlinesFrom [] ('\n' :: t') = [] :: splitlinesFrom [] t' := by
      rw [splitlinesFrom]
      · rfl
      · simp
    rw [if_pos hcr, contentLinesFrom_break line _ hfirst, contentLinesFrom_break [] _ hsecond]
    rfl
  · have hstep : splitlinesFrom line (c :: t) =
        if isLineBreak c then line :: splitlinesFrom [] t else splitlinesFrom (line ++ [c]) t := by
      rw [splitlinesFrom]
      rintro t' rfl rfl
      exact hpair ⟨t', rfl, rfl⟩
    by_cases hc : isLineBreak c = true
    · rw [if_pos hc] at hstep ⊢
      exact contentLinesFrom_break line _ hstep
    · rw [if_neg hc] at hstep ⊢
      rw [contentLinesFrom, hstep, contentLinesFrom]

theorem contentLinesFrom_append_newline (line a b : List Char) :
    contentLinesFrom line (a ++ '\n' :: b) = contentLinesFrom line a ++ contentLines b := by
  induction a generalizing line with
  | nil =>
    rw [List.nil_append, contentLinesFrom_cons, contentLinesFrom_nil]
    rfl
  | cons c a ih =>
    rw [List.cons_append, contentLinesFrom_cons, contentLinesFrom_cons]
    by_cases hc : isLineBreak c = true
    · rw [if_pos hc, if_pos hc, ih, List.append_assoc]
    · rw [if_neg hc, if_neg hc, ih]

theorem content_cons_of_isSpace {c : Char} (h : isSpace c = true) (line : List Char) :
    content (c :: line) = content line := by
  simp only [content, strip_cons_of_isSpace h]

theorem content_concat_of_isSpace {c : Char} (h : isSpace c = true) (line : List Char) :
    content (line ++ [c]) = content line := by
  simp only [content, strip_concat_of_isSpace h]

theorem contentLinesFrom_cons_line {c : Char} (h : isSpace c = true) (line t : List Char) :
    contentLinesFrom (c :: line) t = contentLinesFrom line t := by
  induction t generalizing line with
  | nil => rw [contentLinesFrom_nil, contentLinesFrom_nil, content_cons_of_isSpace h]
  | cons d t ih =>
    rw [contentLinesFrom_cons, contentLinesFrom_cons, content_cons_of_isSpace h,
      List.cons_append, ih]

theorem contentLinesFrom_concat {c : Char} (h : isSpace c = true) (line t : List Char) :
    contentLinesFrom line (t ++ [c]) = contentLinesFrom line t := by
  induction t generalizing line with
  | nil =>
    rw [List.nil_append, contentLinesFrom_cons, contentLinesFrom_nil, contentLinesFrom_nil,
      contentLinesFrom_nil, content_concat_of_isSpace h]
    simp
  | cons d t ih => rw [List.cons_append, contentLinesFrom_cons, contentLinesFrom_cons, ih, ih]

theorem contentLines_flatMap_newline (texts : List (List Char)) :
    contentLines (texts.flatMap (· ++ ['\n'])) = texts.flatMap contentLines := by
  induction texts with
  | nil => rfl
  | cons t ts ih =>
    rw [List.flatMap_cons, List.append_assoc, List.singleton_append, List.flatMap_cons, ← ih]
    exact contentLinesFrom_append_newline [] t _

theorem contentLines_lstrip (t : List Char) : contentLines (lstrip t) = contentLines t := by
  induction t with
  | nil => rfl
  | cons c t ih =>
    by_cases hc : isSpace c = true
    · have hline : contentLines (c :: t) = contentLines t := by
        rw [contentLines, contentLinesFrom_cons, List.nil_append,
          contentLinesFrom_cons_line hc, content_nil, List.nil_append, ite_self]
        rfl
      rw [hline, ← ih, lstrip, lstrip, List.dropWhile_cons_of_pos hc]
    · rw [lstrip, List.dropWhile_cons_of_neg hc]

theorem contentLines_rstrip (t : List Char) : contentLines (rstrip t) = contentLines t := by
  induction t using List.reverseRecOn with
  | nil => rfl
  | append_singleton t c ih =>
    by_cases hc : isSpace c = true
    · rw [rstrip_concat_of_isSpace hc, ih, contentLines, contentLines, contentLinesFrom_concat hc]
    · rw [rstrip, List.rdropWhile_concat_neg _ _ _ hc]

theorem contentLines_strip (t : List Char) : contentLines (strip t) = contentLines t := by
  rw [strip, contentLines_rstrip, contentLines_lstrip]

end PythonStr
