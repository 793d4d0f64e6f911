import IsabelleGym.PythonStr

/-!
# The words of a text

`split` without a separator gives the words between stretches of white space. A
text can be split in two parts at any white space, so stripping a text, joining
texts with white space, and trading one stretch of white space for another leave
the words as they are.
-/

namespace PythonStr

def words (t : List Char) : List (List Char) := (t.splitOnP isSpace).filter (!·.isEmpty)

@[simp] theorem words_nil : words [] = [] := by simp [words, List.splitOnP_nil]

theorem words_append_cons (a : List Char) {c : Char} (hc : isSpace c = true) (b : List Char) :
    words (a ++ c :: b) = words a ++ words b := by
  rw [words, List.splitOnP_append_cons a b hc, List.filter_append, words, words]

theorem words_cons_of_isSpace {c : Char} (hc : isSpace c = true) (t : List Char) :
    words (c :: t) = words t := by
  have h := words_append_cons [] hc t
  rwa [words_nil, List.nil_append, List.nil_append] at h

theorem words_blank_append {blank : List Char} (hblank : ∀ c ∈ blank, isSpace c = true)
    (t : List Char) : words (blank ++ t) = words t := by
  induction blank with
  | nil => rfl
  | cons c blank ih =>
    rw [List.cons_append, words_cons_of_isSpace (hblank c List.mem_cons_self),
      ih fun d hd => hblank d (List.mem_cons_of_mem c hd)]

theorem words_of_blank {blank : List Char} (hblank : ∀ c ∈ blank, isSpace c = true) :
    words blank = [] := by
  have h := words_blank_append hblank []
  rwa [List.append_nil, words_nil] at h

theorem words_append_blank (t : List Char) {blank : List Char}
    (hblank : ∀ c ∈ blank, isSpace c = true) : words (t ++ blank) = words t := by
  cases blank with
  | nil => rw [List.append_nil]
  | cons c blank =>
    rw [words_append_cons t (hblank c List.mem_cons_self),
      words_of_blank fun d hd => hblank d (List.mem_cons_of_mem c hd), List.append_nil]

/-- Between two texts the words can be cut where the first ends in white space. -/
theorem words_append {a : List Char} (ha : ∀ c ∈ a.getLast?, isSpace c = true) (b : List Char) :
    words (a ++ b) = words a ++ words b := by
  rcases List.eq_nil_or_concat' a with rfl | ⟨a, c, rfl⟩
  · rw [words_nil, List.nil_append, List.nil_append]
  · have hc : isSpace c = true := ha c (by simp)
    have hcut := words_append_cons a hc []
    rw [words_nil, List.append_nil] at hcut
    rw [List.append_assoc, List.singleton_append, words_append_cons a hc, hcut]

/-- As between `a` and `b`, with white space in between. -/
theorem words_append_append (a : List Char) {blank : List Char} (hne : blank ≠ [])
    (hblank : ∀ c ∈ blank, isSpace c = true) (b : List Char) :
    words (a ++ (blank ++ b)) = words a ++ words b := by
  have hlast : ∀ c ∈ (a ++ blank).getLast?, isSpace c = true := by
    intro c hc
    rw [List.getLast?_append_of_ne_nil a hne] at hc
    exact hblank c (List.mem_of_getLast? hc)
  rw [← List.append_assoc, words_append hlast, words_append_blank a hblank]

theorem isSpace_head_strip {t u : List Char} {c : Char} (h : strip t = c :: u) :
    isSpace c = false := by
  obtain ⟨v, hv⟩ : strip t <+: lstrip t := List.rdropWhile_prefix isSpace _
  have hhead := List.head?_dropWhile_not isSpace t
  rw [← lstrip, ← hv, h, List.cons_append, List.head?_cons] at hhead
  exact hhead

theorem strip_append_blank (t : List Char) {blank : List Char}
    (hblank : ∀ c ∈ blank, isSpace c = true) : strip (t ++ blank) = strip t := by
  induction blank using List.reverseRecOn with
  | nil => rw [List.append_nil]
  | append_singleton blank c ih =>
    rw [← List.append_assoc, strip_concat_of_isSpace (hblank c (by simp)),
      ih fun d hd => hblank d (List.mem_append_left _ hd)]

theorem strip_blank_append {blank : List Char} (hblank : ∀ c ∈ blank, isSpace c = true)
    (t : List Char) : strip (blank ++ t) = strip t := by
  induction blank with
  | nil => rfl
  | cons c blank ih =>
    rw [List.cons_append, strip_cons_of_isSpace (hblank c List.mem_cons_self),
      ih fun d hd => hblank d (List.mem_cons_of_mem c hd)]

/-- A text that starts with no white space only loses some at its end. -/
theorem exists_strip_append {t : List Char} (ht : ∀ c ∈ t.head?, isSpace c = false) :
    ∃ blank, t = strip t ++ blank ∧ ∀ c ∈ blank, isSpace c = true := by
  obtain ⟨lead, trail, hsplit, hlead, htrail⟩ := exists_strip t
  cases lead with
  | nil => exact ⟨trail, by rwa [List.nil_append] at hsplit, htrail⟩
  | cons c lead =>
    have hc := ht c (by rw [hsplit]; rfl)
    rw [hlead c List.mem_cons_self] at hc
    cases hc

theorem words_strip (t : List Char) : words (strip t) = words t := by
  obtain ⟨lead, trail, ht, hlead, htrail⟩ := exists_strip t
  conv_rhs => rw [ht]
  rw [words_append_blank _ htrail, words_blank_append hlead]

theorem words_rstrip (t : List Char) : words (rstrip t) = words t := by
  have ht : rstrip t ++ t.rtakeWhile isSpace = t := List.rdropWhile_append_rtakeWhile
  conv_rhs => rw [← ht]
  rw [words_append_blank _ fun c hc => List.mem_rtakeWhile_imp hc]

theorem words_intercalate {blank : List Char} (hne : blank ≠ [])
    (hblank : ∀ c ∈ blank, isSpace c = true) (texts : List (List Char)) :
    words (blank.intercalate texts) = texts.flatMap words := by
  induction texts with
  | nil => rw [List.intercalate_nil, words_nil, List.flatMap_nil]
  | cons t texts ih =>
    cases texts with
    | nil => simp
    | cons t' texts =>
      rw [List.intercalate_cons_cons, List.append_assoc, words_append_append t hne hblank, ih]
      rfl

/-- A text that is cut behind white space. -/
theorem words_flatten {texts : List (List Char)}
    (hcut : ∀ t ∈ texts.dropLast, ∀ c ∈ t.getLast?, isSpace c = true) :
    words texts.flatten = texts.flatMap words := by
  induction texts with
  | nil => rw [List.flatten_nil, words_nil, List.flatMap_nil]
  | cons t texts ih =>
    cases texts with
    | nil => simp
    | cons t' texts =>
      rw [List.dropLast_cons_cons, List.forall_mem_cons] at hcut
      rw [List.flatten_cons, words_append hcut.1, ih hcut.2]
      rfl

/-- The words have all characters that are no white space. -/
theorem flatten_words (t : List Char) : (words t).flatten = visible t := by
  have hpieces : (t.splitOnP isSpace).flatten = visible t := by
    induction t with
    | nil => rw [List.splitOnP_nil]; rfl
    | cons c t ih =>
      obtain ⟨w, ws, hw⟩ := List.exists_cons_of_ne_nil (List.splitOnP_ne_nil isSpace t)
      rw [List.splitOnP_cons_eq_if_modifyHead, visible, List.filter_cons, ← visible, ← ih, hw]
      cases isSpace c <;> rfl
  rw [words, List.flatten_filter_not_isEmpty, hpieces]

end PythonStr
