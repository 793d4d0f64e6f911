import IsabelleGym.ReplOutput
import IsabelleGym.OuterSyntax
import IsabelleGym.PythonStr

/-!
# Success of a small step

The checker splits the error text of a result into errors and warnings line by
line, after a shortcut: when the first significant line looks like a warning,
the whole text counts as one. The shortcut is what a genuine error behind a
warning falls through.
-/

namespace IsabelleGym
namespace SuccessChecker

open PythonStr

def getRawErrorOutput (result : ReplResult) : Text := strip result.separatedOutput.error

def isFiller (c : Char) : Bool := c = '*' || isSpace c

/-- The loop over leading stars also drops the blanks behind each star. -/
def normalizedPrefix (line : Text) : Text := ((strip line).dropWhile isFiller).map Char.toLower

def warningPrefixes : List Text :=
  ["warning:", "warning -", "warning —", "ml warning", "note:",
    "introduced fixed type variable(s):"].map String.toList

def startsAsWarning (normalized : Text) : Bool := warningPrefixes.any (·.isPrefixOf normalized)

def isWarningLine (line : Text) : Bool :=
  let normalized := normalizedPrefix line
  normalized.isEmpty || "###".toList.isPrefixOf normalized || startsAsWarning normalized

def isSignificant (line : Text) : Bool :=
  !(strip line).isEmpty && !"###".toList.isPrefixOf (strip line)

def joinLines : List Text → Text
  | [] => []
  | [line] => line
  | line :: lines => line ++ '\n' :: joinLines lines

def splitErrorAndWarningOutput (result : ReplResult) : Text × Text :=
  let raw := getRawErrorOutput result
  if raw.isEmpty then ([], [])
  else
    let lines := splitlines raw
    match lines.filter isSignificant with
    | [] => ([], [])
    | first :: _ =>
      if startsAsWarning (normalizedPrefix first) then ([], strip raw)
      else
        (strip (joinLines (lines.filter (!isWarningLine ·))),
          strip (joinLines (lines.filter isWarningLine)))

def hasErrorOutput (result : ReplResult) : Bool :=
  !(splitErrorAndWarningOutput result).1.isEmpty

def isSyntaxSuccessful (result : ReplResult) : Bool := !hasErrorOutput result

def getErrorMessage (result : ReplResult) : Text := (splitErrorAndWarningOutput result).1

/-- An error whose text does not look like a warning. The lines that Isabelle itself prefixes with
`###` are warnings, and a text of stars and white space alone is nothing to show. -/
def GenuineError (m : Message) : Prop := m.markup = .error ∧ isWarningLine m.text = false

def firstSignificantLine (texts : List Text) : Option Text :=
  (texts.flatMap splitlines).find? isSignificant

/-- Stars and white space in front can be dropped before the right end is stripped. -/
theorem dropWhile_rstrip (t : Text) :
    (rstrip t).dropWhile isFiller = rstrip (t.dropWhile isFiller) := by
  induction t with
  | nil => rfl
  | cons c t ih =>
    by_cases ht : rstrip t = []
    · have hsp := rstrip_eq_nil_iff.mp ht
      have hdrop : t.dropWhile isFiller = [] := by
        rw [List.dropWhile_eq_nil_iff]
        exact fun c hc => by simp [isFiller, hsp c hc]
      have hrs : rstrip (c :: t) = rstrip [c] := by
        rw [← List.singleton_append, rstrip_append_of_nil ht]
      by_cases hc : isFiller c = true
      · rw [List.dropWhile_cons_of_pos hc, hdrop, hrs]
        by_cases hs : isSpace c = true <;>
          simp [rstrip, List.rdropWhile_singleton, hs, hc]
      · have hs : ¬ isSpace c = true := fun hs => hc (by simp [isFiller, hs])
        rw [List.dropWhile_cons_of_neg hc, hrs]
        simp [rstrip, List.rdropWhile_singleton, hs, hc]
    · have hrs : rstrip (c :: t) = c :: rstrip t := by
        rw [← List.singleton_append, rstrip_append ht]
        rfl
      by_cases hc : isFiller c = true
      · rw [hrs, List.dropWhile_cons_of_pos hc, List.dropWhile_cons_of_pos hc, ih]
      · rw [hrs, List.dropWhile_cons_of_neg hc, List.dropWhile_cons_of_neg hc, hrs]

theorem dropWhile_lstrip (t : Text) :
    (lstrip t).dropWhile isFiller = t.dropWhile isFiller := by
  induction t with
  | nil => rfl
  | cons c t ih =>
    by_cases hc : isSpace c = true
    · have hsos : isFiller c = true := by simp [isFiller, hc]
      rw [lstrip, List.dropWhile_cons_of_pos hc, List.dropWhile_cons_of_pos hsos]
      exact ih
    · rw [lstrip, List.dropWhile_cons_of_neg hc]

theorem normalizedPrefix_eq (t : Text) :
    normalizedPrefix t =
      (rstrip (t.dropWhile isFiller)).map Char.toLower := by
  rw [normalizedPrefix, strip, dropWhile_rstrip, dropWhile_lstrip]

theorem normalizedPrefix_strip (t : Text) : normalizedPrefix (strip t) = normalizedPrefix t := by
  rw [normalizedPrefix, strip_strip, normalizedPrefix]

theorem isWarningLine_strip (t : Text) : isWarningLine (strip t) = isWarningLine t := by
  simp only [isWarningLine, normalizedPrefix_strip]

theorem isSignificant_strip (t : Text) : isSignificant (strip t) = isSignificant t := by
  simp only [isSignificant, strip_strip]

/-- The normalized start of a line is read from the line alone. -/
theorem normalizedPrefix_prefix_append (a b : Text) :
    normalizedPrefix a <+: normalizedPrefix (a ++ b) := by
  rw [normalizedPrefix_eq, normalizedPrefix_eq, List.dropWhile_append]
  split_ifs with h
  · have hnil : a.dropWhile isFiller = [] := by simpa using h
    rw [hnil]
    exact List.nil_prefix
  · exact (rstrip_prefix_append _ b).map _

theorem normalizedPrefix_append_of_nil {a : Text} (h : normalizedPrefix a = []) (b : Text) :
    normalizedPrefix (a ++ b) = normalizedPrefix b := by
  have hnil : a.dropWhile isFiller = [] := by
    rw [normalizedPrefix_eq, List.map_eq_nil_iff, rstrip_eq_nil_iff] at h
    by_contra hne
    have hhead := List.head_dropWhile_not isFiller hne
    have hsp := h _ (List.head_mem hne)
    simp [isFiller, hsp] at hhead
  rw [normalizedPrefix_eq, normalizedPrefix_eq, List.dropWhile_append, hnil]
  simp

theorem isWarningLine_of_nil {t : Text} (h : normalizedPrefix t = []) : isWarningLine t = true := by
  simp [isWarningLine, h]

/-- A warning line with something on it makes every text it begins a warning. -/
theorem isWarningLine_append {a : Text} (ha : isWarningLine a = true)
    (hne : normalizedPrefix a ≠ []) (b : Text) : isWarningLine (a ++ b) = true := by
  have hpre := normalizedPrefix_prefix_append a b
  simp only [isWarningLine, startsAsWarning, Bool.or_eq_true, List.isEmpty_iff, hne, false_or,
    List.isPrefixOf_iff_prefix, List.any_eq_true] at ha ⊢
  rcases ha with hash | ⟨p, hp, hpa⟩
  · exact Or.inl (Or.inr (hash.trans hpre))
  · exact Or.inr ⟨p, hp, hpa.trans hpre⟩

theorem isWarningLine_of_contentLinesFrom (line t : Text)
    (h : ∀ c ∈ contentLinesFrom line t, isWarningLine c = true) :
    isWarningLine (line ++ t) = true := by
  have hcontent : ∀ line : Text, (∀ c ∈ content line, isWarningLine c = true) →
      isWarningLine line = true := by
    intro line hl
    by_cases hs : strip line = []
    · exact isWarningLine_of_nil (by simp [normalizedPrefix, hs])
    · rw [← isWarningLine_strip]
      exact hl _ (by simp [content, hs])
  induction t generalizing line with
  | nil =>
    rw [contentLinesFrom_nil] at h
    rw [List.append_nil]
    exact hcontent line h
  | cons c t ih =>
    rw [contentLinesFrom_cons] at h
    by_cases hc : isLineBreak c = true
    · rw [if_pos hc] at h
      have hline := hcontent line fun d hd => h d (List.mem_append_left _ hd)
      by_cases hn : normalizedPrefix line = []
      · have hrest := ih [] fun d hd => h d (List.mem_append_right _ hd)
        have hskip : normalizedPrefix (c :: t) = normalizedPrefix t := by
          rw [normalizedPrefix, strip_cons_of_isSpace (isSpace_of_isLineBreak hc), normalizedPrefix]
        rw [isWarningLine, normalizedPrefix_append_of_nil hn, hskip]
        exact hrest
      · exact isWarningLine_append hline hn _
    · rw [if_neg hc] at h
      have hrest := ih (line ++ [c]) h
      rwa [List.append_assoc, List.singleton_append] at hrest

theorem exists_error_line {t : Text} (h : isWarningLine t = false) :
    ∃ c ∈ contentLines t, isWarningLine c = false := by
  by_contra hno
  have hall : ∀ c ∈ contentLinesFrom [] t, isWarningLine c = true := by
    intro c hc
    by_contra hf
    exact hno ⟨c, hc, by simpa using hf⟩
  have htrue := isWarningLine_of_contentLinesFrom [] t hall
  rw [List.nil_append, h] at htrue
  cases htrue

theorem mem_contentLines {t c : Text} :
    c ∈ contentLines t ↔ (∃ l ∈ splitlines t, strip l = c) ∧ c ≠ [] := by
  simp [contentLines, contentLinesFrom, splitlines]

theorem isSignificant_of_error {line : Text} (h : isWarningLine line = false) :
    isSignificant line = true := by
  simp only [isWarningLine, Bool.or_eq_false_iff] at h
  obtain ⟨⟨hne, hhash⟩, _⟩ := h
  have hs : strip line ≠ [] := by
    intro hs
    simp [normalizedPrefix, hs] at hne
  by_contra hsig
  have hpre : "###".toList <+: strip line := by
    simpa [isSignificant, hs] using hsig
  obtain ⟨u, hu⟩ := hpre
  have hdrop : normalizedPrefix line = "###".toList ++ u.map Char.toLower := by
    rw [normalizedPrefix, ← hu]
    rfl
  rw [hdrop] at hhash
  simp at hhash

/-- Whether a line is significant can be decided on the stripped lines with content. -/
theorem find?_isSignificant (lines : List Text) :
    (lines.find? isSignificant).map strip =
      ((lines.map strip).filter (!·.isEmpty)).find? isSignificant := by
  induction lines with
  | nil => rfl
  | cons l ls ih =>
    by_cases hl : isSignificant l = true
    · have hne : strip l ≠ [] := by
        intro h
        simp [isSignificant, h] at hl
      simp [hl, hne, isSignificant_strip]
    · by_cases hne : strip l = [] <;> simp [hl, hne, isSignificant_strip, ih]

theorem contentLines_stripTrailingNewLine (t : Text) :
    contentLines (stripTrailingNewLine t) = contentLines t := by
  rw [stripTrailingNewLine]
  split_ifs with h
  · obtain ⟨u, rfl⟩ := List.getLast?_eq_some_iff.mp h
    have hnl : isSpace '\n' = true := rfl
    rw [List.dropLast_concat, contentLines, contentLines, contentLinesFrom_concat hnl]
  · rfl

theorem contentLines_getRawErrorOutput (result : ReplResult) :
    contentLines (getRawErrorOutput result) = result.errorTexts.flatMap contentLines := by
  rw [getRawErrorOutput, contentLines_strip, ← contentLines_flatMap_newline]
  exact contentLines_stripTrailingNewLine _

theorem firstSignificantLine_map_strip (texts : List Text) :
    (firstSignificantLine texts).map strip = (texts.flatMap contentLines).find? isSignificant := by
  rw [firstSignificantLine, find?_isSignificant, List.map_flatMap, List.filter_flatMap]
  rfl

theorem mem_joinLines {c : Char} {l : Text} {lines : List Text} (hl : l ∈ lines) (hc : c ∈ l) :
    c ∈ joinLines lines := by
  induction lines with
  | nil => cases hl
  | cons l' ls ih =>
    cases ls with
    | nil =>
      obtain rfl : l = l' := by simpa using hl
      exact hc
    | cons l'' ls =>
      rcases List.mem_cons.mp hl with rfl | hl
      · exact List.mem_append_left _ hc
      · exact List.mem_append_right _ (List.mem_cons_of_mem _ (ih hl))

/-- With an error line among them, the lines that are no warnings leave a text. -/
theorem strip_joinLines_ne_nil {lines : List Text} {l : Text} (hl : l ∈ lines)
    (he : isWarningLine l = false) : strip (joinLines (lines.filter (!isWarningLine ·))) ≠ [] := by
  intro hnil
  have hsp := strip_eq_nil_iff.mp hnil
  have hblank : strip l = [] := by
    refine strip_eq_nil_iff.mpr fun c hc => hsp c (mem_joinLines ?_ hc)
    exact List.mem_filter.mpr ⟨hl, by simp [he]⟩
  have hnorm : normalizedPrefix l = [] := by simp [normalizedPrefix, hblank]
  have hwarn := isWarningLine_of_nil hnorm
  rw [he] at hwarn
  cases hwarn

/-- With a genuine error among the error texts, the shortcut alone decides
whether an error is reported. -/
theorem getErrorMessage_ne_nil_iff {result : ReplResult} {t : Text} (ht : t ∈ result.errorTexts)
    (he : isWarningLine t = false) :
    getErrorMessage result ≠ [] ↔
      ∀ l ∈ firstSignificantLine result.errorTexts,
        startsAsWarning (normalizedPrefix l) = false := by
  have hraw := contentLines_getRawErrorOutput result
  obtain ⟨c, hc, hce⟩ := exists_error_line he
  have hmem : c ∈ contentLines (getRawErrorOutput result) := by
    rw [hraw]
    exact List.mem_flatMap.mpr ⟨t, ht, hc⟩
  obtain ⟨⟨l, hl, rfl⟩, _⟩ := mem_contentLines.mp hmem
  rw [isWarningLine_strip] at hce
  have hne : (getRawErrorOutput result).isEmpty = false := by
    cases hr : getRawErrorOutput result with
    | nil => simp [hr, splitlines, splitlinesFrom] at hl
    | cons _ _ => rfl
  cases hsig : (splitlines (getRawErrorOutput result)).filter isSignificant with
  | nil =>
    have hin := List.mem_filter.mpr ⟨hl, isSignificant_of_error hce⟩
    rw [hsig] at hin
    cases hin
  | cons first rest =>
    have hfind : (splitlines (getRawErrorOutput result)).find? isSignificant = some first := by
      rw [← List.head?_filter, hsig]
      rfl
    have hfirst : (firstSignificantLine result.errorTexts).map strip = some (strip first) := by
      rw [firstSignificantLine_map_strip, ← hraw, contentLines, contentLinesFrom,
        ← find?_isSignificant, ← splitlines, hfind]
      rfl
    obtain ⟨l', hl', hstrip⟩ := Option.map_eq_some_iff.mp hfirst
    have hnorm : normalizedPrefix l' = normalizedPrefix first := by
      rw [← normalizedPrefix_strip, hstrip, normalizedPrefix_strip]
    simp only [hl', Option.mem_def, Option.some.injEq, forall_eq', hnorm]
    by_cases hw : startsAsWarning (normalizedPrefix first) = true
    · simp [getErrorMessage, splitErrorAndWarningOutput, hne, hsig, hw]
    · simp [getErrorMessage, splitErrorAndWarningOutput, hne, hsig, hw,
        strip_joinLines_ne_nil hl hce]

theorem isSyntaxSuccessful_eq_false_iff (result : ReplResult) :
    isSyntaxSuccessful result = false ↔ getErrorMessage result ≠ [] := by
  simp [isSyntaxSuccessful, hasErrorOutput, getErrorMessage]

/-- A genuine error of any command is reported exactly when the first
significant line of all diagnostics does not look like a warning. -/
theorem genuineError_reported_iff (I : Isabelle) (node : Node) (lastInsertionStartLine : ℕ)
    (results : ℕ → List Message)
    (h : ∃ i < (I.commands node).length, ∃ m ∈ results i, GenuineError m) :
    (isSyntaxSuccessful (outputNodeResults I node lastInsertionStartLine results {}) = false ∧
        getErrorMessage (outputNodeResults I node lastInsertionStartLine results {}) ≠ []) ↔
      ∀ l ∈ firstSignificantLine (nodeDiagnostics I node results),
        startsAsWarning (normalizedPrefix l) = false := by
  obtain ⟨i, hi, m, hm, hmark, he⟩ := h
  have hne : m.text ≠ [] := by
    intro h
    rw [isWarningLine_of_nil (by simp [normalizedPrefix, h])] at he
    cases he
  have hdiag : m.text ∈ nodeDiagnostics I node results := by
    refine List.mem_flatMap.mpr ⟨i, List.mem_range.mpr hi, List.mem_map.mpr ⟨m, ?_, rfl⟩⟩
    exact List.mem_filter.mpr ⟨hm, by simp [hmark, hne]⟩
  rw [isSyntaxSuccessful_eq_false_iff, and_self, ← errorTexts_outputNodeResults I node
    lastInsertionStartLine results]
  rw [← errorTexts_outputNodeResults I node lastInsertionStartLine results] at hdiag
  exact getErrorMessage_ne_nil_iff hdiag he

section Example

def warnedNode : Node := { text := "lemma x by auto\n".toList }

def warnedResults (warning error : String) : ℕ → List Message
  | 0 => [⟨.warning, warning.toList⟩]
  | 2 => [⟨.error, error.toList⟩]
  | _ => []

/-- A type warning on the statement hides the failure of the proof. -/
theorem genuineError_hidden_by_warning :
    (∃ i < (OuterSyntax.isabelle.commands warnedNode).length,
      ∃ m ∈ warnedResults "Introduced fixed type variable(s): 'a" "Failed to finish proof" i,
        GenuineError m) ∧
    isSyntaxSuccessful (outputNodeResults OuterSyntax.isabelle warnedNode 1
      (warnedResults "Introduced fixed type variable(s): 'a" "Failed to finish proof") {}) =
        true := by
  refine ⟨⟨2, by decide +kernel, ⟨.error, "Failed to finish proof".toList⟩, by simp [warnedResults],
    rfl, by decide +kernel⟩, by decide +kernel⟩

theorem genuineError_reported_plain :
    isSyntaxSuccessful (outputNodeResults OuterSyntax.isabelle warnedNode 1
      (warnedResults "### Ignoring duplicate rewrite rule" "Failed to finish proof") {}) =
        false :=
  ((genuineError_reported_iff OuterSyntax.isabelle warnedNode 1
    (warnedResults "### Ignoring duplicate rewrite rule" "Failed to finish proof")
    ⟨2, by decide +kernel, ⟨.error, "Failed to finish proof".toList⟩, by simp [warnedResults],
      rfl, by decide +kernel⟩).mpr (by decide +kernel)).1

end Example

end SuccessChecker
end IsabelleGym
