import IsabelleGym.CleanTheory

/-!
# Which characters of a body are kept

Every character of a body is in one block, and is kept or removed with it. A
block ends in white space where another one follows, so the word that decides
about it can be read off the text from its start on.
-/

namespace IsabelleGym
namespace CleanTheory

open PythonStr TheoryParsing TheorySplitter

/-- Characters with whether they are kept. -/
abbrev Marks := List (Char × Bool)

def marked (kept : Bool) (t : Text) : Marks := t.map fun c => (c, kept)

def Marks.seen (m : Marks) : Marks := m.filter fun x => !isSpace x.1

/-- The text with blanks for what is removed. -/
def Marks.blanked (m : Marks) : Text := m.map fun x => if x.2 then x.1 else ' '

section Reading

variable (isWord isAlpha : Char → Bool)

def Reader.starts (r : Reader) : Text → Bool
  | [] => false
  | c :: t => (r.step isWord isAlpha c t).2

/-- The reader behind the first text, in front of the second. -/
def Reader.readTo (r : Reader) : Text → Text → Reader
  | [], _ => r
  | c :: a, b => ((r.step isWord isAlpha c (a ++ b)).1).readTo a b

/-- The marks of a text; `kept` says whether the block of the character before is kept. -/
def marksFrom (r : Reader) (kept : Bool) : Text → Marks
  | [] => []
  | c :: t =>
    let next := r.step isWord isAlpha c t
    let kept := if next.2 then !isDocBlock isWord (c :: t) else kept
    (c, kept) :: marksFrom next.1 kept t

end Reading

namespace Marks

@[simp] theorem seen_append (m n : Marks) : (m ++ n).seen = m.seen ++ n.seen :=
  List.filter_append m n

theorem seen_marked (kept : Bool) (t : Text) : (marked kept t).seen = marked kept (visible t) := by
  rw [seen, marked, List.filter_map]
  rfl

theorem seen_cons_of_isSpace {c : Char} (hc : isSpace c = true) (kept : Bool) (m : Marks) :
    seen ((c, kept) :: m) = m.seen := List.filter_cons_of_neg (by simp [hc])

theorem seen_cons {c : Char} (hc : isSpace c = false) (kept : Bool) (m : Marks) :
    seen ((c, kept) :: m) = (c, kept) :: m.seen := List.filter_cons_of_pos (by simp [hc])

@[simp] theorem blanked_append (m n : Marks) : (m ++ n).blanked = m.blanked ++ n.blanked :=
  List.map_append

/-- The words that are left depend on the characters and on the marks of those that are no white
space. -/
theorem words_append_blanked {m n : Marks} (hsame : m.map Prod.fst = n.map Prod.fst)
    (hseen : m.seen = n.seen) (a : Text) : words (a ++ m.blanked) = words (a ++ n.blanked) := by
  induction m generalizing n a with
  | nil =>
    rw [List.map_nil, eq_comm, List.map_eq_nil_iff] at hsame
    rw [hsame]
  | cons x m ih =>
    cases n with
    | nil => cases hsame
    | cons y n =>
      obtain ⟨c, k⟩ := x
      obtain ⟨d, l⟩ := y
      obtain ⟨rfl, hrest⟩ := List.cons.inj hsame
      cases hc : isSpace c with
      | true =>
        have hblank : ∀ kept : Bool, isSpace (if kept then c else ' ') = true := by
          intro kept
          cases kept with
          | true => exact hc
          | false => rfl
        rw [seen_cons_of_isSpace hc, seen_cons_of_isSpace hc] at hseen
        have hwords := ih hrest hseen []
        rw [List.nil_append, List.nil_append] at hwords
        rw [blanked, blanked, List.map_cons, List.map_cons, ← blanked, ← blanked,
          words_append_cons a (hblank k), words_append_cons a (hblank l), hwords]
      | false =>
        rw [seen_cons hc, seen_cons hc] at hseen
        obtain ⟨hmark, hbehind⟩ := List.cons.inj hseen
        obtain rfl : k = l := (Prod.mk.inj hmark).2
        have hwords := ih hrest hbehind (a ++ [if k then c else ' '])
        rwa [List.append_assoc, List.append_assoc] at hwords

theorem words_blanked {m n : Marks} (hsame : m.map Prod.fst = n.map Prod.fst)
    (hseen : m.seen = n.seen) : words m.blanked = words n.blanked :=
  words_append_blanked hsame hseen []

end Marks

/-- At the beginning of a line there is white space in front, and no rest of a delimiter. -/
structure Reader.Settled (r : Reader) : Prop where
  before_blank : r.state.lineStart = true → ∀ c ∈ r.before, isSpace c = true
  skip_zero : r.state.lineStart = true → r.skip = 0

section Steps

variable {isWord isAlpha : Char → Bool}

theorem round_starts {state : Tracker} {before : Option Char} {c : Char} {t : Text}
    (h : (state.round isWord isAlpha before c t).2.2 = true) :
    state.lineStart = true ∧ startsWord isWord isAlpha before c = true := by
  unfold Tracker.round at h
  dsimp only at h
  split_ifs at h
  all_goals first
    | exact absurd h Bool.false_ne_true
    | (simp only [Bool.and_eq_true] at h
       exact ⟨h.1.2, h.2⟩)

/-- Behind a character that leaves the reader at the beginning of a line. -/
theorem round_lineStart {state : Tracker} {before : Option Char} {c : Char} {t : Text}
    (h : (state.round isWord isAlpha before c t).1.lineStart = true) :
    isSpace c = true ∧ (state.round isWord isAlpha before c t).2.1 = 1 := by
  have hspace : (decide (c = '\n') || state.lineStart && isSpace c) = true →
      isSpace c = true := by
    intro hpassed
    rcases Bool.or_eq_true_iff.mp hpassed with hc | hc
    · rw [of_decide_eq_true hc]
      rfl
    · exact (Bool.and_eq_true_iff.mp hc).2
  unfold Tracker.round at h ⊢
  dsimp only at h ⊢
  split_ifs at h ⊢
  all_goals first
    | exact absurd h Bool.false_ne_true
    | exact ⟨hspace h, rfl⟩

theorem Reader.settled_start : (({} : Reader)).Settled where
  before_blank _ c hc := by cases hc
  skip_zero _ := rfl

variable (isWord isAlpha) in
theorem Reader.Settled.step {r : Reader} (h : r.Settled) (c : Char) (t : Text) :
    (r.step isWord isAlpha c t).1.Settled := by
  obtain ⟨state, before, skip⟩ := r
  cases skip with
  | succ skip =>
    have hline : state.lineStart ≠ true := fun hline => by cases h.skip_zero hline
    exact ⟨fun hs => absurd hs hline, fun hs => absurd hs hline⟩
  | zero =>
    constructor
    · intro hline d hd
      obtain rfl : c = d := Option.some.inj hd
      exact (round_lineStart hline).1
    · intro hline
      have hone := (round_lineStart hline).2
      change (state.round isWord isAlpha before c t).2.1 - 1 = 0
      rw [hone]

/-- A block starts with a word at the beginning of a line. -/
theorem step_starts {r : Reader} {c : Char} {t : Text}
    (h : (r.step isWord isAlpha c t).2 = true) :
    r.state.lineStart = true ∧ startsWord isWord isAlpha r.before c = true := by
  obtain ⟨state, before, skip⟩ := r
  cases skip with
  | succ skip => cases h
  | zero => exact round_starts h

variable (isWord isAlpha) in
theorem step_before (r : Reader) (c : Char) (t : Text) :
    (r.step isWord isAlpha c t).1.before = some c := by
  obtain ⟨state, before, skip⟩ := r
  cases skip <;> rfl

variable (hchars : WordChars isWord) (halpha : ∀ c, isAlpha c = true → isWord c = true)

include hchars halpha

theorem isSpace_of_startsWord {before : Option Char} {c : Char}
    (h : startsWord isWord isAlpha before c = true) : isSpace c = false := by
  have hword : isWord c = true := by
    rcases Bool.or_eq_true_iff.mp (Bool.and_eq_true_iff.mp h).1 with hc | hc
    · exact halpha c hc
    · rw [of_decide_eq_true hc, hchars.ascii '_' (by decide)]
      rfl
  rw [Bool.eq_false_iff]
  intro hspace
  rw [hchars.space c hspace] at hword
  cases hword

theorem isSpace_of_step {r : Reader} {c : Char} {t : Text}
    (h : (r.step isWord isAlpha c t).2 = true) : isSpace c = false :=
  isSpace_of_startsWord hchars halpha (step_starts h).2

end Steps

section Slices

variable {isWord isAlpha : Char → Bool}

/-- The marks of a slice that is decided about by its own first word. -/
def sliceMarks (isWord : Char → Bool) (slice : Text) : Marks :=
  marked (!isDocBlock isWord slice) slice

theorem slicesFrom_ne_nil (r : Reader) (slice t : Text) :
    slicesFrom isWord isAlpha r slice t ≠ [] := by
  induction t generalizing r slice with
  | nil => exact List.cons_ne_nil _ _
  | cons c t ih =>
    rw [slicesFrom]
    split_ifs
    · exact List.cons_ne_nil _ _
    · exact ih _ _

/-- Every slice but the last one ends in white space. -/
theorem slices_end {r : Reader} (hr : r.Settled) {slice : Text}
    (hbefore : r.before = slice.getLast?) (t : Text) :
    ∀ s ∈ (slicesFrom isWord isAlpha r slice t).dropLast, ∀ c ∈ s.getLast?, isSpace c = true := by
  induction t generalizing r slice with
  | nil => simp [slicesFrom]
  | cons c t ih =>
    have hsettled := hr.step isWord isAlpha c t
    have hnext := step_before isWord isAlpha r c t
    rw [slicesFrom]
    split_ifs with hstarts
    · have hblank := hr.before_blank (step_starts hstarts).1
      rw [List.dropLast_cons_of_ne_nil (slicesFrom_ne_nil _ _ _), List.forall_mem_cons]
      rw [hbefore] at hblank
      exact ⟨hblank, ih hsettled (by rw [hnext]; rfl)⟩
    · exact ih hsettled (by rw [hnext]; simp)

variable (hchars : WordChars isWord) (halpha : ∀ c, isAlpha c = true → isWord c = true)

include hchars

theorem isDocBlock_append_cons {a : Text} (ha : visible a ≠ []) {c : Char}
    (hc : isSpace c = true) (b : Text) :
    isDocBlock isWord (a ++ c :: b) = isDocBlock isWord a := by
  rw [isDocBlock, firstKeyword_append_cons hchars ha hc, isDocBlock]

theorem isDocBlock_append_blank (a : Text) {blank : Text}
    (hblank : ∀ c ∈ blank, isSpace c = true) :
    isDocBlock isWord (a ++ blank) = isDocBlock isWord a := by
  rw [isDocBlock, firstKeyword_append_blank hchars a hblank, isDocBlock]

theorem isDocBlock_strip (t : Text) : isDocBlock isWord (strip t) = isDocBlock isWord t := by
  rw [isDocBlock, firstKeyword_strip hchars, isDocBlock]

include halpha

/-- The slices behind a reader have the characters in order, each marked by the word its slice
begins with. -/
theorem slices_marks {r : Reader} (hr : r.Settled) {slice : Text}
    (hbefore : r.before = slice.getLast?) (hslice : visible slice ≠ []) (t : Text) :
    (slicesFrom isWord isAlpha r slice t).flatMap (sliceMarks isWord) =
      marked (!isDocBlock isWord (slice ++ t)) slice ++
        marksFrom isWord isAlpha r (!isDocBlock isWord (slice ++ t)) t := by
  induction t generalizing r slice with
  | nil => simp [slicesFrom, sliceMarks, marksFrom]
  | cons c t ih =>
    have hsettled := hr.step isWord isAlpha c t
    have hnext := step_before isWord isAlpha r c t
    rw [slicesFrom, marksFrom]
    split_ifs with hstarts
    · have hc := isSpace_of_step hchars halpha hstarts
      obtain ⟨a, d, rfl⟩ := (List.eq_nil_or_concat' slice).resolve_left fun hnil => by
        rw [hnil] at hslice
        exact hslice rfl
      have hd : isSpace d = true := by
        refine hr.before_blank (step_starts hstarts).1 d ?_
        rw [hbefore, List.getLast?_concat]
        rfl
      have ha : visible a ≠ [] := by
        rw [visible_append] at hslice
        have hnone : visible [d] = [] := visible_eq_nil_iff.mpr (by simpa using hd)
        rwa [hnone, List.append_nil] at hslice
      have hsame : isDocBlock isWord (a ++ [d] ++ c :: t) = isDocBlock isWord (a ++ [d]) := by
        rw [List.append_assoc, List.singleton_append, isDocBlock_append_cons hchars ha hd,
          isDocBlock_append_cons hchars ha hd]
      have hvisible : visible [c] ≠ [] := by simp [visible, hc]
      rw [List.flatMap_cons, ih hsettled (by rw [hnext]; rfl) hvisible, hsame]
      rfl
    · have hvisible : visible (slice ++ [c]) ≠ [] := by
        rw [visible_append]
        exact List.append_ne_nil_of_left_ne_nil hslice _
      rw [ih hsettled (by rw [hnext]; simp) hvisible, List.append_assoc, List.singleton_append]
      simp [marked]

/-- The slices of a text, whose first block starts where it does. -/
theorem slices_marks_start {c : Char} (hc : isSpace c = false) (t : Text) :
    (slicesFrom isWord isAlpha {} [] (c :: t)).flatMap (sliceMarks isWord) =
      marksFrom isWord isAlpha {} (!isDocBlock isWord (c :: t)) (c :: t) := by
  have hsettled := Reader.settled_start.step isWord isAlpha c t
  have hnext : ((({} : Reader).step isWord isAlpha c t).1).before = [c].getLast? :=
    step_before isWord isAlpha {} c t
  have hvisible : visible [c] ≠ [] := by simp [visible, hc]
  have hrest := slices_marks hchars halpha hsettled hnext hvisible t
  rw [List.singleton_append] at hrest
  rw [slicesFrom, marksFrom]
  split_ifs with hstarts
  · rw [List.flatMap_cons, hrest]
    rfl
  · rw [List.nil_append, hrest]
    rfl

end Slices

section Blocks

/-- A text that is empty stands for no block. -/
theorem flatMap_blocks {β : Type*} {f : Text → List β} (hnil : f [] = []) (slices : List Text) :
    ((slices.map strip).filter (!·.isEmpty)).flatMap f = slices.flatMap fun s => f (strip s) := by
  induction slices with
  | nil => rfl
  | cons s slices ih =>
    rw [List.map_cons, List.flatMap_cons, ← ih]
    cases hs : strip s with
    | nil => rw [List.filter_cons_of_neg (by simp), hnil, List.nil_append]
    | cons c t => rw [List.filter_cons_of_pos (by simp), List.flatMap_cons]

theorem flatMap_filter_keep {α β : Type*} (p : α → Bool) (f : α → List β) (l : List α) :
    (l.filter p).flatMap f = l.flatMap fun a => if p a then f a else [] := by
  induction l with
  | nil => rfl
  | cons a l ih =>
    rw [List.flatMap_cons, ← ih]
    cases ha : p a with
    | true => rw [List.filter_cons_of_pos ha, List.flatMap_cons, if_pos rfl]
    | false =>
      rw [List.filter_cons_of_neg (by rw [ha]; exact Bool.false_ne_true),
        if_neg Bool.false_ne_true, List.nil_append]

variable {isWord isAlpha : Char → Bool} (hchars : WordChars isWord)
  (halpha : ∀ c, isAlpha c = true → isWord c = true)

include hchars halpha

/-- The marks of the blocks of a body. -/
theorem blocks_seen (bodyText : Text) :
    (splitTopLevelCommands isWord isAlpha bodyText).flatMap
        (fun b => marked (!isDocBlock isWord b) (visible b)) =
      (marksFrom isWord isAlpha {} (!isDocBlock isWord (strip (unixNewlines bodyText)))
        (strip (unixNewlines bodyText))).seen := by
  rw [splitTopLevelCommands]
  cases hs : strip (unixNewlines bodyText) with
  | nil => rfl
  | cons c t =>
    have hmark : ∀ s : Text, marked (!isDocBlock isWord (strip s)) (visible (strip s)) =
        (sliceMarks isWord s).seen := by
      intro s
      rw [isDocBlock_strip hchars, visible_strip, sliceMarks, Marks.seen_marked]
    rw [if_neg (by simp), flatMap_blocks rfl,
      ← slices_marks_start hchars halpha (isSpace_head_strip hs) t, Marks.seen,
      List.filter_flatMap]
    exact congrArg (List.flatMap · _) (funext hmark)

/-- The words of the blocks that are kept. -/
theorem words_kept (bodyText : Text) :
    ((splitTopLevelCommands isWord isAlpha bodyText).filter
        fun b => !isDocBlock isWord b).flatMap words =
      words (marksFrom isWord isAlpha {} (!isDocBlock isWord (strip (unixNewlines bodyText)))
        (strip (unixNewlines bodyText))).blanked := by
  rw [splitTopLevelCommands]
  cases hs : strip (unixNewlines bodyText) with
  | nil => exact words_nil.symm
  | cons c t =>
    have hkept : ∀ s : Text, (if !isDocBlock isWord (strip s) then words (strip s) else []) =
        words (sliceMarks isWord s).blanked := by
      intro s
      rw [isDocBlock_strip hchars, words_strip, sliceMarks, marked, Marks.blanked, List.map_map]
      cases isDocBlock isWord s with
      | true => exact (words_of_blank (by simp [isSpace])).symm
      | false => exact congrArg words (List.map_id s).symm
    have hend : ∀ s ∈ ((slicesFrom isWord isAlpha {} [] (c :: t)).map
        fun s => (sliceMarks isWord s).blanked).dropLast, ∀ d ∈ s.getLast?, isSpace d = true := by
      rw [← List.map_dropLast]
      intro s hs d hd
      obtain ⟨u, hu, rfl⟩ := List.mem_map.mp hs
      rw [sliceMarks, marked, Marks.blanked, List.map_map, List.getLast?_map, Option.mem_def,
        Option.map_eq_some_iff] at hd
      obtain ⟨e, he, rfl⟩ := hd
      have hspace := slices_end Reader.settled_start rfl (c :: t) u hu e he
      cases isDocBlock isWord u with
      | true => rfl
      | false => exact hspace
    have hflat : (slicesFrom isWord isAlpha {} [] (c :: t)).flatMap
        (fun s => (sliceMarks isWord s).blanked) =
          Marks.blanked ((slicesFrom isWord isAlpha {} [] (c :: t)).flatMap (sliceMarks isWord)) :=
      List.map_flatMap.symm
    have hwords := words_flatten hend
    rw [← List.flatMap_def, List.flatMap_map, hflat,
      slices_marks_start hchars halpha (isSpace_head_strip hs) t] at hwords
    rw [if_neg (by simp), flatMap_filter_keep, flatMap_blocks (by simp), funext hkept, hwords]

end Blocks

end CleanTheory
end IsabelleGym
