import IsabelleGym.HeaderGrammar

/-!
# The two searches for the name of a theory

`extract_theory_name` searches the text with its comments, `parse_theory_header` the
text without them. The stripping keeps the newlines, so both go over the same lines,
and what they read at a line depends on where the comments are.
-/

namespace IsabelleGym
namespace TheoryParsing

open PythonStr

def lineStarts (text : Text) : List ℕ :=
  0 :: ((List.range text.length).filter fun j => text[j]? = some '\n').map (· + 1)

/-- How many comments are open in front of the position. -/
def depthAt (text : Text) (i : ℕ) : ℕ := ((CommentState.mk 0 false).inFront text i).depth

/-- The name that is read at the start of a line, in the text and in the text without its
comments. -/
def nameAt (text : Text) (i : ℕ) : Option Text := theoryNameAt (text.drop i)

def strippedNameAt (text : Text) (i : ℕ) : Option Text :=
  theoryNameAt (stripTheoryComments (depthAt text i) (text.drop i))

def readsHeader (text : Text) (i : ℕ) : Bool :=
  (nameAt text i).isSome || (strippedNameAt text i).isSome

/-- The header that a line starts with, up to the end of its name. -/
def headerAt (line : Text) : Text := line.take (line.length - (afterTheoryName line).length)

/-- The line starts with a header outside of comments, in which no comment opens, and behind a bare
name the next character outside of comments is none of a name. -/
structure ClearOfComments (text : Text) (i : ℕ) : Prop where
  header : (nameAt text i).isSome = true
  outside : depthAt text i = 0
  untouched : opensComment (headerAt (text.drop i)) = false
  separate : (headerAt (text.drop i)).getLast? ≠ some quote →
    ∀ c ∈ (stripTheoryComments 0 (afterTheoryName (text.drop i))).head?, isNameChar c = false

/-- The first line that reads as a header, as it stands or without its comments, is clear of
comments. -/
def FirstHeaderClear (text : Text) : Prop :=
  ∀ i ∈ (lineStarts text).find? (readsHeader text), ClearOfComments text i

/-- A name is read at two headers, one of them in the text without its comments, or at one that is
not clear of comments. -/
def NameTwice (text : Text) : Prop :=
  ∃ i ∈ lineStarts text, ∃ j ∈ lineStarts text, ∃ name, nameAt text i = some name ∧
    strippedNameAt text j = some name ∧ (i ≠ j ∨ ¬ ClearOfComments text i)

section Lines

/-- The lines below a state of the comments, with what is read there. -/
def namesBelow (s : CommentState) (t : Text) : List (Option Text × Option Text) :=
  ((List.range t.length).filter fun j => t[j]? = some '\n').map fun j =>
    (theoryNameAt (t.drop (j + 1)),
      theoryNameAt (stripTheoryComments (s.inFront t (j + 1)).depth (t.drop (j + 1))))

theorem namesBelow_cons (s : CommentState) (c : Char) (t : Text) :
    namesBelow s (c :: t) =
      (if c = '\n' then
        [(theoryNameAt t, theoryNameAt (stripTheoryComments (s.next (c :: t)).depth t))]
      else []) ++ namesBelow (s.next (c :: t)) t := by
  have hshift : (List.range (c :: t).length).filter (fun j => (c :: t)[j]? = some '\n') =
      (if c = '\n' then [0] else []) ++
        ((List.range t.length).filter fun j => t[j]? = some '\n').map Nat.succ := by
    rw [List.length_cons, List.range_succ_eq_map, List.filter_cons, List.filter_map]
    by_cases hc : c = '\n'
    · simp [hc, Function.comp_def]
    · simp [hc, Function.comp_def]
  rw [namesBelow, hshift, List.map_append, List.map_map, namesBelow]
  refine congrArg₂ _ ?_ (List.map_congr_left fun j _ => ?_)
  · split_ifs
    · simp [CommentState.inFront]
    · rfl
  · simp [CommentState.inFront_cons]

theorem searchTheoryName_true (t : Text) :
    searchTheoryName true t = (theoryNameAt t).or (searchTheoryName false t) := by
  cases t <;> rfl

theorem searchTheoryName_false_cons (c : Char) (t : Text) :
    searchTheoryName false (c :: t) = if c = '\n' then searchTheoryName true t
      else searchTheoryName false t := by
  change searchTheoryName (c = '\n') t = _
  split_ifs with hc
  · rw [decide_eq_true hc]
  · rw [decide_eq_false hc]

theorem findSome_append_line {f : Option Text × Option Text → Option Text} (c : Char)
    (line : Option Text × Option Text) (lines : List (Option Text × Option Text)) :
    ((if c = '\n' then [line] else []) ++ lines).findSome? f =
      if c = '\n' then (f line).or (lines.findSome? f) else lines.findSome? f := by
  split_ifs
  · rw [List.singleton_append, List.findSome?_cons]
    cases f line <;> rfl
  · rfl

/-- The lines below have the headers of the text. -/
theorem findSome_fst_namesBelow (s : CommentState) (t : Text) :
    (namesBelow s t).findSome? Prod.fst = searchTheoryName false t := by
  induction t generalizing s with
  | nil => rfl
  | cons c t ih =>
    rw [namesBelow_cons, findSome_append_line, ih, searchTheoryName_false_cons,
      searchTheoryName_true]

/-- A line break behind the comments is one of the text, so the lines below also have the headers
of the text without its comments. -/
theorem findSome_snd_namesBelow (depth : ℕ) (t : Text) :
    (namesBelow ⟨depth, false⟩ t).findSome? Prod.snd =
      searchTheoryName false (stripTheoryComments depth t) := by
  fun_induction stripTheoryComments depth t with
  | case1 => rfl
  | case2 depth t ih =>
    have hopens : (CommentState.mk depth false).next ('(' :: '*' :: t) = ⟨depth + 1, true⟩ := by
      simp [CommentState.next, CommentState.opens, CommentState.goesOn]
    have hsecond : (CommentState.mk (depth + 1) true).next ('*' :: t) = ⟨depth + 1, false⟩ := by
      simp [CommentState.next, CommentState.opens, CommentState.closes]
    rw [namesBelow_cons, namesBelow_cons, hopens, hsecond, if_neg (by decide), if_neg (by decide)]
    exact ih
  | case3 depth t ih =>
    have hcloses : (CommentState.mk (depth + 1) false).next ('*' :: ')' :: t) = ⟨depth, true⟩ := by
      simp [CommentState.next, CommentState.opens, CommentState.closes, CommentState.goesOn]
    have hsecond : (CommentState.mk depth true).next (')' :: t) = ⟨depth, false⟩ := by
      simp [CommentState.next, CommentState.opens, CommentState.closes]
    rw [namesBelow_cons, namesBelow_cons, hcloses, hsecond, if_neg (by decide), if_neg (by decide)]
    exact ih
  | case4 c t hopen ih =>
    have hplain : CommentState.goesOn (c :: t) "(*".toList = false :=
      CommentState.goesOn_eq_false fun u heq => by cases heq; exact hopen u rfl rfl
    rw [namesBelow_cons, CommentState.next_of_plain c t 0 hplain (by simp), findSome_append_line,
      ih, searchTheoryName_false_cons, searchTheoryName_true]
  | case5 depth t hopen hclose ih =>
    have hplain : ∀ a b, '\n' ≠ a → CommentState.goesOn ('\n' :: t) [a, b] = false :=
      fun a b hne => CommentState.goesOn_eq_false fun u heq => hne (List.cons.inj heq).1
    rw [namesBelow_cons, CommentState.next_of_plain '\n' t _ (hplain _ _ (by decide))
      fun _ => hplain _ _ (by decide), findSome_append_line, ih, searchTheoryName_false_cons,
      searchTheoryName_true]
  | case6 depth c t hopen hclose hc ih =>
    have hplain : CommentState.goesOn (c :: t) "(*".toList = false :=
      CommentState.goesOn_eq_false fun u heq => by cases heq; exact hopen u rfl rfl
    have hplain' : CommentState.goesOn (c :: t) "*)".toList = false :=
      CommentState.goesOn_eq_false fun u heq => by cases heq; exact hclose u rfl rfl
    rw [namesBelow_cons, CommentState.next_of_plain c t _ hplain fun _ => hplain', if_neg hc,
      List.nil_append, ih]

theorem names_lineStarts (text : Text) :
    (lineStarts text).map (fun i => (nameAt text i, strippedNameAt text i)) =
      (theoryNameAt text, theoryNameAt (stripTheoryComments 0 text)) ::
        namesBelow ⟨0, false⟩ text := by
  rw [lineStarts, List.map_cons, List.map_map]
  rfl

/-- Each parser takes the first name that is read at a line. -/
theorem extractTheoryName_eq_findSome (text : Text) :
    extractTheoryName text = (lineStarts text).findSome? (nameAt text) := by
  have hnames := congrArg (List.findSome? Prod.fst) (names_lineStarts text)
  rw [List.findSome?_map, List.findSome?_cons, findSome_fst_namesBelow] at hnames
  rw [extractTheoryName, searchTheoryName_true]
  refine Eq.trans ?_ hnames.symm
  cases theoryNameAt text <;> rfl

theorem parseTheoryHeader_eq_findSome (isWord : Char → Bool) (text : Text) :
    (parseTheoryHeader isWord text).1 = (lineStarts text).findSome? (strippedNameAt text) := by
  have hnames := congrArg (List.findSome? Prod.snd) (names_lineStarts text)
  rw [List.findSome?_map, List.findSome?_cons, findSome_snd_namesBelow] at hnames
  rw [parseTheoryHeader_fst, extractTheoryName, searchTheoryName_true]
  refine Eq.trans ?_ hnames.symm
  cases theoryNameAt (stripTheoryComments 0 text) <;> rfl

end Lines

section Clear

structure Front (indent gap : Text) : Prop where
  indent : ∀ c ∈ indent, c = ' ' ∨ c = '\t'
  gap_ne : gap ≠ []
  gap : ∀ c ∈ gap, isSpace c = true

variable {line name : Text}

theorem headerAt_eq (header : Text) {after : Text} (hline : line = header ++ after)
    (hafter : afterTheoryName line = after) : headerAt line = header := by
  rw [headerAt, hafter, hline, List.length_append, Nat.add_sub_cancel, List.take_left]

/-- A line with a name starts with the keyword and a gap. -/
theorem exists_front (h : theoryNameAt line = some name) :
    ∃ indent gap named, Front indent gap ∧ line = indent ++ ("theory".toList ++ (gap ++ named)) ∧
      ∀ c ∈ named.head?, isSpace c = false := by
  have hblank : ∀ c ∈ line.takeWhile (fun c => c = ' ' || c = '\t'), c = ' ' ∨ c = '\t' := by
    intro c hc
    simpa using List.mem_takeWhile_imp hc
  have hline := List.takeWhile_append_dropWhile (p := fun c => c = ' ' || c = '\t') (l := line)
  unfold theoryNameAt at h
  dsimp only at h
  generalize line.dropWhile (fun c => c = ' ' || c = '\t') = t at h hline
  split_ifs at h with hstarts
  all_goals
    rw [Bool.or_eq_true, not_or, Bool.not_eq_true, Bool.not_eq_false', decide_eq_true_eq] at hstarts
    obtain ⟨⟨r, rfl⟩, hlength⟩ := hstarts.imp_left List.isPrefixOf_iff_prefix.mp
    have hdrop : ("theory".toList ++ r).drop 6 = r := List.drop_left' rfl
    rw [hdrop] at hlength
    have hrest := List.takeWhile_append_dropWhile (p := isSpace) (l := r)
    refine ⟨_, r.takeWhile isSpace, r.dropWhile isSpace,
      ⟨hblank, fun hgap => hlength ?_, fun c hc => List.mem_takeWhile_imp hc⟩, ?_, ?_⟩
    · rw [hgap] at hrest
      exact congrArg List.length hrest
    · rw [hrest, hline]
    · intro c hc
      have hnot := List.head?_dropWhile_not isSpace r
      rw [Option.mem_def.mp hc] at hnot
      exact hnot

/-- A name in quotes ends at the closing quote. -/
theorem exists_quoted {gap tl : Text} (hgap : ∀ c ∈ gap, isSpace c = true)
    (h : theoryNameAt ("theory".toList ++ (gap ++ quote :: tl)) = some name) :
    ∃ after, tl = name ++ quote :: after ∧ name ≠ [] ∧ quote ∉ name ∧ '\n' ∉ name := by
  have hnamed := named_gap hgap (t := quote :: tl) fun c hc => by
    obtain rfl : quote = c := by simpa using hc
    rfl
  unfold theoryNameAt at h
  dsimp only at h
  rw [hnamed, List.head?_cons, if_pos rfl, List.tail_cons] at h
  split_ifs at h with hstarts hclosed
  rw [Bool.or_eq_true, not_or, List.isEmpty_iff, decide_eq_true_eq, not_not] at hclosed
  have hname := Option.some.inj h
  have hsplit := List.takeWhile_append_dropWhile (p := fun c => c ≠ quote && c ≠ '\n') (l := tl)
  have hchars : ∀ c ∈ name, c ≠ quote ∧ c ≠ '\n' := by
    intro c hc
    rw [← hname] at hc
    simpa using List.mem_takeWhile_imp hc
  rw [hname] at hclosed hsplit
  obtain ⟨hne, hclose⟩ := hclosed
  rw [← hsplit, List.drop_left] at hclose
  obtain ⟨after, hafter⟩ := List.head?_eq_some_iff.mp hclose
  rw [hafter] at hsplit
  exact ⟨after, hsplit.symm, hne, fun hin => (hchars quote hin).1 rfl,
    fun hin => (hchars '\n' hin).2 rfl⟩

/-- A line with a name is a header, the name in quotes or bare, and what is behind it. -/
theorem exists_header (h : theoryNameAt line = some name) :
    ∃ indent gap, Front indent gap ∧ line = headerAt line ++ afterTheoryName line ∧ name ≠ [] ∧
      (headerAt line = indent ++ ("theory".toList ++ (gap ++ quote :: (name ++ [quote]))) ∧
          quote ∉ name ∧ '\n' ∉ name ∨
        headerAt line = indent ++ ("theory".toList ++ (gap ++ name)) ∧
          ∀ c ∈ name, isNameChar c = true) := by
  obtain ⟨indent, gap, named, hfront, hline, hhead⟩ := exists_front h
  obtain ⟨hread, hafter⟩ :=
    TheoryHeader.theoryNameAt_indent hfront.indent ("theory".toList ++ (gap ++ named))
  rw [← hline] at hread hafter
  rw [hread] at h
  refine ⟨indent, gap, hfront, ?_⟩
  by_cases hquoted : named.head? = some quote
  · obtain ⟨tl, rfl⟩ := List.head?_eq_some_iff.mp hquoted
    obtain ⟨after, rfl, hne, hquote, hnl⟩ := exists_quoted hfront.gap h
    rw [TheoryHeader.afterTheoryName_quoted hfront.gap hquote] at hafter
    have hheader := headerAt_eq
      (indent ++ ("theory".toList ++ (gap ++ quote :: (name ++ [quote])))) (by rw [hline]; simp)
      hafter
    refine ⟨?_, hne, .inl ⟨hheader, hquote, hnl⟩⟩
    rw [hheader, hafter, hline]
    simp
  · have hbare : ∀ c ∈ named.head?, isSpace c = false ∧ c ≠ quote :=
      fun c hc => ⟨hhead c hc, fun heq => hquoted (heq ▸ hc)⟩
    rw [theoryNameAt_bare hfront.gap_ne hfront.gap hbare] at h
    split_ifs at h with hempty
    have hname := Option.some.inj h
    rw [afterTheoryName_bare hfront.gap hbare] at hafter
    have hsplit : named = name ++ named.dropWhile isNameChar := by
      rw [← hname, List.takeWhile_append_dropWhile]
    have hheader := headerAt_eq (indent ++ ("theory".toList ++ (gap ++ name)))
      (by rw [hline, List.append_assoc, List.append_assoc, List.append_assoc, ← hsplit]) hafter
    refine ⟨?_, ?_, .inr ⟨hheader, ?_⟩⟩
    · rw [hheader, hafter, List.append_assoc, List.append_assoc, List.append_assoc, ← hsplit,
        hline]
    · rw [← hname]
      simpa using hempty
    · rw [← hname]
      exact fun c hc => List.mem_takeWhile_imp hc

theorem of_isNameChar {c : Char} (h : isNameChar c = true) :
    isSpace c = false ∧ c ≠ quote ∧ c ≠ '(' := by
  refine ⟨?_, ?_, ?_⟩
  · rw [← Bool.not_eq_true]
    intro hspace
    rw [TheoryHeader.isNameChar_of_isSpace hspace] at h
    cases h
  · rintro rfl
    revert h
    decide
  · rintro rfl
    revert h
    decide

theorem getLast?_bare (indent gap : Text) (hne : name ≠ [])
    (hchars : ∀ c ∈ name, isNameChar c = true) :
    ∃ c, (indent ++ ("theory".toList ++ (gap ++ name))).getLast? = some c ∧
      isNameChar c = true := by
  obtain ⟨init, c, rfl⟩ := (List.eq_nil_or_concat' name).resolve_left hne
  refine ⟨c, ?_, hchars c (by simp)⟩
  rw [← List.append_assoc gap, ← List.append_assoc, ← List.append_assoc, List.getLast?_concat]

/-- A header ends with a quote or a character of its name. -/
theorem getLast?_headerAt (h : theoryNameAt line = some name) :
    (headerAt line).getLast? = some quote ∨
      ∃ c, (headerAt line).getLast? = some c ∧ isNameChar c = true := by
  obtain ⟨indent, gap, -, -, hne, ⟨hheader, -, -⟩ | ⟨hheader, hchars⟩⟩ := exists_header h
  · have hsplit : headerAt line =
        indent ++ ("theory".toList ++ (gap ++ quote :: name)) ++ [quote] := by
      rw [hheader]
      simp
    rw [hsplit, List.getLast?_concat]
    exact .inl rfl
  · rw [hheader]
    exact .inr (getLast?_bare indent gap hne hchars)

/-- The name of a header is read again where the header goes on otherwise. -/
theorem theoryNameAt_headerAt_append (h : theoryNameAt line = some name) {t : Text}
    (ht : (headerAt line).getLast? ≠ some quote → ∀ c ∈ t.head?, isNameChar c = false) :
    theoryNameAt (headerAt line ++ t) = some name := by
  obtain ⟨indent, gap, hfront, -, hne, ⟨hheader, hquote, hnl⟩ | ⟨hheader, hchars⟩⟩ :=
    exists_header h
  · have hread := TheoryHeader.theoryNameAt_quoted hfront.gap_ne hfront.gap hne hquote t
    have hsplit : headerAt line ++ t =
        indent ++ ("theory".toList ++ (gap ++ quote :: (name ++ quote :: t))) := by
      rw [hheader]
      simp
    rw [hsplit, (TheoryHeader.theoryNameAt_indent hfront.indent _).1, hread, if_neg hnl]
  · have hlast : (headerAt line).getLast? ≠ some quote := by
      obtain ⟨c, hc, hchar⟩ := getLast?_bare indent gap hne hchars
      rw [hheader, hc]
      exact fun heq => (of_isNameChar hchar).2.1 (Option.some.inj heq)
    have htake : (name ++ t).takeWhile isNameChar = name :=
      takeWhile_append_stop hchars (ht hlast)
    have hhead : ∀ c ∈ (name ++ t).head?, isSpace c = false ∧ c ≠ quote := by
      intro c hc
      rw [List.head?_append_of_ne_nil _ hne] at hc
      have hname := of_isNameChar (hchars c (List.mem_of_head? hc))
      exact ⟨hname.1, hname.2.1⟩
    have hread := theoryNameAt_bare hfront.gap_ne hfront.gap hhead
    have hsplit : headerAt line ++ t = indent ++ ("theory".toList ++ (gap ++ (name ++ t))) := by
      rw [hheader]
      simp
    rw [hsplit, (TheoryHeader.theoryNameAt_indent hfront.indent _).1, hread, htake,
      if_neg (by simpa using hne)]

/-- At a line that is clear of comments the same name is read without them. -/
theorem ClearOfComments.strippedNameAt_eq {text : Text} {i : ℕ} (h : ClearOfComments text i) :
    strippedNameAt text i = nameAt text i := by
  obtain ⟨name, hname⟩ := Option.isSome_iff_exists.mp h.header
  rw [hname]
  obtain ⟨-, -, -, hline, -⟩ := exists_header hname
  have hlast : ∀ c ∈ (headerAt (text.drop i)).getLast?, c ≠ '(' := by
    intro c hc
    rcases getLast?_headerAt hname with hquote | ⟨d, hd, hchar⟩
    · rw [hquote] at hc
      cases hc
      decide
    · rw [hd] at hc
      cases hc
      exact (of_isNameChar hchar).2.2
  have hstrip := strip_append_of_not_opens h.untouched hlast (afterTheoryName (text.drop i))
  rw [← hline] at hstrip
  rw [strippedNameAt, h.outside, hstrip]
  exact theoryNameAt_headerAt_append hname h.separate

end Clear

section Agreement

theorem findSome_eq_of_find {f g : ℕ → Option Text} {l : List ℕ}
    (h : ∀ i ∈ l.find? fun i => (f i).isSome || (g i).isSome, f i = g i) :
    l.findSome? f = l.findSome? g := by
  induction l with
  | nil => rfl
  | cons i l ih =>
    rw [List.find?_cons] at h
    rw [List.findSome?_cons, List.findSome?_cons]
    cases hreads : (f i).isSome || (g i).isSome with
    | true =>
      rw [hreads] at h
      rw [← h i rfl] at hreads ⊢
      rw [Bool.or_self] at hreads
      obtain ⟨name, hname⟩ := Option.isSome_iff_exists.mp hreads
      rw [hname]
    | false =>
      rw [hreads] at h
      rw [Bool.or_eq_false_iff, Option.isSome_eq_false_iff, Option.isSome_eq_false_iff,
        Option.isNone_iff_eq_none, Option.isNone_iff_eq_none] at hreads
      rw [hreads.1, hreads.2]
      exact ih h

/-- Where both searches end with one name and the first line that reads as a header is `i`, the
name is read there by one of them. -/
theorem exists_of_findSome_eq {f g : ℕ → Option Text} {l : List ℕ} {i : ℕ}
    (hfind : (l.find? fun i => (f i).isSome || (g i).isSome) = some i)
    (h : l.findSome? f = l.findSome? g) :
    i ∈ l ∧ ∃ name, (f i = some name ∧ ∃ j ∈ l, g j = some name) ∨
      (f i = none ∧ g i = some name ∧ ∃ j ∈ l, f j = some name) := by
  obtain ⟨hreads, pre, post, rfl, hpre⟩ := List.find?_eq_some_iff_append.mp hfind
  refine ⟨by simp, ?_⟩
  have hnone : ∀ k ∈ pre, f k = none ∧ g k = none := by
    intro k hk
    simpa using hpre k hk
  have hskip : ∀ {e : ℕ → Option Text}, (∀ k ∈ pre, e k = none) →
      (pre ++ i :: post).findSome? e = (i :: post).findSome? e := by
    intro e he
    rw [List.findSome?_append, List.findSome?_eq_none_iff.mpr he, Option.none_or]
  rw [hskip fun k hk => (hnone k hk).1, hskip fun k hk => (hnone k hk).2] at h
  cases hf : f i with
  | some name =>
    rw [List.findSome?_cons, hf] at h
    obtain ⟨j, hj, hg⟩ := List.exists_of_findSome?_eq_some h.symm
    exact ⟨name, .inl ⟨rfl, j, List.mem_append_right pre hj, hg⟩⟩
  | none =>
    rw [hf, Option.isSome_none, Bool.false_or] at hreads
    obtain ⟨name, hg⟩ := Option.isSome_iff_exists.mp hreads
    rw [List.findSome?_cons (f := g), hg] at h
    obtain ⟨j, hj, hname⟩ := List.exists_of_findSome?_eq_some h
    exact ⟨name, .inr ⟨rfl, hg, j, List.mem_append_right pre hj, hname⟩⟩

/-- The parsers find the same name, or none, where the first header is clear of comments, and
elsewhere only where one name is read twice. -/
theorem extractTheoryName_eq_parseTheoryHeader (isWord : Char → Bool) (text : Text) :
    (FirstHeaderClear text → extractTheoryName text = (parseTheoryHeader isWord text).1) ∧
      (extractTheoryName text = (parseTheoryHeader isWord text).1 →
        FirstHeaderClear text ∨ NameTwice text) := by
  rw [extractTheoryName_eq_findSome, parseTheoryHeader_eq_findSome]
  constructor
  · intro h
    exact findSome_eq_of_find fun i hi => (h i hi).strippedNameAt_eq.symm
  · intro h
    by_contra hnot
    rw [not_or] at hnot
    obtain ⟨hclear, htwice⟩ := hnot
    refine hclear fun i hi => by_contra fun hi' => htwice ?_
    obtain ⟨hin, name, ⟨hname, j, hj, hstripped⟩ | ⟨hnone, hstripped, j, hj, hname⟩⟩ :=
      exists_of_findSome_eq hi h
    · exact ⟨i, hin, j, hj, name, hname, hstripped, .inr hi'⟩
    · refine ⟨j, hj, i, hin, name, hname, hstripped, .inl ?_⟩
      rintro rfl
      rw [hnone] at hname
      cases hname

def headerInComment : Text := "(*\ntheory A\n*)\ntheory B imports Main begin end".toList

/-- The header in a comment is the one that the search of the text finds. -/
theorem parsers_disagree : ¬ ∀ text : Text,
    extractTheoryName text = (parseTheoryHeader Char.isAlphanum text).1 := by
  intro h
  have hname := h headerInComment
  rw [parseTheoryHeader_fst] at hname
  have hraw : extractTheoryName headerInComment = some ['A'] := by decide
  have hstripped : extractTheoryName (stripTheoryComments 0 headerInComment) = some ['B'] := by
    decide
  rw [hraw, hstripped] at hname
  cases hname

/-- A comment in front of the header is no obstacle. -/
example : FirstHeaderClear "(* c *)\ntheory B imports Main begin end".toList := by
  rintro i hi
  have hfirst : (lineStarts "(* c *)\ntheory B imports Main begin end".toList).find?
      (readsHeader "(* c *)\ntheory B imports Main begin end".toList) = some 8 := by decide
  rw [hfirst] at hi
  cases hi
  refine ⟨by decide, by decide, by decide, fun _ c hc => ?_⟩
  obtain rfl : ' ' = c := Option.some.inj hc
  decide

end Agreement

end TheoryParsing
end IsabelleGym
