import IsabelleGym.HeaderGrammar

/-!
# What is read stands in the text

The name and the imports that are read stand in the text in order, behind the words
`theory` and `imports`. Names that are not apart are read as one token, which leaves
too few characters for the others.
-/

namespace IsabelleGym
namespace TheoryParsing

open PythonStr

section Sublists

/-- The tokens stand in the text one behind the other. -/
theorem flatten_tokensOf_sublist (t : Text) : (tokensOf t).flatten.Sublist t := by
  induction hn : t.length using Nat.strong_induction_on generalizing t with
  | _ n ih =>
    subst hn
    cases t with
    | nil => exact List.Sublist.slnil
    | cons c t =>
      have hrec : ∀ u : Text, u.length ≤ t.length → (tokensOf u).flatten.Sublist u :=
        fun u hu => ih u.length (by rw [List.length_cons]; omega) u rfl
      rw [tokensOf_cons]
      split_ifs with hquote hempty hstart
      · exact (hrec t le_rfl).cons c
      · obtain ⟨s, hs⟩ := List.takeWhile_prefix (l := t) fun d => decide (d ≠ quote)
        generalize t.takeWhile (fun d => decide (d ≠ quote)) = name at hs
        have hdrop : t.drop (name.length + 1) = s.drop 1 := by
          rw [← hs, List.drop_length_add_append]
        have hrest := hrec _ (List.drop_suffix (name.length + 1) t).length_le
        rw [hdrop] at hrest ⊢
        rw [List.flatten_cons]
        refine List.Sublist.cons c ?_
        conv_rhs => rw [← hs]
        exact (hrest.trans (List.drop_sublist 1 s)).append_left name
      · have hrest := hrec _ (List.dropWhile_suffix isImportChar).length_le
        rw [List.flatten_cons, List.cons_append]
        refine List.Sublist.cons_cons c ?_
        conv_rhs => rw [← List.takeWhile_append_dropWhile (p := isImportChar) (l := t)]
        exact hrest.append_left _
      · exact (hrec t le_rfl).cons c

theorem flatten_sublist_flatten {xs ys : List Text} (h : xs.Sublist ys) :
    xs.flatten.Sublist ys.flatten := by
  induction h with
  | slnil => exact List.Sublist.slnil
  | cons a h ih => exact ih.trans (List.sublist_append_right a _)
  | cons_cons a h ih => exact ih.append_left a

theorem flatten_importsIn_sublist (isWord : Char → Bool) (t : Text) :
    (importsIn isWord t).flatten.Sublist t :=
  (flatten_sublist_flatten List.filter_sublist).trans
    ((flatten_tokensOf_sublist _).trans (isPrefix_cutAtBegin isWord t).sublist)

theorem findWord_sublist {isWord : Char → Bool} {word t : Text} {before : Option Char} {i : ℕ}
    (h : findWord isWord word before t = some i) :
    (word ++ t.drop (i + word.length)).Sublist t := by
  obtain ⟨u, hu⟩ := prefix_of_findWord h
  have hdrop : t.drop (i + word.length) = u := by
    rw [← List.drop_drop, ← hu, List.drop_left]
  rw [hdrop, hu]
  exact List.drop_sublist i t

/-- The imports that are read stand behind a word `imports`. -/
theorem importsOf_sublist {isWord : Char → Bool} {t : Text} (h : importsOf isWord t ≠ []) :
    ("imports".toList ++ (importsOf isWord t).flatten).Sublist t := by
  rw [importsOf] at h ⊢
  cases hfound : findWord isWord "imports".toList none t with
  | none =>
    rw [hfound] at h
    exact absurd rfl h
  | some i =>
    exact ((flatten_importsIn_sublist isWord (t.drop (i + 7))).append_left _).trans
      (findWord_sublist hfound)

theorem takeWhile_append_tail_sublist {p q : Char → Bool} (hpq : ∀ c, p c = true → q c = true)
    (t : Text) : (t.takeWhile p ++ (t.dropWhile q).tail).Sublist t := by
  induction t with
  | nil => exact List.Sublist.slnil
  | cons c t ih =>
    rw [List.takeWhile_cons, List.dropWhile_cons]
    split_ifs with hp hq hq
    · exact ih.cons_cons c
    · exact absurd (hpq c hp) hq
    · exact ((List.tail_sublist _).trans (List.dropWhile_sublist q)).cons c
    · exact List.sublist_cons_self c t

/-- The name and what is behind it stand behind a word `theory`. -/
theorem theoryNameAt_sublist {t name : Text} (h : theoryNameAt t = some name) :
    ("theory".toList ++ (name ++ afterTheoryName t)).Sublist t := by
  have hline := List.dropWhile_sublist (fun c => decide (c = ' ') || decide (c = '\t')) (l := t)
  rw [theoryNameAt] at h
  rw [afterTheoryName]
  dsimp only at h ⊢
  generalize t.dropWhile (fun c => decide (c = ' ') || decide (c = '\t')) = line at h hline ⊢
  have hnamed := List.dropWhile_sublist isSpace (l := line.drop 6)
  generalize (line.drop 6).dropWhile isSpace = named at h hnamed ⊢
  -- It is enough that the name and the rest stand behind the white space.
  have hline' : ∀ u : Text, "theory".toList.isPrefixOf line = true → u.Sublist named →
      ("theory".toList ++ u).Sublist t := by
    intro u hstart hu
    obtain ⟨v, hv⟩ := List.isPrefixOf_iff_prefix.mp hstart
    have hdrop : line.drop 6 = v := by
      rw [← hv]
      change v.drop 0 = v
      rw [List.drop_zero]
    rw [hdrop] at hnamed
    refine List.Sublist.trans ?_ hline
    rw [← hv]
    exact (hu.trans hnamed).append_left _
  split_ifs at h with hstart hquote hempty hempty
  · rw [Bool.not_eq_true, Bool.or_eq_false_iff, Bool.not_eq_false'] at hstart
    obtain rfl := Option.some.inj h
    refine hline' _ hstart.1 ?_
    rw [if_pos hquote]
    refine (takeWhile_append_tail_sublist (fun c hc => ?_) named.tail).trans
      (List.tail_sublist named)
    exact (Bool.and_eq_true_iff.mp hc).1
  · rw [Bool.not_eq_true, Bool.or_eq_false_iff, Bool.not_eq_false'] at hstart
    obtain rfl := Option.some.inj h
    refine hline' _ hstart.1 ?_
    rw [if_neg hquote, List.takeWhile_append_dropWhile]

theorem searchTheoryLine_sublist {lineStart : Bool} {t name rest : Text}
    (h : searchTheoryLine lineStart t = some (name, rest)) :
    ("theory".toList ++ (name ++ rest)).Sublist t := by
  induction t generalizing lineStart with
  | nil => cases h
  | cons c t ih =>
    rw [searchTheoryLine] at h
    rcases Option.or_eq_some_iff.mp h with h | ⟨-, h⟩
    · split_ifs at h
      obtain ⟨name', hname, heq⟩ := Option.map_eq_some_iff.mp h
      obtain ⟨rfl, rfl⟩ := Prod.mk.inj heq
      exact theoryNameAt_sublist hname
    · exact (ih h).cons c

/-- No word character stands in front of a word that is found. -/
theorem before_of_findWord {isWord : Char → Bool} {word : Text} {before : Option Char} {t : Text}
    {i : ℕ} (h : findWord isWord word before t = some i) :
    ((t.take i).getLast?.or before).any isWord = false := by
  induction t generalizing before i with
  | nil => cases h
  | cons c t ih =>
    rw [findWord] at h
    split_ifs at h with hw
    · obtain rfl : 0 = i := Option.some.inj h
      simp only [wordAt, Bool.and_eq_true, Bool.not_eq_true'] at hw
      exact hw.1.1
    · obtain ⟨j, hj, rfl⟩ := Option.map_eq_some_iff.mp h
      have hbefore := ih hj
      rw [List.take_succ_cons, List.getLast?_cons]
      cases hlast : (t.take j).getLast? with
      | none => rwa [hlast] at hbefore
      | some d => rwa [hlast] at hbefore

end Sublists

section Merged

variable {isWord : Char → Bool} (hchars : WordChars isWord)

/-- Behind the import characters of the names and of `begin` stands white space or a quote. -/
theorem head_dropWhile_text {ps : Pieces} (hgap : ∀ p ∈ ps, ∀ c ∈ p.1, isSpace c = true)
    (htoken : ∀ p ∈ ps, p.2.OneToken) {gap : Text} (hspace : ∀ c ∈ gap, isSpace c = true) :
    ∀ c ∈ ((Pieces.text ps ++ (gap ++ "begin".toList)).dropWhile isImportChar).head?,
      isSpace c = true ∨ c = quote := by
  have hstop : ∀ {g t : Text}, (∀ c ∈ g, isSpace c = true) →
      (∀ c ∈ (t.dropWhile isImportChar).head?, isSpace c = true ∨ c = quote) →
      ∀ c ∈ ((g ++ t).dropWhile isImportChar).head?, isSpace c = true ∨ c = quote := by
    intro g t hg ht
    cases g with
    | nil => exact ht
    | cons d g =>
      have hd := hg d List.mem_cons_self
      intro c hc
      rw [List.cons_append, List.dropWhile_cons_of_neg
        (by rw [isImportChar_of_isSpace hd]; exact Bool.false_ne_true)] at hc
      obtain rfl : d = c := by simpa using hc
      exact Or.inl hd
  induction ps with
  | nil =>
    rw [Pieces.text_nil, List.nil_append]
    exact hstop hspace fun c hc => by cases hc
  | cons p ps ih =>
    obtain ⟨g, i⟩ := p
    have hrest := ih (fun q hq => hgap q (List.mem_cons_of_mem _ hq))
      fun q hq => htoken q (List.mem_cons_of_mem _ hq)
    rw [Pieces.text_cons, List.append_assoc, List.append_assoc]
    refine hstop (hgap _ List.mem_cons_self) ?_
    have hi := htoken (g, i) List.mem_cons_self
    cases i with
    | bare name =>
      rw [ImportName.text, List.dropWhile_append_of_pos hi.2]
      exact hrest
    | quoted name =>
      intro c hc
      rw [ImportName.text, List.cons_append,
        List.dropWhile_cons_of_neg (by rw [isImportChar_quote]; exact Bool.false_ne_true)] at hc
      obtain rfl : quote = c := by simpa using hc
      exact Or.inr rfl

theorem count_text (ps : Pieces) (hgap : ∀ p ∈ ps, ∀ c ∈ p.1, isSpace c = true) {c : Char}
    (hc : isSpace c = false) (hquote : c ≠ quote) :
    (Pieces.text ps).count c = (Pieces.names ps).flatten.count c := by
  induction ps with
  | nil => rfl
  | cons p ps ih =>
    obtain ⟨gap, i⟩ := p
    have hnone : gap.count c = 0 :=
      count_eq_zero_of_forall (hgap (gap, i) List.mem_cons_self) hc
    rw [Pieces.text_cons, List.count_append, List.count_append, hnone, i.count_text hquote,
      ih fun q hq => hgap q (List.mem_cons_of_mem _ hq), Nat.zero_add, ← List.count_append]
    rfl

theorem isWord_of_isImportChar {c : Char} (hc : isImportChar c = true)
    (hsep : c ∉ "./-".toList) (hchars : WordChars isWord) : isWord c = true := by
  rw [isImportChar, Bool.or_eq_true] at hc
  rcases hc with hc | hc
  · have hall : ∀ d ∈ [c], isWord d = true := hchars.isWord (by simpa using hc)
    exact hall c List.mem_cons_self
  · have hmem : c = '_' ∨ c = '.' ∨ c = '/' ∨ c = '-' := by simpa using hc
    rcases hmem with rfl | rfl | rfl | rfl
    · exact hchars.ascii '_' (by decide)
    · exact absurd (by decide) hsep
    · exact absurd (by decide) hsep
    · exact absurd (by decide) hsep

/-- A word of the header with no character to spare beside those of `begin`. -/
theorem eq_begin_of_noise {v : Text} (hv : v ∈ noise) (hspare : ∀ c : Char, isSpace c = false →
    c ≠ quote → v.count c ≤ "begin".toList.count c) : v = "begin".toList := by
  have hwords : v = "imports".toList ∨ v = "begin".toList ∨ v = "theory".toList ∨
      v = "keywords".toList := by simpa [noise] using hv
  rcases hwords with rfl | rfl | rfl | rfl
  · exact absurd (hspare 'm' rfl (by decide)) (by decide)
  · rfl
  · exact absurd (hspare 't' rfl (by decide)) (by decide)
  · exact absurd (hspare 'k' rfl (by decide)) (by decide)

section Run

variable {gap behind more tail : Text} {first : Char} {names : List Text}

/-- A name that goes on is no token of its own; where it is found all the same, the word that it
goes on to is `begin`. -/
theorem eq_begin_of_run (hblank : ∀ c ∈ gap, isSpace c = true)
    (hstart : isImportStart first = true) (htail : ∀ c ∈ tail ++ more, isImportChar c = true)
    (hmore : more ≠ []) (hbehind : ∀ c ∈ behind.head?, isImportChar c = false)
    (hcount : ∀ c : Char, isSpace c = false → c ≠ quote →
      (more ++ behind).count c = names.flatten.count c + "begin".toList.count c)
    {t : Text} (ht : t <+: behind)
    (h : (tokensOf (gap ++ (first :: (tail ++ more) ++ t))).filter
      (fun tok => !tok.isEmpty && !noise.contains tok) = (first :: tail) :: names) :
    first :: (tail ++ more) = "begin".toList := by
  have hhead : ∀ c ∈ t.head?, isImportChar c = false := by
    intro c hc
    obtain ⟨u, hu⟩ := ht
    refine hbehind c ?_
    rw [← hu, List.head?_append, Option.mem_def.mp hc]
    rfl
  rw [tokensOf_append_of_isSpace hblank, tokensOf_bare hstart htail hhead, List.filter_cons] at h
  split_ifs at h with hkept
  · have hlength := congrArg List.length (List.cons.inj h).1
    rw [List.length_cons, List.length_cons, List.length_append] at hlength
    exact absurd (List.length_eq_zero_iff.mp (by omega)) hmore
  · have hflat := (flatten_sublist_flatten (List.filter_sublist (l := tokensOf t)
      (p := fun tok => !tok.isEmpty && !noise.contains tok))).trans (flatten_tokensOf_sublist t)
    rw [h, List.flatten_cons] at hflat
    refine eq_begin_of_noise (by simpa using hkept) fun c hc hquote => ?_
    have hle := (hflat.trans ht.sublist).count_le c
    have hsum := hcount c hc hquote
    rw [List.count_append] at hle hsum
    rw [← List.cons_append, List.count_append]
    omega

include hchars

theorem importsIn_run (hblank : ∀ c ∈ gap, isSpace c = true)
    (hstart : isImportStart first = true) (htail : ∀ c ∈ tail ++ more, isImportChar c = true)
    (hmore : more ≠ []) (hlast : ∀ c ∈ (first :: tail).getLast?, isWord c = true)
    (hbehind : ∀ c ∈ behind.head?, isImportChar c = false ∧ isWord c = false)
    (hcount : ∀ c : Char, isSpace c = false → c ≠ quote →
      (more ++ behind).count c = names.flatten.count c + "begin".toList.count c) :
    importsIn isWord (gap ++ (first :: (tail ++ more) ++ behind)) ≠ (first :: tail) :: names := by
  have hne : "begin".toList ≠ [] := by simp
  have hgapWord : ∀ c ∈ gap, isWord c = false := fun c hc => hchars.space c (hblank c hc)
  have hfind := findWord_gap hne (hchars.isWord (by simp)) hgapWord none
    (first :: (tail ++ more) ++ behind)
  have hrun : ∀ t, t <+: behind → (tokensOf (gap ++ (first :: (tail ++ more) ++ t))).filter
      (fun tok => !tok.isEmpty && !noise.contains tok) = (first :: tail) :: names →
        findWord isWord "begin".toList (gap.getLast?.or none)
          (first :: (tail ++ more) ++ behind) = some 0 := by
    intro t ht heq
    rw [eq_begin_of_run hblank hstart htail hmore (fun c hc => (hbehind c hc).1) hcount ht heq]
    exact findWord_self hne (any_getLast?_gap hgapWord) fun c hc => (hbehind c hc).2
  intro heq
  rw [importsIn] at heq
  cases hk : findWord isWord "begin".toList (gap.getLast?.or none)
      (first :: (tail ++ more) ++ behind) with
  | none =>
    rw [hk, Option.map_none] at hfind
    rw [cutAtBegin, hfind] at heq
    have hzero := hrun behind List.prefix_rfl heq
    rw [hk] at hzero
    cases hzero
  | some k =>
    have hcut : cutAtBegin isWord (gap ++ (first :: (tail ++ more) ++ behind)) =
        gap ++ (first :: (tail ++ more) ++ behind).take k := by
      rw [hk, Option.map_some] at hfind
      rw [cutAtBegin, hfind, Option.map_some, Option.getD_some, Nat.add_comm,
        List.take_length_add_append]
    rw [hcut] at heq
    by_cases hle : k ≤ (first :: (tail ++ more)).length
    · -- The run is cut off, and what is left of it would have to be the name.
      rw [List.take_append_of_le_length hle, tokensOf_append_of_isSpace hblank] at heq
      cases k with
      | zero => cases heq
      | succ k =>
        have hcutTail : ∀ c ∈ (tail ++ more).take k, isImportChar c = true :=
          fun c hc => htail c (List.mem_of_mem_take hc)
        have hone := tokensOf_bare hstart hcutTail (t := []) (by simp)
        rw [List.append_nil] at hone
        rw [List.take_succ_cons, hone] at heq
        have hfirst : first :: tail ∈ (first :: tail) :: names := List.mem_cons_self
        rw [← heq] at hfirst
        have hbefore := before_of_findWord hk
        rw [List.take_append_of_le_length hle, List.take_succ_cons,
          ← List.mem_singleton.mp (List.mem_filter.mp hfirst).1] at hbefore
        cases hl : (first :: tail).getLast? with
        | none => simp at hl
        | some c =>
          rw [hl, Option.some_or, Option.any_some, hlast c hl] at hbefore
          cases hbefore
    · have hlong : (first :: (tail ++ more) ++ behind).take k = first :: (tail ++ more) ++
          behind.take (k - (first :: (tail ++ more)).length) := by
        rw [List.take_append, List.take_of_length_le (by omega)]
      rw [hlong] at heq
      have hzero := hrun _ (List.take_prefix _ _) heq
      rw [hk, Option.some_inj] at hzero
      omega

end Run

include hchars

/-- A bare name that the next word follows at once is not found. -/
theorem importsIn_merged {gap name : Text} (hblank : ∀ c ∈ gap, isSpace c = true)
    (hname : (ImportName.bare name).OneToken) (hlast : ∀ c ∈ name.getLast?, isWord c = true)
    {ps : Pieces} (hgap : ∀ p ∈ ps, ∀ c ∈ p.1, isSpace c = true)
    (htoken : ∀ p ∈ ps, p.2.OneToken) {last : Text} (hspace : ∀ c ∈ last, isSpace c = true)
    (hhead : ∃ c ∈ (Pieces.text ps ++ (last ++ "begin".toList)).head?, isImportChar c = true) :
    importsIn isWord (gap ++ name ++ (Pieces.text ps ++ (last ++ "begin".toList))) ≠
      name :: Pieces.names ps := by
  have hcount : ∀ c : Char, isSpace c = false → c ≠ quote →
      (Pieces.text ps ++ (last ++ "begin".toList)).count c =
        (Pieces.names ps).flatten.count c + "begin".toList.count c := by
    intro c hc hquote
    rw [List.count_append, List.count_append, count_text ps hgap hc hquote,
      count_eq_zero_of_forall hspace hc, Nat.zero_add]
  have hstop := head_dropWhile_text hgap htoken hspace
  have hsplit := List.takeWhile_append_dropWhile (p := isImportChar)
    (l := Pieces.text ps ++ (last ++ "begin".toList))
  have hmore : (Pieces.text ps ++ (last ++ "begin".toList)).takeWhile isImportChar ≠ [] := by
    obtain ⟨c, hc, himport⟩ := hhead
    obtain ⟨u, hu⟩ := List.head?_eq_some_iff.mp hc
    rw [hu, List.takeWhile_cons_of_pos himport]
    exact List.cons_ne_nil _ _
  have hmoreChars : ∀ c ∈ (Pieces.text ps ++ (last ++ "begin".toList)).takeWhile isImportChar,
      isImportChar c = true := fun c hc => List.mem_takeWhile_imp hc
  generalize (Pieces.text ps ++ (last ++ "begin".toList)).takeWhile isImportChar = more
    at hsplit hmore hmoreChars
  generalize (Pieces.text ps ++ (last ++ "begin".toList)).dropWhile isImportChar = behind
    at hsplit hstop
  obtain ⟨first, tail, rfl⟩ := List.exists_cons_of_ne_nil (l := name) (by
    rintro rfl
    cases hname.1)
  have htail : ∀ c ∈ tail ++ more, isImportChar c = true := by
    intro c hc
    rcases List.mem_append.mp hc with hc | hc
    · exact hname.2 c (List.mem_cons_of_mem first hc)
    · exact hmoreChars c hc
  have hbehind : ∀ c ∈ behind.head?, isImportChar c = false ∧ isWord c = false := by
    intro c hc
    rcases hstop c hc with hc | rfl
    · exact ⟨isImportChar_of_isSpace hc, hchars.space c hc⟩
    · exact ⟨rfl, Pieces.isWord_quote hchars⟩
  have htext : gap ++ first :: tail ++ (more ++ behind) =
      gap ++ (first :: (tail ++ more) ++ behind) := by simp
  rw [← hsplit] at hcount ⊢
  rw [htext]
  exact importsIn_run hchars hblank hname.1 htail hmore hlast hbehind hcount

/-- Names that are found are apart and readable, and the last one is apart from `begin`. -/
theorem separated_of_importsIn {ps : Pieces} (hgap : ∀ p ∈ ps, ∀ c ∈ p.1, isSpace c = true)
    (hvalid : ∀ p ∈ ps, p.2.Valid) (htoken : ∀ p ∈ ps, p.2.OneToken) {last : Text}
    (hspace : ∀ c ∈ last, isSpace c = true)
    (h : importsIn isWord (Pieces.text ps ++ (last ++ "begin".toList)) = Pieces.names ps) :
    Pieces.Separated false ps ∧ (∀ p ∈ ps, p.2.Readable isWord) ∧
      (Pieces.endsBare false ps = true → last ≠ []) := by
  induction ps with
  | nil => exact ⟨trivial, fun p hp => absurd hp List.not_mem_nil, fun hends => by cases hends⟩
  | cons p ps ih =>
    obtain ⟨gap, i⟩ := p
    have hgap' : ∀ q ∈ ps, ∀ c ∈ q.1, isSpace c = true :=
      fun q hq => hgap q (List.mem_cons_of_mem _ hq)
    have htoken' : ∀ q ∈ ps, q.2.OneToken := fun q hq => htoken q (List.mem_cons_of_mem _ hq)
    have hi := htoken (gap, i) List.mem_cons_self
    have hquote : quote ∉ i.name := by
      have hi := hvalid (gap, i) List.mem_cons_self
      cases i with
      | bare name => exact fun hmem => (hi.2.2.1 quote hmem).2.1 rfl
      | quoted name => exact hi.2
    rw [Pieces.text_cons, List.append_assoc] at h
    -- What follows a bare name is no import character, or the name would go on.
    have hhead : i.isBare = true → ∀ c ∈ (Pieces.text ps ++ (last ++ "begin".toList)).head?,
        isImportChar c = false := by
      intro hbare c hc
      cases i with
      | quoted name => cases hbare
      | bare name =>
        rw [Bool.eq_false_iff]
        intro himport
        refine importsIn_merged hchars (hgap _ List.mem_cons_self) hi ?_ hgap' htoken' hspace
          ⟨c, hc, himport⟩ h
        intro d hd
        exact isWord_of_isImportChar (hi.2 d (List.mem_of_getLast? hd))
          ((hvalid _ List.mem_cons_self).2.2.2 d hd) hchars
    have hhead' : i.isBare = true → ∀ c ∈ (Pieces.text ps ++ (last ++ "begin".toList)).head?,
        isWord c = false ∧ isImportChar c = false := by
      intro hbare c hc
      have himport := hhead hbare c hc
      obtain ⟨u, hu⟩ := List.head?_eq_some_iff.mp hc
      have hstop := head_dropWhile_text hgap' htoken' hspace
      rw [hu, List.dropWhile_cons_of_neg (by rw [himport]; exact Bool.false_ne_true)] at hstop
      refine ⟨?_, himport⟩
      rcases hstop c rfl with hc | rfl
      · exact hchars.space c hc
      · exact Pieces.isWord_quote hchars
    obtain ⟨hreadable, hmore⟩ := readable_of_importsIn_cons hchars (hgap _ List.mem_cons_self) hi
      hquote hhead' h
    obtain ⟨hsep, hread, hlast⟩ := ih hgap' (fun q hq => hvalid q (List.mem_cons_of_mem _ hq))
      htoken' hmore
    refine ⟨⟨hgap _ List.mem_cons_self, fun hfalse => (by cases hfalse), ?_⟩,
      List.forall_mem_cons.mpr ⟨hreadable, hread⟩, ?_⟩
    · cases ps with
      | nil => trivial
      | cons q ps =>
        obtain ⟨hspaceq, -, hrest⟩ := hsep
        refine ⟨hspaceq, fun hbare hbareq hnil => ?_, hrest⟩
        obtain ⟨gapq, j⟩ := q
        obtain rfl : gapq = [] := hnil
        have hj := htoken' ([], j) List.mem_cons_self
        cases j with
        | quoted name => cases hbareq
        | bare name =>
          cases name with
          | nil => cases hj.1
          | cons c name =>
            have hc := hhead hbare c rfl
            rw [hj.2 c List.mem_cons_self] at hc
            cases hc
    · intro hends
      cases ps with
      | nil =>
        rintro rfl
        have hb := hhead hends 'b' rfl
        cases hb
      | cons q ps => exact hlast hends

/-- Where the imports are found, no word character follows the word `imports`: its `m` would be
lost to the word that is found. -/
theorem head_of_importsOf {gap t : Text} (hblank : ∀ c ∈ gap, isSpace c = true)
    {names : List Text} (hne : names ≠ []) (hcount : t.count 'm' = names.flatten.count 'm')
    (h : importsOf isWord (gap ++ ("imports".toList ++ t)) = names) :
    ∀ c ∈ t.head?, isWord c = false := by
  intro c hc
  by_contra hword
  rw [Bool.not_eq_false] at hword
  have hgapWord : ∀ d ∈ gap, isWord d = false := fun d hd => hchars.space d (hblank d hd)
  have hhere : ∀ b, findWord isWord "imports".toList b ("imports".toList ++ t) =
      ((findWord isWord "imports".toList (some 'm') ("ports".toList ++ t)).map (· + 1)).map
        (· + 1) := by
    intro b
    have hfirst : wordAt isWord "imports".toList b ("imports".toList ++ t) = false := by
      have hhead : (("imports".toList ++ t).drop "imports".toList.length).head?.any isWord =
          true := by
        rw [List.drop_left, Option.mem_def.mp hc, Option.any_some, hword]
      rw [wordAt, hhead, Bool.not_true, Bool.and_false]
    have hsecond : wordAt isWord "imports".toList (some 'i') ('m' :: ("ports".toList ++ t)) =
        false := by
      have hstarts : "imports".toList.isPrefixOf ('m' :: ("ports".toList ++ t)) = false := rfl
      rw [wordAt, hstarts, Bool.and_false, Bool.false_and]
    change findWord isWord "imports".toList b ('i' :: 'm' :: ("ports".toList ++ t)) = _
    rw [findWord, findWord, hsecond]
    change wordAt isWord "imports".toList b ('i' :: 'm' :: ("ports".toList ++ t)) = false at hfirst
    rw [hfirst]
    rfl
  have hne' : "imports".toList ≠ [] := by simp
  have hfind := findWord_gap hne' (hchars.isWord (by simp)) hgapWord none ("imports".toList ++ t)
  rw [hhere] at hfind
  rw [importsOf, hfind] at h
  cases hj : findWord isWord "imports".toList (some 'm') ("ports".toList ++ t) with
  | none =>
    rw [hj] at h
    exact hne h.symm
  | some j =>
    rw [hj] at h
    have hdrop : (gap ++ ("imports".toList ++ t)).drop (j + 1 + 1 + gap.length + 7) =
        ("ports".toList ++ t).drop (j + 7) := by
      have hadd : j + 1 + 1 + gap.length + 7 = gap.length + (j + 7 + 2) := by omega
      rw [hadd, List.drop_length_add_append]
      rfl
    have hfound : importsIn isWord (("ports".toList ++ t).drop (j + 7)) = names := by
      rw [← h]
      change _ = importsIn isWord
        ((gap ++ ("imports".toList ++ t)).drop (j + 1 + 1 + gap.length + 7))
      rw [hdrop]
    have hflat := flatten_importsIn_sublist isWord (("ports".toList ++ t).drop (j + 7))
    rw [hfound] at hflat
    have hle := ((hflat.append_left _).trans (findWord_sublist hj)).count_le 'm'
    have himports : "imports".toList.count 'm' = 1 := by decide
    have hports : "ports".toList.count 'm' = 0 := by decide
    rw [List.count_append, List.count_append, himports, hports] at hle
    omega

end Merged

end TheoryParsing
end IsabelleGym
