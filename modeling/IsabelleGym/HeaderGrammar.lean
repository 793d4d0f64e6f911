import IsabelleGym.HeaderStrip

/-!
# Headers of the grammar and how they are read

A header has a name, imports and at most two more sections before its `begin`, with
gaps between the tokens. Where the header is plain, its name and its imports are
read, and behind them what the token expression finds in the sections.
-/

namespace IsabelleGym
namespace TheoryParsing

open PythonStr

def headerWords : List Text :=
  ["theory", "imports", "keywords", "abbrevs", "begin"].map String.toList

namespace ImportName

/-- A bare name has no white space, quotes, parentheses or asterisks, is no word of the header and
does not end in a separator. -/
def Valid : ImportName → Prop
  | bare name => name ≠ [] ∧ name ∉ headerWords ∧
      (∀ c ∈ name, isSpace c = false ∧ c ≠ quote ∧ c ≠ '(' ∧ c ≠ ')' ∧ c ≠ '*') ∧
        ∀ c ∈ name.getLast?, c ∉ "./-".toList
  | quoted name => name ≠ [] ∧ quote ∉ name

theorem Valid.head_bare {name : Text} (h : (bare name).Valid) (t : Text) :
    ∀ c ∈ (name ++ t).head?, isSpace c = false ∧ c ≠ quote := by
  obtain ⟨hne, -, hchars, -⟩ := h
  obtain ⟨d, u, rfl⟩ := List.exists_cons_of_ne_nil hne
  intro c hc
  obtain rfl : d = c := by simpa using hc
  have hd := hchars d List.mem_cons_self
  exact ⟨hd.1, hd.2.1⟩

def token : ImportName → HeaderToken
  | bare name => .word name
  | quoted name => .quoted name

@[simp] theorem text_token (i : ImportName) : i.token.text = i.text := by cases i <;> rfl

end ImportName

namespace Pieces

def tokens (ps : Pieces) : HeaderTokens := ps.map fun p => (p.1, p.2.token)

def stripped (ps : Pieces) : Pieces := ps.map fun p => (stripTheoryComments 0 p.1, p.2)

theorem text_tokens (ps : Pieces) : (tokens ps).text = text ps := by
  induction ps with
  | nil => rfl
  | cons p ps ih =>
    rw [tokens, List.map_cons, HeaderTokens.text_cons, ← tokens, ih, ImportName.text_token,
      text_cons]

theorem names_stripped (ps : Pieces) : names (stripped ps) = names ps := by
  rw [names, names, stripped, List.map_map]
  rfl

theorem endsBare_stripped (bare : Bool) (ps : Pieces) :
    endsBare bare (stripped ps) = endsBare bare ps := by
  induction ps generalizing bare with
  | nil => rfl
  | cons p ps ih => exact ih _

theorem forall_mem_stripped {P : ImportName → Prop} {ps : Pieces} :
    (∀ p ∈ stripped ps, P p.2) ↔ ∀ p ∈ ps, P p.2 := List.forall_mem_map

end Pieces

namespace HeaderTokens

def stripped (ts : HeaderTokens) : HeaderTokens :=
  ts.map fun p => (stripTheoryComments 0 p.1, p.2)

theorem isGap_of_spaced {word : Bool} {ts : HeaderTokens} (h : Spaced word ts) :
    ∀ p ∈ ts, IsGap p.1 := by
  induction ts generalizing word with
  | nil => exact fun p hp => absurd hp List.not_mem_nil
  | cons p ts ih => exact List.forall_mem_cons.mpr ⟨h.1, ih h.2.2⟩

/-- Tokens in which no comment opens are left as they are, with the white space of the gaps. -/
theorem strip_text {ts : HeaderTokens} (h : ts.Closed)
    (hopens : ∀ p ∈ ts, opensComment p.2.text = false) (t : Text) :
    stripTheoryComments 0 (ts.text ++ t) = ts.stripped.text ++ stripTheoryComments 0 t := by
  induction ts with
  | nil => rfl
  | cons p ts ih =>
    obtain ⟨hgap, hlast⟩ := h p List.mem_cons_self
    have hrest := ih (fun q hq => h q (List.mem_cons_of_mem p hq))
      fun q hq => hopens q (List.mem_cons_of_mem p hq)
    rw [text_cons, List.append_assoc, List.append_assoc, hgap.strip_append,
      strip_append_of_not_opens (hopens p List.mem_cons_self) (fun c hc => (hlast c hc).1), hrest]
    simp only [stripped, List.map_cons, text_cons, List.append_assoc]

theorem stripped_tokens (ps : Pieces) : (ps.tokens).stripped = ps.stripped.tokens := by
  rw [stripped, Pieces.tokens, Pieces.tokens, Pieces.stripped, List.map_map, List.map_map]
  rfl

end HeaderTokens

/-- A token of a section: a word or a mark has no asterisk. -/
def HeaderToken.InSection (isWord : Char → Bool) (tok : HeaderToken) : Prop :=
  tok.Valid isWord ∧ (tok.isWordToken = true ∨ (∃ t, tok = .mark t) → '*' ∉ tok.text)

structure HeaderParts where
  lines : Text
  indent : Text
  nameGap : Text
  name : ImportName
  importsGap : Text
  imports : Pieces
  keywords : Option (Text × HeaderTokens)
  abbrevs : Option (Text × HeaderTokens)
  beginGap : Text

namespace HeaderParts

/-- A section behind its gap, or nothing. -/
def sectionTokens (word : Text) : Option (Text × HeaderTokens) → HeaderTokens
  | none => []
  | some (gap, ts) => (gap, .word word) :: ts

variable (h : HeaderParts)

def sections : HeaderTokens :=
  sectionTokens "keywords".toList h.keywords ++ sectionTokens "abbrevs".toList h.abbrevs

def rest : HeaderTokens := h.sections ++ [(h.beginGap, .word "begin".toList)]

def tokens : HeaderTokens :=
  (h.lines ++ h.indent, .word "theory".toList) :: (h.nameGap, h.name.token) ::
    (h.importsGap, .word "imports".toList) :: (h.imports.tokens ++ h.rest)

def text : Text := h.tokens.text

end HeaderParts

/-- A header of the grammar: gaps between the tokens, `theory` at the start of a line. -/
structure TheoryHeader (isWord : Char → Bool) extends HeaderParts where
  spaced : HeaderTokens.Spaced false toHeaderParts.tokens
  lines_lineStart : lines = [] ∨ ∃ gap, IsGap gap ∧ lines = gap ++ ['\n']
  indent_blank : ∀ c ∈ indent, c = ' ' ∨ c = '\t'
  name_valid : name.Valid
  imports_ne_nil : imports ≠ []
  imports_valid : ∀ p ∈ imports, p.2.Valid
  sections_valid : ∀ p ∈ toHeaderParts.sections, p.2.InSection isWord

namespace TheoryHeader

variable {isWord : Char → Bool} (h : TheoryHeader isWord)

/-- The header with a body is read as its name and its imports. -/
def ReadExactly (body : Text) : Prop :=
  parseTheoryHeader isWord (h.text ++ body) = (some h.name.name, h.imports.names)

/-- The name is read whole, and so far. -/
def NameRead : ImportName → Text → Prop
  | .bare name, gap => (∀ c ∈ name, isNameChar c = true) ∧ stripTheoryComments 0 gap ≠ []
  | .quoted name, _ => '\n' ∉ name

/-- No comment opens in a quoted name, the names are all readable, and the gaps between words are
not lost with their comments. -/
structure Plain : Prop where
  nameGap : stripTheoryComments 0 h.nameGap ≠ []
  name_read : NameRead h.name h.importsGap
  name_closed : opensComment h.name.text = false
  imports_closed : ∀ p ∈ h.imports, opensComment p.2.text = false
  separated : Pieces.Separated true h.imports.stripped
  readable : ∀ p ∈ h.imports, p.2.Readable isWord
  restGap : Pieces.endsBare true h.imports = true →
    ∀ p ∈ h.rest.head?, stripTheoryComments 0 p.1 ≠ []

/-- Behind the imports the token expression finds nothing but words of the header up to the first
word `begin`. -/
def Quiet (body : Text) : Prop :=
  ∀ tok ∈ tokensOf (cutAtBegin isWord (stripTheoryComments 0 (h.rest.text ++ body))),
    tok ∈ noise

section Parts

/-- The tokens up to the last of the imports. -/
def front : HeaderTokens :=
  (h.lines ++ h.indent, .word "theory".toList) :: (h.nameGap, h.name.token) ::
    (h.importsGap, .word "imports".toList) :: h.imports.tokens

theorem tokens_eq : h.tokens = h.front ++ h.rest := rfl

theorem text_eq (body : Text) : h.text ++ body = h.front.text ++ (h.rest.text ++ body) := by
  rw [HeaderParts.text, tokens_eq, HeaderTokens.text, List.flatMap_append, List.append_assoc]
  rfl

theorem last_token {i : ImportName} (hi : i.Valid) :
    ∀ c ∈ i.token.text.getLast?, c ≠ '(' ∧ c ≠ '*' := by
  intro c hc
  rw [ImportName.text_token] at hc
  cases i with
  | bare name =>
    obtain ⟨-, -, hchars, -⟩ := hi
    have hmem := hchars c (List.mem_of_getLast? hc)
    exact ⟨hmem.2.2.1, hmem.2.2.2.2⟩
  | quoted name =>
    rw [ImportName.text, ← List.cons_append, List.getLast?_concat] at hc
    obtain rfl : quote = c := by simpa using hc
    decide

theorem isGap_front : ∀ p ∈ h.front, IsGap p.1 := by
  intro p hp
  refine HeaderTokens.isGap_of_spaced h.spaced p ?_
  rw [tokens_eq]
  exact List.mem_append_left _ hp

theorem closed_front : h.front.Closed := by
  intro p hp
  refine ⟨h.isGap_front p hp, ?_⟩
  rcases List.mem_cons.mp hp with rfl | hp
  · simp [HeaderToken.text]
  rcases List.mem_cons.mp hp with rfl | hp
  · exact last_token h.name_valid
  rcases List.mem_cons.mp hp with rfl | hp
  · simp [HeaderToken.text]
  · obtain ⟨q, hq, rfl⟩ := List.mem_map.mp hp
    exact last_token (h.imports_valid q hq)

/-- What is behind the name once the comments are gone. -/
def afterName (t : Text) : Text :=
  stripTheoryComments 0 h.importsGap ++ ("imports".toList ++ (Pieces.text h.imports.stripped ++ t))

def afterTheory (t : Text) : Text :=
  stripTheoryComments 0 h.nameGap ++ (h.name.text ++ h.afterName t)

theorem opens_front (hname : opensComment h.name.text = false)
    (himports : ∀ p ∈ h.imports, opensComment p.2.text = false) :
    ∀ p ∈ h.front, opensComment p.2.text = false := by
  intro p hp
  rcases List.mem_cons.mp hp with rfl | hp
  · exact opensComment_of_not_mem (by simp [HeaderToken.text])
  rcases List.mem_cons.mp hp with rfl | hp
  · rwa [ImportName.text_token]
  rcases List.mem_cons.mp hp with rfl | hp
  · exact opensComment_of_not_mem (by simp [HeaderToken.text])
  · obtain ⟨q, hq, rfl⟩ := List.mem_map.mp hp
    rw [ImportName.text_token]
    exact himports q hq

theorem strip_text (hname : opensComment h.name.text = false)
    (himports : ∀ p ∈ h.imports, opensComment p.2.text = false) (t : Text) :
    stripTheoryComments 0 (h.front.text ++ t) =
      stripTheoryComments 0 (h.lines ++ h.indent) ++
        ("theory".toList ++ h.afterTheory (stripTheoryComments 0 t)) := by
  rw [HeaderTokens.strip_text h.closed_front (h.opens_front hname himports), front,
    HeaderTokens.stripped, List.map_cons, List.map_cons, List.map_cons, ← HeaderTokens.stripped,
    HeaderTokens.stripped_tokens, HeaderTokens.text_cons, HeaderTokens.text_cons,
    HeaderTokens.text_cons, Pieces.text_tokens, ImportName.text_token, afterTheory, afterName]
  simp only [List.append_assoc, HeaderToken.text]

end Parts

section Line

theorem theoryNameAt_of_head {t : Text} (ht : ∀ c ∈ t.head?, isSpace c = false) :
    theoryNameAt ("theory".toList ++ t) = none := by
  have hdrop : (("theory".toList ++ t).dropWhile fun c => c = ' ' || c = '\t').drop 6 = t := by
    change t.drop 0 = t
    rw [List.drop_zero]
  have hnamed : t.dropWhile isSpace = t := by
    cases t with
    | nil => rfl
    | cons c t => rw [List.dropWhile_cons_of_neg (by simpa using ht c rfl)]
  rw [theoryNameAt]
  dsimp only
  rw [hdrop, hnamed]
  simp

/-- A quoted name is read unless it has a line break. -/
theorem theoryNameAt_quoted {gap name : Text} (hne : gap ≠ [])
    (hgap : ∀ c ∈ gap, isSpace c = true) (hname : name ≠ []) (hquote : quote ∉ name) (t : Text) :
    theoryNameAt ("theory".toList ++ (gap ++ quote :: (name ++ quote :: t))) =
      if '\n' ∈ name then none else some name := by
  have hnamed := named_gap hgap (t := quote :: (name ++ quote :: t)) fun c hc => by
    obtain rfl : quote = c := by simpa using hc
    rfl
  have hrest : (("theory".toList ++ (gap ++ quote :: (name ++ quote :: t))).dropWhile
      fun c => c = ' ' || c = '\t').drop 6 = gap ++ quote :: (name ++ quote :: t) := by
    change (gap ++ quote :: (name ++ quote :: t)).drop 0 = _
    rw [List.drop_zero]
  have hstarts : (!"theory".toList.isPrefixOf
      (("theory".toList ++ (gap ++ quote :: (name ++ quote :: t))).dropWhile
        fun c => c = ' ' || c = '\t')) = false := rfl
  have hlength : ¬ (quote :: (name ++ quote :: t)).length =
      (gap ++ quote :: (name ++ quote :: t)).length := by
    have := List.length_pos_of_ne_nil hne
    rw [List.length_append]
    omega
  rw [theoryNameAt]
  dsimp only
  rw [hnamed, hrest, hstarts, Bool.false_or, if_neg (by simpa using hlength), List.head?_cons,
    if_pos rfl, List.tail_cons]
  by_cases hnl : '\n' ∈ name
  · obtain ⟨a, b, hsplit, ha⟩ := List.eq_append_cons_of_mem hnl
    have htake : (name ++ quote :: t).takeWhile (fun c => c ≠ quote && c ≠ '\n') = a := by
      rw [hsplit, List.append_assoc]
      refine takeWhile_append_stop (fun c hc => ?_) fun c hc => ?_
      · have hcq : c ≠ quote := by
          rintro rfl
          exact hquote (by rw [hsplit]; exact List.mem_append_left _ hc)
        have hcn : c ≠ '\n' := by
          rintro rfl
          exact ha hc
        simp [hcq, hcn]
      · obtain rfl : '\n' = c := by simpa using hc
        simp
    have hhead : (((name ++ quote :: t).drop a.length).head?) = some '\n' := by
      rw [hsplit, List.append_assoc, List.drop_left]
      rfl
    rw [htake, hhead, if_pos hnl, if_pos (by simp [quote])]
  · have htake : (name ++ quote :: t).takeWhile (fun c => c ≠ quote && c ≠ '\n') = name := by
      refine takeWhile_append_stop (fun c hc => ?_) fun c hc => ?_
      · have hcq : c ≠ quote := by
          rintro rfl
          exact hquote hc
        have hcn : c ≠ '\n' := by
          rintro rfl
          exact hnl hc
        simp [hcq, hcn]
      · obtain rfl : quote = c := by simpa using hc
        simp
    rw [htake, List.drop_left, if_neg hnl, if_neg (by simp [hname])]

theorem afterTheoryName_quoted {gap name : Text} (hgap : ∀ c ∈ gap, isSpace c = true)
    (hquote : quote ∉ name) (t : Text) :
    afterTheoryName ("theory".toList ++ (gap ++ quote :: (name ++ quote :: t))) = t := by
  have hnamed := named_gap hgap (t := quote :: (name ++ quote :: t)) fun c hc => by
    obtain rfl : quote = c := by simpa using hc
    rfl
  have hdrop : (name ++ quote :: t).dropWhile (fun c => decide (c ≠ quote)) = quote :: t := by
    refine dropWhile_append_stop (fun c hc => decide_eq_true ?_) fun c hc => ?_
    · rintro rfl
      exact hquote hc
    · obtain rfl : quote = c := by simpa using hc
      simp
  rw [afterTheoryName, hnamed, List.head?_cons, if_pos rfl, List.tail_cons, hdrop, List.tail_cons]

/-- White space in front of a line break holds no header. -/
theorem searchTheoryLine_lines {s : Text} (hs : ∀ c ∈ s, isSpace c = true) (lineStart : Bool)
    (t : Text) : searchTheoryLine lineStart (s ++ '\n' :: t) = searchTheoryLine true t := by
  have hat : ∀ u : Text, (∀ c ∈ u, isSpace c = true) → theoryNameAt (u ++ '\n' :: t) = none := by
    intro u hu
    have hhead : ∃ c v, (u ++ '\n' :: t).dropWhile (fun c => c = ' ' || c = '\t') = c :: v ∧
        isSpace c = true := by
      induction u with
      | nil => exact ⟨'\n', t, rfl, rfl⟩
      | cons d u ih =>
        rw [List.cons_append, List.dropWhile_cons]
        split_ifs
        · exact ih fun c hc => hu c (List.mem_cons_of_mem d hc)
        · exact ⟨d, _, rfl, hu d List.mem_cons_self⟩
    obtain ⟨c, v, hdrop, hc⟩ := hhead
    have hstarts : "theory".toList.isPrefixOf (c :: v) = false := by
      have hne : ('t' == c) = false := by
        rw [beq_eq_false_iff_ne]
        rintro rfl
        cases hc
      change (('t' == c) && _) = false
      rw [hne, Bool.false_and]
    rw [theoryNameAt]
    dsimp only
    rw [hdrop, hstarts]
    simp
  induction s generalizing lineStart with
  | nil =>
    have hnone := hat [] (by simp)
    rw [List.nil_append] at hnone ⊢
    rw [searchTheoryLine, hnone, decide_eq_true rfl]
    cases lineStart <;> rfl
  | cons c s ih =>
    have hnone := hat (c :: s) hs
    rw [List.cons_append] at hnone ⊢
    rw [searchTheoryLine, hnone, ih fun d hd => hs d (List.mem_cons_of_mem c hd)]
    cases lineStart <;> rfl

theorem theoryNameAt_indent {indent : Text} (h : ∀ c ∈ indent, c = ' ' ∨ c = '\t') (t : Text) :
    theoryNameAt (indent ++ t) = theoryNameAt t ∧
      afterTheoryName (indent ++ t) = afterTheoryName t := by
  have hdrop : (indent ++ t).dropWhile (fun c => c = ' ' || c = '\t') =
      t.dropWhile fun c => c = ' ' || c = '\t' :=
    List.dropWhile_append_of_pos fun c hc => by simpa using h c hc
  rw [theoryNameAt, theoryNameAt, afterTheoryName, afterTheoryName, hdrop]
  exact ⟨rfl, rfl⟩

/-- At the line of the header the header is read, or else it is looked for behind `theory`. -/
theorem searchTheoryLine_indent {indent : Text} (h : ∀ c ∈ indent, c = ' ' ∨ c = '\t') (t : Text) :
    searchTheoryLine true (indent ++ ("theory".toList ++ t)) =
      ((theoryNameAt ("theory".toList ++ t)).map fun name =>
        (name, afterTheoryName ("theory".toList ++ t))).or
          (searchTheoryLine false ("heory".toList ++ t)) := by
  have hskip : ∀ indent : Text, (∀ c ∈ indent, c = ' ' ∨ c = '\t') →
      searchTheoryLine false (indent ++ ("theory".toList ++ t)) =
        searchTheoryLine false ("heory".toList ++ t) := by
    intro indent h
    induction indent with
    | nil => rfl
    | cons c indent ih =>
      have hc : decide (c = '\n') = false := by
        rcases h c List.mem_cons_self with rfl | rfl <;> rfl
      rw [List.cons_append, searchTheoryLine, hc, ih fun d hd => h d (List.mem_cons_of_mem c hd)]
      rfl
  cases indent with
  | nil => rfl
  | cons c indent =>
    have hc : decide (c = '\n') = false := by
      rcases h c List.mem_cons_self with rfl | rfl <;> rfl
    obtain ⟨hname, hafter⟩ := theoryNameAt_indent h ("theory".toList ++ t)
    rw [List.cons_append] at hname hafter ⊢
    rw [searchTheoryLine, hc, hname, hafter, if_pos rfl,
      hskip indent fun d hd => h d (List.mem_cons_of_mem c hd)]

theorem isNameChar_of_isSpace {c : Char} (h : isSpace c = true) : isNameChar c = false := by
  have hbound := toNat_of_isSpace h
  rw [isNameChar, Bool.or_eq_false_iff]
  constructor
  · rw [Bool.eq_false_iff]
    intro halpha
    have := toNat_of_isAlphanum halpha
    omega
  · rw [Bool.eq_false_iff]
    intro hmem
    have hc : c = '_' ∨ c = Char.ofNat 39 ∨ c = '.' ∨ c = '-' := by simpa using hmem
    rcases hc with rfl | rfl | rfl | rfl <;> cases h

theorem takeWhile_append_eq_iff {p : Char → Bool} {a b : Text} :
    (a ++ b).takeWhile p = a ↔ (∀ c ∈ a, p c = true) ∧ ∀ c ∈ b.head?, p c = false := by
  constructor
  · intro h
    have hall : ∀ c ∈ a, p c = true := fun c hc => by
      rw [← h] at hc
      exact List.mem_takeWhile_imp hc
    refine ⟨hall, fun c hc => ?_⟩
    rw [List.takeWhile_append_of_pos hall, List.append_right_eq_self] at h
    obtain ⟨u, rfl⟩ := List.head?_eq_some_iff.mp hc
    rw [List.takeWhile_cons] at h
    split_ifs at h with hpc
    exact Bool.eq_false_iff.mpr hpc
  · rintro ⟨hall, hhead⟩
    exact takeWhile_append_stop hall hhead

/-- The lines in front hold no header. -/
theorem searchTheoryLine_lead (t : Text) :
    searchTheoryLine true (stripTheoryComments 0 (h.lines ++ h.indent) ++ ("theory".toList ++ t)) =
      ((theoryNameAt ("theory".toList ++ t)).map fun name =>
        (name, afterTheoryName ("theory".toList ++ t))).or
          (searchTheoryLine false ("heory".toList ++ t)) := by
  have hindent : stripTheoryComments 0 h.indent = h.indent := by
    have hopen : '(' ∉ h.indent := fun hmem => by
      rcases h.indent_blank '(' hmem with heq | heq <;> cases heq
    have hstrip := strip_append_of_not_opens (opensComment_of_not_mem hopen)
      (fun c hc heq => hopen (by rw [← heq]; exact List.mem_of_getLast? hc)) []
    rwa [List.append_nil, stripTheoryComments, List.append_nil] at hstrip
  rcases h.lines_lineStart with hlines | ⟨gap, hgap, hlines⟩
  · rw [hlines, List.nil_append, hindent]
    exact searchTheoryLine_indent h.indent_blank t
  · have hstrip : stripTheoryComments 0 (h.lines ++ h.indent) =
        stripTheoryComments 0 gap ++ '\n' :: h.indent := by
      rw [hlines, List.append_assoc, hgap.strip_append, List.singleton_append,
        strip_zero_cons (by rintro ⟨⟨⟩, -⟩), hindent]
    rw [hstrip, List.append_assoc, List.cons_append,
      searchTheoryLine_lines (hgap.isSpace_strip 0)]
    exact searchTheoryLine_indent h.indent_blank t

theorem isSpace_nameGap : ∀ c ∈ stripTheoryComments 0 h.nameGap, isSpace c = true :=
  (h.isGap_front _ (List.mem_cons_of_mem _ List.mem_cons_self)).isSpace_strip 0

theorem isSpace_importsGap : ∀ c ∈ stripTheoryComments 0 h.importsGap, isSpace c = true :=
  (h.isGap_front _
    (List.mem_cons_of_mem _ (List.mem_cons_of_mem _ List.mem_cons_self))).isSpace_strip 0

/-- What is behind a name goes on with no character of a name where the gap leaves something. -/
theorem head_afterName_iff (t : Text) :
    (∀ c ∈ (h.afterName t).head?, isNameChar c = false) ↔
      stripTheoryComments 0 h.importsGap ≠ [] := by
  rw [afterName]
  have hspace := h.isSpace_importsGap
  cases hgap : stripTheoryComments 0 h.importsGap with
  | nil =>
    refine iff_of_false (fun hall => ?_) (by simp)
    exact absurd (hall 'i' rfl) (by decide)
  | cons c gap =>
    rw [hgap] at hspace
    refine iff_of_true (fun d hd => ?_) (by simp)
    obtain rfl : c = d := by simpa using hd
    exact isNameChar_of_isSpace (hspace c List.mem_cons_self)

/-- The name is read at its line exactly when a gap is left behind `theory` and the name is read
whole. -/
theorem theoryNameAt_iff (t : Text) :
    theoryNameAt ("theory".toList ++ h.afterTheory t) = some h.name.name ↔
      stripTheoryComments 0 h.nameGap ≠ [] ∧ NameRead h.name h.importsGap := by
  have hspace := h.isSpace_nameGap
  have hvalid := h.name_valid
  rw [afterTheory]
  cases hname : h.name with
  | bare name =>
    rw [hname] at hvalid
    have hne := hvalid.1
    have hhead := hvalid.head_bare (h.afterName t)
    by_cases hgap : stripTheoryComments 0 h.nameGap = []
    · rw [hgap, List.nil_append]
      change theoryNameAt ("theory".toList ++ (name ++ h.afterName t)) = some name ↔ _
      rw [theoryNameAt_of_head fun c hc => (hhead c hc).1]
      exact iff_of_false (by simp) fun hand => hand.1 rfl
    · have hread := theoryNameAt_bare hgap hspace hhead
      change theoryNameAt ("theory".toList ++ (stripTheoryComments 0 h.nameGap ++
        (name ++ h.afterName t))) = some name ↔ _
      have hiff : theoryNameAt ("theory".toList ++ (stripTheoryComments 0 h.nameGap ++
          (name ++ h.afterName t))) = some name ↔
            (name ++ h.afterName t).takeWhile isNameChar = name := by
        rw [hread]
        constructor
        · intro heq
          split_ifs at heq
          exact Option.some.inj heq
        · intro heq
          rw [heq, if_neg (by simpa using hne)]
      rw [hiff, takeWhile_append_eq_iff, h.head_afterName_iff]
      exact ⟨fun hand => ⟨hgap, hand⟩, fun hand => hand.2⟩
  | quoted name =>
    rw [hname] at hvalid
    obtain ⟨hne, hquote⟩ := hvalid
    have htext : (ImportName.quoted name).text ++ h.afterName t =
        quote :: (name ++ quote :: h.afterName t) := by simp [ImportName.text]
    rw [htext]
    by_cases hgap : stripTheoryComments 0 h.nameGap = []
    · rw [hgap, List.nil_append, theoryNameAt_of_head fun c hc => ?_]
      · exact iff_of_false (by simp) fun hand => hand.1 rfl
      · obtain rfl : quote = c := by simpa using hc
        rfl
    · rw [theoryNameAt_quoted hgap hspace hne hquote]
      change (if '\n' ∈ name then none else some name) = some name ↔ _ ∧ '\n' ∉ name
      split_ifs with hnl <;> simp [hnl, hgap]

theorem afterTheoryName_eq (hread : NameRead h.name h.importsGap) (t : Text) :
    afterTheoryName ("theory".toList ++ h.afterTheory t) = h.afterName t := by
  have hspace := h.isSpace_nameGap
  have hvalid := h.name_valid
  rw [afterTheory]
  cases hname : h.name with
  | bare name =>
    rw [hname] at hvalid hread
    exact (afterTheoryName_bare hspace (hvalid.head_bare (h.afterName t))).trans
      (dropWhile_append_stop hread.1 ((h.head_afterName_iff t).mpr hread.2))
  | quoted name =>
    rw [hname] at hvalid
    have htext : (ImportName.quoted name).text ++ h.afterName t =
        quote :: (name ++ quote :: h.afterName t) := by simp [ImportName.text]
    rw [htext]
    exact afterTheoryName_quoted hspace hvalid.2 _

end Line

section Plain

/-- What is behind the last import starts with white space where a gap is left. -/
theorem head_rest {body : Text} (hrest : ∀ p ∈ h.rest.head?, stripTheoryComments 0 p.1 ≠ []) :
    ∀ c ∈ (stripTheoryComments 0 (h.rest.text ++ body)).head?, isSpace c = true := by
  obtain ⟨p, ts, hts⟩ : ∃ p ts, h.rest = p :: ts :=
    List.exists_cons_of_ne_nil (by simp [HeaderParts.rest])
  have hgap : IsGap p.1 := by
    refine HeaderTokens.isGap_of_spaced h.spaced p ?_
    rw [tokens_eq, hts]
    exact List.mem_append_right _ List.mem_cons_self
  intro c hc
  rw [hts, HeaderTokens.text_cons, List.append_assoc, List.append_assoc, hgap.strip_append] at hc
  obtain ⟨d, u, hd⟩ := List.exists_cons_of_ne_nil (hrest p (by rw [hts]; rfl))
  rw [hd] at hc
  obtain rfl : d = c := by simpa using hc
  exact hgap.isSpace_strip 0 d (by rw [hd]; exact List.mem_cons_self)

/-- Of a plain header the name and the imports are read, with what is found behind them. -/
theorem Plain.parse (hchars : WordChars isWord) (hplain : h.Plain) (body : Text) :
    parseTheoryHeader isWord (h.text ++ body) = (some h.name.name, h.imports.names ++
      importsIn isWord (stripTheoryComments 0 (h.rest.text ++ body))) := by
  have hread := (h.theoryNameAt_iff (stripTheoryComments 0 (h.rest.text ++ body))).mpr
    ⟨hplain.nameGap, hplain.name_read⟩
  have hends : Pieces.endsBare true h.imports.stripped = true →
      ∀ c ∈ (stripTheoryComments 0 (h.rest.text ++ body)).head?,
        isWord c = false ∧ isImportChar c = false := by
    intro hbare c hc
    rw [Pieces.endsBare_stripped] at hbare
    have hspace := h.head_rest (hplain.restGap hbare) c hc
    exact ⟨hchars.space c hspace, isImportChar_of_isSpace hspace⟩
  have hhead : ∀ c ∈ (Pieces.text h.imports.stripped ++
      stripTheoryComments 0 (h.rest.text ++ body)).head?, isWord c = false :=
    Pieces.head_text hchars.space (Pieces.isWord_quote hchars) hplain.separated fun hnil =>
      absurd (List.map_eq_nil_iff.mp hnil) h.imports_ne_nil
  rw [parseTheoryHeader, text_eq, h.strip_text hplain.name_closed hplain.imports_closed,
    searchTheoryLine_lead, hread, Option.map_some, Option.some_or,
    h.afterTheoryName_eq hplain.name_read]
  dsimp only
  rw [afterName, importsOf_gap hchars h.isSpace_importsGap hhead,
    importsIn_text hchars (Pieces.forall_mem_stripped.mpr hplain.readable) hplain.separated hends,
    Pieces.names_stripped]

/-- A token that is kept is none of the words of the header. -/
theorem importsIn_eq_nil_iff (t : Text) :
    importsIn isWord t = [] ↔ ∀ tok ∈ tokensOf (cutAtBegin isWord t), tok ∈ noise := by
  rw [importsIn, List.filter_eq_nil_iff]
  refine forall₂_congr fun tok htok => ?_
  have hne : tok.isEmpty = false := List.isEmpty_eq_false_iff.mpr (ne_nil_of_mem_tokensOf htok)
  rw [hne, Bool.not_false, Bool.true_and, Bool.not_eq_true, Bool.not_eq_false',
    List.contains_iff_mem]

theorem Plain.readExactly_iff_quiet (hchars : WordChars isWord) (hplain : h.Plain) (body : Text) :
    h.ReadExactly body ↔ h.Quiet body := by
  rw [ReadExactly, hplain.parse h hchars, Prod.mk.injEq, List.append_right_eq_self,
    importsIn_eq_nil_iff]
  exact and_iff_right rfl

end Plain

end TheoryHeader

end TheoryParsing
end IsabelleGym
