import IsabelleGym.HeaderReading

/-!
# Which headers are read exactly

Of a header without more sections no character is to spare: what is read holds all
characters of its name, its imports and its words, so nothing of it was lost in a
comment or read at another place.
-/

namespace IsabelleGym
namespace TheoryParsing

open PythonStr

namespace TheoryHeader

variable {isWord : Char → Bool} (h : TheoryHeader isWord)

theorem exists_search {body : Text} (hread : h.ReadExactly body) :
    ∃ rest, searchTheoryLine true (stripTheoryComments 0 (h.text ++ body)) =
      some (h.name.name, rest) ∧ importsOf isWord rest = h.imports.names := by
  rw [ReadExactly, parseTheoryHeader] at hread
  cases hsearch : searchTheoryLine true (stripTheoryComments 0 (h.text ++ body)) with
  | none =>
    rw [hsearch] at hread
    cases (Prod.mk.inj hread).1
  | some found =>
    rw [hsearch] at hread
    obtain ⟨hname, himports⟩ := Prod.mk.inj hread
    exact ⟨found.2, by rw [← Option.some.inj hname], himports⟩

theorem names_ne_nil : h.imports.names ≠ [] := fun hnil =>
  h.imports_ne_nil (List.map_eq_nil_iff.mp hnil)

/-- What is read stands in the text that is searched. -/
theorem read_sublist {t rest : Text} {lineStart : Bool}
    (hsearch : searchTheoryLine lineStart t = some (h.name.name, rest))
    (himports : importsOf isWord rest = h.imports.names) :
    ("theory".toList ++ (h.name.name ++ ("imports".toList ++ h.imports.names.flatten))).Sublist
      t := by
  have hsub : ("imports".toList ++ (importsOf isWord rest).flatten).Sublist rest :=
    importsOf_sublist (by rw [himports]; exact h.names_ne_nil)
  rw [himports] at hsub
  exact ((hsub.append_left _).append_left _).trans (searchTheoryLine_sublist hsearch)

section NoSections

variable (hsections : h.sections = [])

include hsections

theorem rest_eq : h.rest = [(h.beginGap, .word "begin".toList)] := by
  rw [HeaderParts.rest, hsections, List.nil_append]

theorem closed_tokens : h.tokens.Closed := by
  intro p hp
  have hgap := HeaderTokens.isGap_of_spaced h.spaced p hp
  rw [tokens_eq] at hp
  rcases List.mem_append.mp hp with hp | hp
  · exact h.closed_front p hp
  · refine ⟨hgap, ?_⟩
    rw [h.rest_eq hsections, List.mem_singleton] at hp
    subst hp
    simp [HeaderToken.text]

theorem tokenCount_tokens {c : Char} (hquote : c ≠ quote) :
    h.tokens.tokenCount c = "theory".toList.count c + (h.name.name.count c +
      ("imports".toList.count c + (h.imports.names.flatten.count c + "begin".toList.count c))) := by
  have htext : ∀ i : ImportName, i.token.text.count c = i.name.count c := by
    intro i
    rw [ImportName.text_token, i.count_text hquote]
  have himports : ∀ ps : Pieces, (Pieces.tokens ps).tokenCount c =
      (Pieces.names ps).flatten.count c := by
    intro ps
    induction ps with
    | nil => rfl
    | cons p ps ih =>
      rw [Pieces.tokens, List.map_cons, HeaderTokens.tokenCount, List.flatMap_cons,
        List.count_append, ← HeaderTokens.tokenCount, ← Pieces.tokens, ih, htext,
        ← List.count_append]
      rfl
  have hrest : h.tokens.tokenCount c = "theory".toList.count c + (h.name.token.text.count c +
      ("imports".toList.count c + (h.imports.tokens.tokenCount c + h.rest.tokenCount c))) := by
    rw [tokens_eq, front, HeaderTokens.tokenCount, List.flatMap_append, List.count_append,
      List.flatMap_cons, List.flatMap_cons, List.flatMap_cons, List.count_append,
      List.count_append, List.count_append]
    simp only [HeaderTokens.tokenCount, HeaderToken.text, Nat.add_assoc]
  rw [hrest, htext, himports, h.rest_eq hsections]
  rfl

/-- Where a comment opens in a name, an asterisk of a name is lost and cannot be read. -/
theorem closed_of_readExactly (hread : h.ReadExactly []) :
    opensComment h.name.text = false ∧ ∀ p ∈ h.imports, opensComment p.2.text = false := by
  obtain ⟨rest, hsearch, himports⟩ := h.exists_search hread
  rw [List.append_nil] at hsearch
  have hle := (h.read_sublist hsearch himports).count_le '*'
  have htheory : "theory".toList.count '*' = 0 := by decide
  have himportsWord : "imports".toList.count '*' = 0 := by decide
  have hbegin : "begin".toList.count '*' = 0 := by decide
  have hnone : ¬ ∃ p ∈ h.tokens, opensComment p.2.text = true := by
    intro hopens
    have hlt := HeaderTokens.count_strip_lt (h.closed_tokens hsections) hopens
    rw [h.tokenCount_tokens hsections (by decide), htheory, himportsWord, hbegin] at hlt
    rw [List.count_append, List.count_append, List.count_append, htheory, himportsWord] at hle
    rw [HeaderParts.text] at hle
    omega
  push Not at hnone
  have hclosed : ∀ p ∈ h.front, opensComment p.2.text = false := by
    intro p hp
    rw [← Bool.not_eq_true]
    exact hnone p (by rw [tokens_eq]; exact List.mem_append_left _ hp)
  refine ⟨?_, fun p hp => ?_⟩
  · rw [← ImportName.text_token]
    exact hclosed (h.nameGap, h.name.token) (List.mem_cons_of_mem _ List.mem_cons_self)
  · rw [← ImportName.text_token]
    exact hclosed (p.1, p.2.token) (List.mem_cons_of_mem _ (List.mem_cons_of_mem _
      (List.mem_cons_of_mem _ (List.mem_map.mpr ⟨p, hp, rfl⟩))))

theorem isGap_beginGap : IsGap h.beginGap := by
  refine HeaderTokens.isGap_of_spaced h.spaced (h.beginGap, .word "begin".toList) ?_
  rw [tokens_eq, h.rest_eq hsections]
  exact List.mem_append_right _ List.mem_cons_self

omit hsections in
theorem isSpace_stripped : ∀ p ∈ h.imports.stripped, ∀ c ∈ p.1, isSpace c = true := by
  intro p hp
  obtain ⟨q, hq, rfl⟩ := List.mem_map.mp hp
  refine (h.isGap_front (q.1, q.2.token) ?_).isSpace_strip 0
  exact List.mem_cons_of_mem _ (List.mem_cons_of_mem _ (List.mem_cons_of_mem _
    (List.mem_map.mpr ⟨q, hq, rfl⟩)))

omit hsections in
theorem count_afterTheory {c : Char} (hc : isSpace c = false) (hquote : c ≠ quote) (t : Text) :
    (h.afterTheory t).count c = h.name.name.count c + ("imports".toList.count c +
      (h.imports.names.flatten.count c + t.count c)) := by
  rw [afterTheory, afterName, List.count_append, List.count_append, List.count_append,
    List.count_append, List.count_append, count_eq_zero_of_forall h.isSpace_nameGap hc,
    count_eq_zero_of_forall h.isSpace_importsGap hc, h.name.count_text hquote,
    count_text _ h.isSpace_stripped hc hquote, Pieces.names_stripped, Nat.zero_add, Nat.zero_add]

omit hsections in
/-- The imports that are found behind the name are apart and readable. -/
theorem separated_of_importsOf (hchars : WordChars isWord) {last : Text}
    (hlast : ∀ c ∈ last, isSpace c = true)
    (himports : importsOf isWord (stripTheoryComments 0 h.importsGap ++ ("imports".toList ++
      (Pieces.text h.imports.stripped ++ (last ++ "begin".toList)))) = h.imports.names) :
    Pieces.Separated true h.imports.stripped ∧
      (∀ p ∈ h.imports.stripped, p.2.Readable isWord) ∧
        (Pieces.endsBare true h.imports.stripped = true → last ≠ []) := by
  have hblank := h.isSpace_stripped
  have hvalid : ∀ p ∈ h.imports.stripped, p.2.Valid :=
    Pieces.forall_mem_stripped.mpr h.imports_valid
  have hcount : (Pieces.text h.imports.stripped ++ (last ++ "begin".toList)).count 'm' =
      h.imports.names.flatten.count 'm' := by
    have hbegin : "begin".toList.count 'm' = 0 := by decide
    rw [List.count_append, List.count_append, count_text _ hblank rfl (by decide),
      count_eq_zero_of_forall hlast rfl, hbegin, Pieces.names_stripped, Nat.add_zero]
  have hhead := head_of_importsOf hchars h.isSpace_importsGap h.names_ne_nil hcount himports
  rw [importsOf_gap hchars h.isSpace_importsGap hhead, ← Pieces.names_stripped] at himports
  have hquote : ∀ p ∈ h.imports.stripped, p.2.name ≠ [] ∧ quote ∉ p.2.name := by
    intro p hp
    have hi := hvalid p hp
    cases hname : p.2 with
    | bare name =>
      rw [hname] at hi
      exact ⟨hi.1, fun hmem => (hi.2.2.1 quote hmem).2.1 rfl⟩
    | quoted name =>
      rw [hname] at hi
      exact hi
  have hfree : quote ∉ last ++ "begin".toList := by
    intro hmem
    rcases List.mem_append.mp hmem with hmem | hmem
    · cases hlast quote hmem
    · exact absurd hmem (by decide)
  have htoken := oneToken_of_importsIn hquote (fun p hp hmem => by cases hblank p hp quote hmem)
    hfree himports
  obtain ⟨hsep, hread, hends⟩ :=
    separated_of_importsIn hchars hblank hvalid htoken hlast himports
  obtain ⟨p, ps, hps⟩ := List.exists_cons_of_ne_nil (l := h.imports.stripped)
    fun hnil => h.imports_ne_nil (List.map_eq_nil_iff.mp hnil)
  rw [hps] at hsep hends htoken hhead ⊢
  refine ⟨⟨hsep.1, fun _ hbare hnil => ?_, hsep.2.2⟩, hps ▸ hread, hends⟩
  -- The first name would go on from the word itself.
  obtain ⟨front, i⟩ := p
  obtain rfl : front = [] := hnil
  have hi := htoken ([], i) List.mem_cons_self
  cases i with
  | quoted name => cases hbare
  | bare name =>
    cases name with
    | nil => cases hi.1
    | cons c name =>
      have hstart : isImportStart c = true := hi.1
      have hsepChar : c ∉ "./-".toList := by
        intro hmem
        have hc : c = '.' ∨ c = '/' ∨ c = '-' := by simpa using hmem
        rcases hc with rfl | rfl | rfl <;> cases hstart
      have hword := isWord_of_isImportChar (isImportChar_of_isImportStart hstart) hsepChar hchars
      rw [hhead c rfl] at hword
      cases hword

/-- A header without more sections that is read exactly is plain. -/
theorem plain_of_readExactly (hchars : WordChars isWord) (hread : h.ReadExactly []) :
    h.Plain := by
  obtain ⟨hname, himps⟩ := h.closed_of_readExactly hsections hread
  obtain ⟨rest, hsearch, himports⟩ := h.exists_search hread
  have hgap := h.isGap_beginGap hsections
  have hlast := hgap.isSpace_strip 0
  have hbehind : stripTheoryComments 0 (h.rest.text ++ []) =
      stripTheoryComments 0 h.beginGap ++ "begin".toList := by
    have hbegin : stripTheoryComments 0 "begin".toList = "begin".toList := by decide
    rw [h.rest_eq hsections, HeaderTokens.text_cons, HeaderTokens.text_nil, List.append_nil,
      List.append_nil, hgap.strip_append]
    exact congrArg _ hbegin
  rw [text_eq, h.strip_text hname himps, searchTheoryLine_lead, hbehind] at hsearch
  rcases Option.or_eq_some_iff.mp hsearch with hsearch | ⟨-, hsearch⟩
  · obtain ⟨name, hat, heq⟩ := Option.map_eq_some_iff.mp hsearch
    obtain ⟨rfl, rfl⟩ := Prod.mk.inj heq
    obtain ⟨hnameGap, hnameRead⟩ := (h.theoryNameAt_iff _).mp hat
    rw [h.afterTheoryName_eq hnameRead, afterName] at himports
    obtain ⟨hsep, hread, hends⟩ := h.separated_of_importsOf hchars hlast himports
    refine ⟨hnameGap, hnameRead, hname, himps, hsep,
      Pieces.forall_mem_stripped.mp hread, fun hbare p hp => ?_⟩
    rw [Pieces.endsBare_stripped] at hends
    rw [h.rest_eq hsections] at hp
    obtain rfl : (h.beginGap, HeaderToken.word "begin".toList) = p := by simpa using hp
    exact hends hbare
  · -- A word `theory` further on would need one more `t`.
    have hle := (h.read_sublist hsearch himports).count_le 't'
    have htheory : "theory".toList.count 't' = 1 := by decide
    have hbehindTheory : "heory".toList.count 't' = 0 := by decide
    have himportsWord : "imports".toList.count 't' = 1 := by decide
    have hbegin : "begin".toList.count 't' = 0 := by decide
    have hgap : (stripTheoryComments 0 h.beginGap).count 't' = 0 := by
      rw [List.count_eq_zero]
      intro hmem
      cases hlast 't' hmem
    rw [List.count_append, List.count_append, List.count_append, List.count_append,
      h.count_afterTheory rfl (by decide), List.count_append, htheory, hbehindTheory, himportsWord,
      hbegin, hgap] at hle
    omega

/-- A plain header without more sections is read exactly where its `begin` stays a word. -/
theorem readExactly_of_plain (hchars : WordChars isWord) (hplain : h.Plain) {body : Text}
    (hbody : ∀ c ∈ (stripTheoryComments 0 body).head?, isWord c = false) :
    h.ReadExactly body := by
  have hgap := h.isGap_beginGap hsections
  have hbegin : stripTheoryComments 0 ("begin".toList ++ body) =
      "begin".toList ++ stripTheoryComments 0 body :=
    strip_append_of_not_opens (opensComment_of_not_mem (by simp)) (by simp) body
  rw [ReadExactly, hplain.parse h hchars, h.rest_eq hsections, HeaderTokens.text_cons,
    HeaderTokens.text_nil, List.append_nil, List.append_assoc, hgap.strip_append,
    HeaderToken.text, hbegin, importsIn_begin hchars (hgap.isSpace_strip 0) hbody, List.append_nil]

end NoSections

/-- A plain header is read exactly where the sections behind the imports are quiet. Without such
sections just the plain headers are read exactly, with any body that does not go on from `begin`
once the comments are gone. -/
theorem readExactly_iff (hchars : WordChars isWord) :
    (h.Plain → ∀ body, h.ReadExactly body ↔ h.Quiet body) ∧
      (h.sections = [] → (h.ReadExactly [] ↔ h.Plain) ∧
        (h.Plain → ∀ body, (∀ c ∈ (stripTheoryComments 0 body).head?, isWord c = false) →
          h.ReadExactly body)) := by
  refine ⟨fun hplain body => hplain.readExactly_iff_quiet h hchars body, fun hsections => ?_⟩
  refine ⟨⟨h.plain_of_readExactly hsections hchars, fun hplain => ?_⟩, fun hplain body hbody => ?_⟩
  · exact h.readExactly_of_plain hsections hchars hplain (by simp [stripTheoryComments])
  · exact h.readExactly_of_plain hsections hchars hplain hbody

/-- A header with one more section or none. -/
theorem exists_theoryHeader {gap : Text} (hgap : IsGap gap) (hne : gap ≠ [])
    (keywords : Option (Text × HeaderTokens))
    (hspaced : HeaderTokens.Spaced true (HeaderParts.sectionTokens "keywords".toList keywords ++
      [([' '], .word "begin".toList)]))
    (hvalid : ∀ p ∈ HeaderParts.sectionTokens "keywords".toList keywords,
      p.2.InSection asciiWordChar) :
    ∃ h : TheoryHeader asciiWordChar,
      h.text = "theory".toList ++ gap ++ "A imports Main".toList ++
        (HeaderParts.sectionTokens "keywords".toList keywords).text ++ " begin".toList ∧
      h.name.name = ['A'] ∧ h.imports.names = [['M', 'a', 'i', 'n']] ∧
      h.sections = HeaderParts.sectionTokens "keywords".toList keywords := by
  have hblank : IsGap [' '] := .space rfl .nil
  let parts : HeaderParts := ⟨[], [], gap, .bare ['A'], [' '],
    [([' '], .bare ['M', 'a', 'i', 'n'])], keywords, none, [' ']⟩
  have hsections : parts.sections = HeaderParts.sectionTokens "keywords".toList keywords :=
    List.append_nil _
  have htokens : HeaderTokens.Spaced false parts.tokens := by
    rw [HeaderParts.tokens, HeaderParts.rest, hsections]
    exact ⟨.nil, by simp, hgap, fun _ _ => hne, hblank, by simp, hblank, by simp, hspaced⟩
  have hname : (ImportName.bare ['A']).Valid :=
    ⟨List.cons_ne_nil _ _, by decide, by simp [isSpace, quote], by simp⟩
  have hmain : (ImportName.bare ['M', 'a', 'i', 'n']).Valid :=
    ⟨List.cons_ne_nil _ _, by decide, by simp [isSpace, quote], by simp⟩
  have hindent : ∀ c ∈ ([] : Text), c = ' ' ∨ c = '\t' := fun c hc => absurd hc List.not_mem_nil
  have htext : parts.text = "theory".toList ++ gap ++ "A imports Main".toList ++
      (HeaderParts.sectionTokens "keywords".toList keywords).text ++ " begin".toList := by
    have himports : "A imports Main".toList = ['A'] ++ ([' '] ++ ("imports".toList ++
        ([' '] ++ ['M', 'a', 'i', 'n']))) := rfl
    have hbegin : " begin".toList = [' '] ++ "begin".toList := rfl
    rw [HeaderParts.text, HeaderParts.tokens, HeaderParts.rest, hsections, himports, hbegin]
    generalize HeaderParts.sectionTokens "keywords".toList keywords = more
    simp [parts, Pieces.tokens, HeaderTokens.text, HeaderToken.text, ImportName.token]
  refine ⟨⟨parts, htokens, Or.inl rfl, hindent, hname, List.cons_ne_nil _ _, ?_, ?_⟩, htext, rfl,
    rfl, hsections⟩
  · intro p hp
    obtain rfl := List.mem_singleton.mp hp
    exact hmain
  · rw [hsections]
    exact hvalid

theorem readExactly_iff_blank :
    ∃ h : TheoryHeader asciiWordChar, h.text = "theory A imports Main begin".toList ∧
      h.sections = [] ∧ h.Plain ∧ h.ReadExactly "\nend".toList := by
  obtain ⟨h, htext, hname, himports, hsections⟩ :=
    exists_theoryHeader (.space (c := ' ') rfl .nil) (by simp) none
      ⟨.space rfl .nil, by simp, trivial⟩ (by simp [HeaderParts.sectionTokens])
  have hread : h.ReadExactly [] := by
    have hparse : parseTheoryHeader asciiWordChar ("theory".toList ++ [' '] ++
        "A imports Main".toList ++ [] ++ " begin".toList ++ []) =
          (some ['A'], [['M', 'a', 'i', 'n']]) := by decide +kernel
    rw [ReadExactly, htext, hname, himports]
    exact hparse
  obtain ⟨hiff, hbody⟩ := (h.readExactly_iff wordChars_ascii).2 hsections
  have hplain := hiff.mp hread
  exact ⟨h, htext, hsections, hplain, hbody hplain _ (by simp [stripTheoryComments, asciiWordChar])⟩

/-- The keywords of a section are read as imports, and a comment behind `theory` hides the
header. -/
theorem keywords_read_as_imports :
    (∃ h : TheoryHeader asciiWordChar,
      h.text = "theory A imports Main keywords \"foo\" :: thy_decl begin".toList ∧
        ¬ h.ReadExactly []) ∧
    ∃ h : TheoryHeader asciiWordChar,
      h.text = "theory(**)A imports Main begin".toList ∧ ¬ h.ReadExactly [] := by
  have hblank : IsGap [' '] := .space rfl .nil
  constructor
  · obtain ⟨h, htext, hname, himports, -⟩ :=
      exists_theoryHeader hblank (by simp) (some ([' '], [([' '], .quoted "foo".toList),
        ([' '], .mark "::".toList), ([' '], .word "thy_decl".toList)]))
        ⟨hblank, by simp, hblank, by simp, hblank, by simp, hblank, by simp, hblank, by simp,
          trivial⟩ (by
          intro p hp
          simp only [HeaderParts.sectionTokens, List.mem_cons, List.not_mem_nil, or_false] at hp
          rcases hp with rfl | rfl | rfl | rfl
          · exact ⟨⟨by decide, by decide, by simp [isSpace, quote]⟩, fun _ => by decide⟩
          · exact ⟨trivial, fun _ => by decide⟩
          · exact ⟨⟨by decide, by simp [asciiWordChar, isSpace, quote]⟩, fun _ => by decide⟩
          · exact ⟨⟨by decide, by decide, by simp [isSpace, quote]⟩, fun _ => by decide⟩)
    refine ⟨h, htext, fun hread => ?_⟩
    have hparse : parseTheoryHeader asciiWordChar
        ("theory A imports Main keywords \"foo\" :: thy_decl begin".toList ++ []) =
          (some ['A'], ["Main".toList, "foo".toList, "thy_decl".toList]) := by decide +kernel
    rw [ReadExactly, htext, hname, himports] at hread
    change parseTheoryHeader asciiWordChar
      ("theory A imports Main keywords \"foo\" :: thy_decl begin".toList ++ []) = _ at hread
    rw [hparse] at hread
    exact absurd (Prod.mk.inj hread).2 (by decide)
  · have hcomment : IsGap "(**)".toList := by
      have h := IsGap.comment (t := []) ⟨"*)".toList, rfl, by decide⟩ .nil
      rwa [List.append_nil] at h
    obtain ⟨h, htext, hname, himports, -⟩ :=
      exists_theoryHeader hcomment (by simp) none
        ⟨hblank, by simp, trivial⟩ (by simp [HeaderParts.sectionTokens])
    refine ⟨h, htext, fun hread => ?_⟩
    have hparse : parseTheoryHeader asciiWordChar ("theory".toList ++ "(**)".toList ++
        "A imports Main".toList ++ [] ++ " begin".toList ++ []) = (none, []) := by decide +kernel
    rw [ReadExactly, htext, hname, himports] at hread
    change parseTheoryHeader asciiWordChar ("theory".toList ++ "(**)".toList ++
        "A imports Main".toList ++ [] ++ " begin".toList ++ []) = _ at hread
    rw [hparse] at hread
    cases (Prod.mk.inj hread).1

end TheoryHeader

end TheoryParsing
end IsabelleGym
