import IsabelleGym.HeaderImports
import IsabelleGym.LoadDocument

/-!
# The header that the server builds, read back

The builder leaves a name bare that looks like an identifier, primes included; the
parser's token expression stops at a prime, and the parser looks for `begin` in
quoted names too.
-/

namespace IsabelleGym
namespace TheoryParsing

open PythonStr Pieces

/-- What the builder is called with: a name, and imports without quotes and newlines. -/
structure HeaderArgs where
  name : Text
  imports : List Text
  name_ne_nil : name ≠ []
  name_chars : ∀ c ∈ name, isSpace c = false ∧ c ≠ quote ∧ c ≠ '('
  imports_ne_nil : imports ≠ []
  import_ne_nil : ∀ i ∈ imports, i ≠ []
  import_chars : ∀ i ∈ imports, ∀ c ∈ i, c ≠ '\n' ∧ c ≠ quote ∧ c ≠ '('

def builtName (isWord : Char → Bool) (i : Text) : ImportName :=
  if (i.head?.any Char.isAlpha && i.tail.all fun d => isWord d || d = Char.ofNat 39) then .bare i
  else .quoted i

variable {isWord : Char → Bool}

theorem name_builtName (i : Text) : (builtName isWord i).name = i := by
  rw [builtName]
  split_ifs <;> rfl

theorem text_builtName (i : Text) : (builtName isWord i).text = quoteImport isWord i := by
  cases i with
  | nil => rfl
  | cons c rest =>
    rw [builtName, quoteImport, List.head?_cons, Option.any_some, List.tail_cons]
    split_ifs <;> rfl

/-- The imports of the built header, each behind a blank. -/
def builtPieces (isWord : Char → Bool) (imports : List Text) : Pieces :=
  imports.map fun i => ([' '], builtName isWord i)

theorem names_builtPieces (imports : List Text) : names (builtPieces isWord imports) = imports := by
  rw [names, builtPieces, List.map_map]
  conv_rhs => rw [← List.map_id imports]
  exact List.map_congr_left fun i _ => name_builtName i

theorem separated_builtPieces (isWord : Char → Bool) (bare : Bool) (imports : List Text) :
    Separated bare (builtPieces isWord imports) := by
  induction imports generalizing bare with
  | nil => trivial
  | cons i imports ih => exact ⟨by simp [isSpace], fun _ _ => by simp, ih _⟩

theorem text_builtPieces {imports : List Text} (h : imports ≠ []) :
    Pieces.text (builtPieces isWord imports) =
      ' ' :: [' '].intercalate (imports.map (quoteImport isWord)) := by
  induction imports with
  | nil => exact absurd rfl h
  | cons i imports ih =>
    cases imports with
    | nil => simp [builtPieces, text_builtName]
    | cons j imports =>
      have hrest := ih (List.cons_ne_nil j imports)
      rw [builtPieces, List.map_cons, text_cons, ← builtPieces, hrest, text_builtName,
        List.map_cons, List.map_cons, List.map_cons, List.intercalate_cons_cons]
      simp

def builtRest (isWord : Char → Bool) (imports : List Text) : Text :=
  [' '] ++ ("imports".toList ++ (Pieces.text (builtPieces isWord imports) ++ " begin".toList))

theorem buildTheoryHeader_eq (h : HeaderArgs) :
    buildTheoryHeader isWord h.name h.imports =
      "theory".toList ++ ' ' :: (h.name ++ builtRest isWord h.imports) := by
  have hgiven : h.imports.filter (fun i => !i.isEmpty) = h.imports := by
    rw [List.filter_eq_self]
    intro i hi
    simpa using h.import_ne_nil i hi
  have hne : h.imports.isEmpty = false := List.isEmpty_eq_false_iff.mpr h.imports_ne_nil
  have htheory : "theory ".toList = "theory".toList ++ [' '] := rfl
  have himports : " imports ".toList = ' ' :: ("imports".toList ++ [' ']) := rfl
  have hbuilt : buildTheoryHeader isWord h.name h.imports = "theory ".toList ++ h.name ++
      " imports ".toList ++ [' '].intercalate (h.imports.map (quoteImport isWord)) ++
        " begin".toList := by
    unfold buildTheoryHeader
    rw [hgiven]
    dsimp only
    rw [hne, if_neg Bool.false_ne_true]
  have hassoc : ∀ theory importsWord built ending : Text,
      theory ++ [' '] ++ h.name ++ (' ' :: (importsWord ++ [' '])) ++ built ++ ending =
        theory ++ ' ' :: (h.name ++ ([' '] ++ (importsWord ++ (' ' :: built ++ ending)))) := by
    intro theory importsWord built ending
    simp
  rw [hbuilt, builtRest, text_builtPieces h.imports_ne_nil, htheory, himports]
  exact hassoc _ _ _ _

/-- A text without comments is left as it is. -/
theorem stripTheoryComments_of_not_mem {t : Text} (h : '(' ∉ t) :
    stripTheoryComments 0 t = t := by
  induction t with
  | nil => rfl
  | cons c t ih =>
    have hc : c ≠ '(' := fun heq => h (by rw [heq]; exact List.mem_cons_self)
    rw [stripTheoryComments, ih fun hmem => h (List.mem_cons_of_mem c hmem)]
    rintro t' rfl
    exact absurd rfl hc

/-- A character of a text with names is one of the words of the header, of the gaps, of the quotes
or of the names. -/
theorem not_mem_text {c : Char} (hspace : c ≠ ' ') (hquote : c ≠ quote) {imports : List Text}
    (h : ∀ i ∈ imports, c ∉ i) : c ∉ Pieces.text (builtPieces isWord imports) := by
  induction imports with
  | nil => exact List.not_mem_nil
  | cons i imports ih =>
    have hi : c ∉ (builtName isWord i).text := by
      have hname := h i List.mem_cons_self
      rw [builtName]
      split_ifs
      · exact hname
      · simp [ImportName.text, hquote, hname]
    have hrest := ih fun j hj => h j (List.mem_cons_of_mem i hj)
    rw [builtPieces, List.map_cons, text_cons, ← builtPieces]
    simp [hspace, hi, hrest]

theorem not_mem_buildTheoryHeader (h : HeaderArgs) {c : Char} (hname : c ∉ h.name)
    (himports : ∀ i ∈ h.imports, c ∉ i) (hquote : c ≠ quote)
    (hwords : c ∉ "theory".toList ∧ c ∉ "imports".toList ∧ c ∉ " begin".toList) (hspace : c ≠ ' ') :
    c ∉ "theory".toList ++ ' ' :: (h.name ++ builtRest isWord h.imports) := by
  have htext : c ∉ Pieces.text (builtPieces isWord h.imports) :=
    not_mem_text hspace hquote himports
  obtain ⟨htheory, hword, hbegin⟩ := hwords
  intro hmem
  rcases List.mem_append.mp hmem with hmem | hmem
  · exact htheory hmem
  · rcases List.mem_cons.mp hmem with hmem | hmem
    · exact hspace hmem
    · rcases List.mem_append.mp hmem with hmem | hmem
      · exact hname hmem
      · rw [builtRest] at hmem
        rcases List.mem_append.mp hmem with hmem | hmem
        · exact hspace (List.mem_singleton.mp hmem)
        · rcases List.mem_append.mp hmem with hmem | hmem
          · exact hword hmem
          · rcases List.mem_append.mp hmem with hmem | hmem
            · exact htext hmem
            · exact hbegin hmem

/-- The parsed header, from the text behind `theory`. -/
theorem parse_buildTheoryHeader (h : HeaderArgs) :
    parseTheoryHeader isWord (buildTheoryHeader isWord h.name h.imports) =
      if ((h.name ++ builtRest isWord h.imports).takeWhile isNameChar).isEmpty then (none, [])
      else (some ((h.name ++ builtRest isWord h.imports).takeWhile isNameChar),
        importsOf isWord ((h.name ++ builtRest isWord h.imports).dropWhile isNameChar)) := by
  have hcomment : '(' ∉ "theory".toList ++ ' ' :: (h.name ++ builtRest isWord h.imports) :=
    not_mem_buildTheoryHeader h (fun hmem => (h.name_chars '(' hmem).2.2 rfl)
      (fun i hi hmem => (h.import_chars i hi '(' hmem).2.2 rfl) (by decide) (by simp) (by decide)
  have hline : '\n' ∉ "theory".toList ++ ' ' :: (h.name ++ builtRest isWord h.imports) :=
    not_mem_buildTheoryHeader h (fun hmem => by cases (h.name_chars '\n' hmem).1)
      (fun i hi hmem => (h.import_chars i hi '\n' hmem).1 rfl) (by decide) (by simp) (by decide)
  have hhead : ∀ c ∈ (h.name ++ builtRest isWord h.imports).head?,
      isSpace c = false ∧ c ≠ quote := by
    intro c hc
    obtain ⟨d, name, hname⟩ := List.exists_cons_of_ne_nil h.name_ne_nil
    have hd := h.name_chars d (by rw [hname]; exact List.mem_cons_self)
    rw [hname] at hc
    obtain rfl : d = c := by simpa using hc
    exact ⟨hd.1, hd.2.1⟩
  have hgap : ∀ c ∈ [' '], isSpace c = true := by simp [isSpace]
  have hat := theoryNameAt_bare (List.cons_ne_nil ' ' []) hgap hhead
  have hbehind := afterTheoryName_bare hgap hhead
  rw [List.singleton_append] at hat hbehind
  rw [parseTheoryHeader, buildTheoryHeader_eq, stripTheoryComments_of_not_mem hcomment,
    searchTheoryLine_line hline,
    hat, hbehind]
  split_ifs <;> rfl

/-- The header is read back exactly when the name has only the characters of a name and the
imports, as they are built, are all readable. -/
theorem parse_buildTheoryHeader_iff (hchars : WordChars isWord) (h : HeaderArgs) :
    parseTheoryHeader isWord (buildTheoryHeader isWord h.name h.imports) =
        (some h.name, h.imports) ↔
      (∀ c ∈ h.name, isNameChar c = true) ∧
        ∀ i ∈ h.imports, (builtName isWord i).Readable isWord := by
  have hspace : isNameChar ' ' = false := rfl
  have hhead : ∀ c ∈ (builtRest isWord h.imports).head?, isNameChar c = false := by
    intro c hc
    obtain rfl : ' ' = c := by simpa [builtRest] using hc
    exact hspace
  have hgap : ∀ c ∈ [' '], isSpace c = true := by simp [isSpace]
  have hblank := hchars.space ' ' rfl
  have hbegin : ∀ c ∈ " begin".toList.head?, isWord c = false ∧ isImportChar c = false := by
    intro c hc
    obtain rfl : ' ' = c := by simpa using hc
    exact ⟨hblank, rfl⟩
  have hsep := separated_builtPieces isWord true h.imports
  have himports : importsOf isWord (builtRest isWord h.imports) =
      importsIn isWord (Pieces.text (builtPieces isWord h.imports) ++ " begin".toList) := by
    refine importsOf_gap hchars hgap ?_
    exact head_text hchars.space (isWord_quote hchars) hsep fun _ c hc => (hbegin c hc).1
  have hquiet : importsIn isWord " begin".toList = [] :=
    importsIn_begin hchars hgap (t := []) (by simp)
  rw [parse_buildTheoryHeader]
  constructor
  · intro heq
    split_ifs at heq with hempty
    · cases heq
    · obtain ⟨hname, hlist⟩ := Prod.mk.inj heq
      have htake := Option.some.inj hname
      have hall : ∀ c ∈ h.name, isNameChar c = true := by
        intro c hc
        rw [← htake] at hc
        exact List.mem_takeWhile_imp hc
      refine ⟨hall, ?_⟩
      rw [dropWhile_append_stop hall hhead, himports] at hlist
      have hquote : ∀ p ∈ builtPieces isWord h.imports, p.2.name ≠ [] ∧ quote ∉ p.2.name := by
        intro p hp
        obtain ⟨i, hi, rfl⟩ := List.mem_map.mp hp
        rw [name_builtName]
        exact ⟨h.import_ne_nil i hi, fun hmem => (h.import_chars i hi quote hmem).2.1 rfl⟩
      have hread := readable_of_importsIn hchars hquote hsep (fun _ => hbegin) (by simp [quote])
        (hlist.trans (names_builtPieces h.imports).symm)
      exact fun i hi => hread _ (List.mem_map.mpr ⟨i, hi, rfl⟩)
  · rintro ⟨hall, hread⟩
    have hread' : ∀ p ∈ builtPieces isWord h.imports, p.2.Readable isWord := by
      intro p hp
      obtain ⟨i, hi, rfl⟩ := List.mem_map.mp hp
      exact hread i hi
    rw [takeWhile_append_stop hall hhead, dropWhile_append_stop hall hhead, himports,
      importsIn_text hchars hread' hsep fun _ => hbegin, hquiet, List.append_nil,
      names_builtPieces, if_neg (by simpa using h.name_ne_nil)]

/-- The arguments with one import. -/
theorem exists_headerArgs {name i : Text} (hname : name ≠ [])
    (hchars : ∀ c ∈ name, isSpace c = false ∧ c ≠ quote ∧ c ≠ '(') (hi : i ≠ [])
    (himport : ∀ c ∈ i, c ≠ '\n' ∧ c ≠ quote ∧ c ≠ '(') :
    ∃ h : HeaderArgs, h.name = name ∧ h.imports = [i] :=
  ⟨⟨name, [i], hname, hchars, List.cons_ne_nil i [], by simpa using hi, by simpa using himport⟩,
    rfl, rfl⟩

theorem parse_buildTheoryHeader_iff_main :
    ∃ h : HeaderArgs, h.name = ['A'] ∧ h.imports = [['M', 'a', 'i', 'n']] ∧
      (parseTheoryHeader asciiWordChar (buildTheoryHeader asciiWordChar h.name h.imports) =
          (some h.name, h.imports) ↔
        (∀ c ∈ h.name, isNameChar c = true) ∧
          ∀ i ∈ h.imports, (builtName asciiWordChar i).Readable asciiWordChar) := by
  obtain ⟨h, hname, himports⟩ := exists_headerArgs (List.cons_ne_nil 'A' [])
    (by simp [isSpace, quote]) (List.cons_ne_nil 'M' ['a', 'i', 'n']) (by simp [quote])
  exact ⟨h, hname, himports, parse_buildTheoryHeader_iff wordChars_ascii h⟩

/-- Of an import with a prime, which is built bare, the part in front of the prime is read. -/
theorem primed_import_lost :
    ∃ h : HeaderArgs, h.name = ['A'] ∧ h.imports = [['F', 'o', 'o', Char.ofNat 39]] ∧
      parseTheoryHeader asciiWordChar (buildTheoryHeader asciiWordChar h.name h.imports) ≠
        (some h.name, h.imports) := by
  obtain ⟨h, hname, himports⟩ := exists_headerArgs (List.cons_ne_nil 'A' [])
    (by simp [isSpace, quote]) (List.cons_ne_nil 'F' ['o', 'o', Char.ofNat 39]) (by simp [quote])
  refine ⟨h, hname, himports, ?_⟩
  have hread : parseTheoryHeader asciiWordChar
      (buildTheoryHeader asciiWordChar ['A'] [['F', 'o', 'o', Char.ofNat 39]]) =
        (some ['A'], [['F', 'o', 'o']]) := by decide +kernel
  rw [hname, himports, hread]
  decide

end TheoryParsing
end IsabelleGym
