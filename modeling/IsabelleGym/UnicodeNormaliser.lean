import IsabelleGym.Dict
import IsabelleGym.PythonStr
import IsabelleGym.ThyStatus
import Mathlib.Data.List.Infix

/-!
# Unicode symbols and their escapes

The symbol table of Isabelle gives the code points of its symbols. A theory text
is written with the escapes in place of these code points and without lone
surrogates. Isabelle displays the escapes as the code points again.
-/

namespace IsabelleGym
namespace UnicodeNormaliser

open PythonStr

def isHexDigit (c : Char) : Bool :=
  ('0' ≤ c && c ≤ '9') || ('a' ≤ c && c ≤ 'f') || ('A' ≤ c && c ≤ 'F')

def hexValue (c : Char) : ℕ :=
  if c ≤ '9' then c.toNat - '0'.toNat
  else if c ≤ 'F' then c.toNat - 'A'.toNat + 10
  else c.toNat - 'a'.toNat + 10

def ofHex (digits : Text) : ℕ := digits.foldl (fun n c => 16 * n + hexValue c) 0

def isSurrogate (codepoint : ℕ) : Bool := 0xD800 ≤ codepoint && codepoint ≤ 0xDFFF

section Table

def literal (w t : Text) : Option Text := if w.isPrefixOf t then some (t.drop w.length) else none

def spaces (t : Text) : Option Text :=
  if t.head?.any isSpace then some (t.dropWhile isSpace) else none

def backslash : Char := Char.ofNat 92

/-- A match of `(\\<[^>]+>)\s+code:\s+(0x[0-9a-fA-F]+)`, and what is left behind it. -/
def matchEntry (t : Text) : Option ((Text × ℕ) × Text) :=
  (literal [backslash, '<'] t).bind fun t =>
  let body := t.takeWhile (· ≠ '>')
  if body.isEmpty then none else
  (literal ['>'] (t.dropWhile (· ≠ '>'))).bind fun t =>
  (spaces t).bind fun t =>
  (literal "code:".toList t).bind fun t =>
  (spaces t).bind fun t =>
  (literal "0x".toList t).bind fun t =>
  let digits := t.takeWhile isHexDigit
  if digits.isEmpty then none else
  some ((backslash :: '<' :: body ++ ['>'], ofHex digits), t.dropWhile isHexDigit)

/-- The matches at the starts of lines, behind `skip` more characters of the last one. -/
def findFrom : Bool → ℕ → Text → List (Text × ℕ)
  | _, _, [] => []
  | _, skip + 1, c :: t => findFrom (c = '\n') skip t
  | lineStart, 0, c :: t =>
    match if lineStart then matchEntry (c :: t) else none with
    | some (entry, rest) => entry :: findFrom (c = '\n') (t.length - rest.length) t
    | none => findFrom (c = '\n') 0 t

def putEntry (mapping : Dict ℕ Text) (entry : Text × ℕ) : Except Text (Dict ℕ Text) :=
  if isSurrogate entry.2 then .ok mapping
  else if entry.2 < 0x110000 then .ok (Dict.put mapping entry.2 entry.1)
  else if entry.2 < 0x80000000 then .error "chr() arg not in range(0x110000)".toList
  else .error "Python int too large to convert to C int".toList

/-- `_load_symbol_table` on the text of the symbols file. -/
def loadSymbolTable (text : Text) : Except Text (Dict ℕ Text) :=
  (findFrom true 0 text).foldlM putEntry []

/-- A line of a symbols file: a symbol with a code, a symbol with other properties alone, or a line
about no symbol. -/
inductive SymbolLine
  | coded (body pad pad' digits rest : Text)
  | uncoded (body pad rest : Text)
  | other (line : Text)

namespace SymbolLine

def render : SymbolLine → Text
  | coded body pad pad' digits rest =>
    backslash :: '<' :: body ++ '>' :: pad ++ "code:".toList ++ pad' ++ "0x".toList ++ digits ++
      rest
  | uncoded body pad rest => backslash :: '<' :: body ++ '>' :: pad ++ rest
  | other line => line

def entry : SymbolLine → Option (Text × ℕ)
  | coded body _ _ digits _ => some (backslash :: '<' :: body ++ ['>'], ofHex digits)
  | _ => none

def WellFormed : SymbolLine → Prop
  | coded body pad pad' digits rest =>
    body ≠ [] ∧ '>' ∉ body ∧ (pad ≠ [] ∧ ∀ c ∈ pad, isSpace c = true) ∧
      (pad' ≠ [] ∧ ∀ c ∈ pad', isSpace c = true) ∧
      (digits ≠ [] ∧ ∀ c ∈ digits, isHexDigit c = true) ∧
      '\n' ∉ rest ∧ ∀ c ∈ rest.head?, isHexDigit c = false
  | uncoded body pad rest =>
    '>' ∉ body ∧ '\n' ∉ body ∧ (∀ c ∈ pad, isSpace c = true ∧ c ≠ '\n') ∧ '\n' ∉ rest ∧
      (∃ c ∈ rest.head?, isSpace c = false) ∧ "code:".toList.isPrefixOf rest = false
  | other line => '\n' ∉ line ∧ [backslash, '<'].isPrefixOf line = false

end SymbolLine

theorem literal_append (w t : Text) : literal w (w ++ t) = some t := by
  simp [literal, List.isPrefixOf_iff_prefix]

theorem takeWhile_append_of {p : Char → Bool} {w t : Text} (hw : ∀ c ∈ w, p c = true)
    (ht : ∀ c ∈ t.head?, p c = false) :
    (w ++ t).takeWhile p = w ∧ (w ++ t).dropWhile p = t := by
  rw [List.takeWhile_append_of_pos hw, List.dropWhile_append_of_pos hw]
  cases t with
  | nil => simp
  | cons c t => simp [ht c rfl]

theorem forall_head?_cons {p : Char → Bool} {c : Char} {t : Text} (h : p c = false) :
    ∀ d ∈ (c :: t).head?, p d = false := by
  intro d hd
  rw [← Option.some.inj hd, h]

theorem isPrefixOf_append_newline {w : Text} (hw : '\n' ∉ w) (t more : Text) :
    w.isPrefixOf (t ++ '\n' :: more) = w.isPrefixOf t := by
  induction w generalizing t with
  | nil => simp
  | cons c w ih =>
    have hc : c ≠ '\n' := fun heq => hw (heq ▸ List.mem_cons_self)
    cases t with
    | nil => simp [List.isPrefixOf, hc]
    | cons d t =>
      simp only [List.cons_append, List.isPrefixOf]
      rw [ih fun hmem => hw (List.mem_cons_of_mem c hmem)]

theorem spaces_append {pad t : Text} (hne : pad ≠ []) (hpad : ∀ c ∈ pad, isSpace c = true)
    (ht : ∀ c ∈ t.head?, isSpace c = false) : spaces (pad ++ t) = some t := by
  obtain ⟨c, pad, rfl⟩ := List.exists_cons_of_ne_nil hne
  rw [spaces, (takeWhile_append_of hpad ht).2]
  simp [hpad c List.mem_cons_self]

theorem spaces_literal {pad w t : Text} (hne : pad ≠ []) (hpad : ∀ c ∈ pad, isSpace c = true)
    (hw : (w.head?.any fun c => !isSpace c) = true) : spaces (pad ++ (w ++ t)) = some (w ++ t) := by
  cases w with
  | nil => cases hw
  | cons c w => exact spaces_append hne hpad (forall_head?_cons (by simpa using hw))

theorem matchEntry_coded {body pad pad' digits rest : Text}
    (h : (SymbolLine.coded body pad pad' digits rest).WellFormed) (more : Text) :
    matchEntry ((SymbolLine.coded body pad pad' digits rest).render ++ '\n' :: more) =
      some ((backslash :: '<' :: body ++ ['>'], ofHex digits), rest ++ '\n' :: more) := by
  obtain ⟨hbody, hgt, ⟨hpad, hpads⟩, ⟨hpad', hpads'⟩, ⟨hdigits, hhex⟩, _, hrest⟩ := h
  have hshape : (SymbolLine.coded body pad pad' digits rest).render ++ '\n' :: more =
      [backslash, '<'] ++ (body ++ (['>'] ++ (pad ++ ("code:".toList ++ (pad' ++
        ("0x".toList ++ (digits ++ (rest ++ '\n' :: more)))))))) := by
    simp [SymbolLine.render]
  have hname := takeWhile_append_of (p := (· ≠ '>')) (w := body)
    (t := ['>'] ++ (pad ++ ("code:".toList ++ (pad' ++ ("0x".toList ++ (digits ++
      (rest ++ '\n' :: more)))))))
    (fun c hc => by simpa using fun heq : c = '>' => hgt (heq ▸ hc)) (by simp)
  have hcode := takeWhile_append_of (p := isHexDigit) (w := digits) (t := rest ++ '\n' :: more) hhex
    (by cases rest with
      | nil => exact forall_head?_cons (by decide)
      | cons c rest => simpa using hrest)
  rw [hshape, matchEntry, literal_append, Option.bind_some]
  dsimp only
  rw [hname.1, hname.2, if_neg (by simpa using hbody), literal_append, Option.bind_some,
    spaces_literal hpad hpads (by decide), Option.bind_some, literal_append, Option.bind_some,
    spaces_literal hpad' hpads' (by decide), Option.bind_some, literal_append, Option.bind_some,
    hcode.1, hcode.2, if_neg (by simpa using hdigits)]

theorem matchEntry_of_entry_none {line : SymbolLine} (h : line.WellFormed)
    (hentry : line.entry = none) (more : Text) :
    matchEntry (line.render ++ '\n' :: more) = none := by
  cases line with
  | coded body pad pad' digits rest => cases hentry
  | other line =>
    obtain ⟨hnl, hleads⟩ := h
    have hno := isPrefixOf_append_newline (w := [backslash, '<']) (by decide) line more
    rw [matchEntry, SymbolLine.render, literal, if_neg (by simp [hno, hleads]), Option.bind_none]
  | uncoded body pad rest =>
    obtain ⟨hgt, _, hpads, hnl, ⟨c, hc, hspace⟩, hcode⟩ := h
    have hshape : (SymbolLine.uncoded body pad rest).render ++ '\n' :: more =
        [backslash, '<'] ++ (body ++ (['>'] ++ (pad ++ (rest ++ '\n' :: more)))) := by
      simp [SymbolLine.render]
    have hname := takeWhile_append_of (p := (· ≠ '>')) (w := body)
      (t := ['>'] ++ (pad ++ (rest ++ '\n' :: more)))
      (fun c hc => by simpa using fun heq : c = '>' => hgt (heq ▸ hc)) (by simp)
    have hhead : ∀ d ∈ (rest ++ '\n' :: more).head?, isSpace d = false := by
      cases rest with
      | nil => cases hc
      | cons d rest =>
        obtain rfl := Option.some.inj hc
        exact forall_head?_cons hspace
    have hliteral : literal "code:".toList (rest ++ '\n' :: more) = none := by
      rw [literal, isPrefixOf_append_newline (by decide), hcode, if_neg Bool.false_ne_true]
    rw [hshape, matchEntry, literal_append, Option.bind_some]
    dsimp only
    rw [hname.1, hname.2]
    split_ifs
    · rfl
    · rw [literal_append, Option.bind_some]
      by_cases hpad : pad = []
      · have hspaces : spaces (rest ++ '\n' :: more) = none := by
          rw [spaces, if_neg]
          cases hd : (rest ++ '\n' :: more).head? with
          | none => simp
          | some d => simp [hhead d hd]
        rw [hpad, List.nil_append, hspaces, Option.bind_none]
      · rw [spaces_append hpad (fun c hc => (hpads c hc).1) hhead, Option.bind_some, hliteral,
          Option.bind_none]

theorem findFrom_skip (b : Bool) {w : Text} {c : Char} (t : Text) :
    findFrom b (w ++ [c]).length (w ++ [c] ++ t) = findFrom (c = '\n') 0 t := by
  induction w generalizing b with
  | nil => rfl
  | cons d w ih => exact ih _

theorem findFrom_rest {w : Text} (hw : '\n' ∉ w) (more : Text) :
    findFrom false 0 (w ++ '\n' :: more) = findFrom true 0 more := by
  induction w with
  | nil => rfl
  | cons c w ih =>
    have hc : c ≠ '\n' := fun heq => hw (heq ▸ List.mem_cons_self)
    rw [List.cons_append, findFrom]
    simp only [Bool.false_eq_true, if_false, decide_eq_false hc]
    exact ih fun hmem => hw (List.mem_cons_of_mem c hmem)

theorem newline_not_mem_render {line : SymbolLine} (h : line.WellFormed)
    (hentry : line.entry = none) : '\n' ∉ line.render := by
  cases line with
  | coded body pad pad' digits rest => cases hentry
  | other line => exact h.1
  | uncoded body pad rest =>
    obtain ⟨_, hbody, hpads, hrest, _, _⟩ := h
    have hpad : '\n' ∉ pad := fun hmem => (hpads _ hmem).2 rfl
    simp [SymbolLine.render, hbody, hpad, hrest, backslash]

theorem findFrom_line {line : SymbolLine} (h : line.WellFormed) (more : Text) :
    findFrom true 0 (line.render ++ '\n' :: more) = line.entry.toList ++ findFrom true 0 more := by
  cases hentry : line.entry with
  | none =>
    have hnone := matchEntry_of_entry_none h hentry more
    rw [Option.toList_none, List.nil_append]
    cases hrender : line.render with
    | nil =>
      rw [hrender] at hnone
      rw [List.nil_append, findFrom]
      simp only [if_true]
      rw [show matchEntry ('\n' :: more) = none from hnone]
      rfl
    | cons c t =>
      have hnl : '\n' ∉ c :: t := hrender ▸ newline_not_mem_render h hentry
      rw [hrender] at hnone
      rw [List.cons_append, findFrom]
      simp only [if_true]
      rw [show matchEntry (c :: (t ++ '\n' :: more)) = none from hnone]
      have hc : c ≠ '\n' := fun heq => hnl (heq ▸ List.mem_cons_self)
      rw [decide_eq_false hc]
      exact findFrom_rest (fun hmem => hnl (List.mem_cons_of_mem c hmem)) more
  | some entry =>
    cases line with
    | uncoded _ _ _ | other _ => cases hentry
    | coded body pad pad' digits rest =>
      obtain rfl := Option.some.inj hentry
      have hmatch := matchEntry_coded h more
      obtain ⟨_, _, _, _, ⟨hdigits, hhex⟩, hnl, _⟩ := h
      obtain ⟨front, d, rfl⟩ := (List.eq_nil_or_concat' digits).resolve_left hdigits
      have hd : d ≠ '\n' := by
        rintro rfl
        exact absurd (hhex '\n' (by simp)) (by decide)
      have hshape : (SymbolLine.coded body pad pad' (front ++ [d]) rest).render ++ '\n' :: more =
          backslash :: ('<' :: body ++ '>' :: pad ++ "code:".toList ++ pad' ++ "0x".toList ++
            front ++ [d] ++ (rest ++ '\n' :: more)) := by
        simp [SymbolLine.render]
      rw [hshape] at hmatch ⊢
      rw [findFrom]
      simp only [if_true]
      rw [hmatch]
      dsimp only
      rw [List.length_append, Nat.add_sub_cancel, findFrom_skip, decide_eq_false hd,
        findFrom_rest hnl]
      rfl

theorem findFrom_lines {lines : List SymbolLine} (h : ∀ line ∈ lines, line.WellFormed) :
    findFrom true 0 (lines.flatMap fun line => line.render ++ ['\n']) =
      lines.filterMap SymbolLine.entry := by
  induction lines with
  | nil => rfl
  | cons line lines ih =>
    have hrest := ih fun line hline => h line (List.mem_cons_of_mem _ hline)
    have hline := findFrom_line (h line List.mem_cons_self)
      (lines.flatMap fun line => line.render ++ ['\n'])
    rw [List.flatMap_cons, List.append_assoc, List.singleton_append, hline, hrest]
    cases hentry : line.entry with
    | none => simp [hentry]
    | some entry => simp [hentry]

theorem mem_foldlM_putEntry {entries : List (Text × ℕ)} {mapping : Dict ℕ Text}
    (hscalar : ∀ entry ∈ entries, isSurrogate entry.2 = false ∧ entry.2 < 0x110000)
    (hfresh : ∀ entry ∈ entries, entry.2 ∉ mapping.map Prod.fst)
    (hnodup : (entries.map Prod.snd).Nodup) :
    ∃ table, entries.foldlM putEntry mapping = .ok table ∧
      ∀ entry, entry ∈ table ↔ entry ∈ mapping ∨ (entry.2, entry.1) ∈ entries := by
  induction entries generalizing mapping with
  | nil => exact ⟨mapping, rfl, by simp⟩
  | cons entry entries ih =>
    obtain ⟨hsurrogate, hlt⟩ := hscalar entry List.mem_cons_self
    rw [List.map_cons, List.nodup_cons] at hnodup
    have hput : putEntry mapping entry = .ok (Dict.put mapping entry.2 entry.1) := by
      rw [putEntry, if_neg (by simp [hsurrogate]), if_pos hlt]
    obtain ⟨table, htable, hmem⟩ := @ih (Dict.put mapping entry.2 entry.1)
      (fun e he => hscalar e (List.mem_cons_of_mem _ he)) (by
        intro e he hin
        obtain ⟨old, hold, heq⟩ := List.mem_map.mp hin
        rcases Dict.mem_put.mp hold with rfl | ⟨hold, _⟩
        · exact hnodup.1 (List.mem_map.mpr ⟨e, he, heq.symm⟩)
        · exact hfresh e (List.mem_cons_of_mem _ he) (List.mem_map.mpr ⟨old, hold, heq⟩))
      hnodup.2
    refine ⟨table, by rw [List.foldlM_cons, hput]; exact htable, fun e => ?_⟩
    have hkept : e ∈ mapping → e.1 ≠ entry.2 := fun he heq =>
      hfresh entry List.mem_cons_self (heq ▸ List.mem_map_of_mem he)
    rw [hmem, Dict.mem_put, List.mem_cons, Prod.ext_iff, Prod.ext_iff]
    constructor
    · rintro ((⟨h₁, h₂⟩ | ⟨he, _⟩) | he)
      · exact Or.inr (Or.inl ⟨h₂, h₁⟩)
      · exact Or.inl he
      · exact Or.inr (Or.inr he)
    · rintro (he | ⟨h₂, h₁⟩ | he)
      · exact Or.inl (Or.inr ⟨he, hkept he⟩)
      · exact Or.inl (Or.inl ⟨h₁, h₂⟩)
      · exact Or.inr he

/-- A symbols file gives each code point the symbol whose line has it, and nothing else. -/
theorem loadSymbolTable_lines {lines : List SymbolLine} (h : ∀ line ∈ lines, line.WellFormed)
    (hscalar : ∀ entry ∈ lines.filterMap SymbolLine.entry,
      isSurrogate entry.2 = false ∧ entry.2 < 0x110000)
    (hnodup : ((lines.filterMap SymbolLine.entry).map Prod.snd).Nodup) :
    ∃ table, loadSymbolTable (lines.flatMap fun line => line.render ++ ['\n']) = .ok table ∧
      ∀ codepoint name, (codepoint, name) ∈ table ↔
        (name, codepoint) ∈ lines.filterMap SymbolLine.entry := by
  obtain ⟨table, htable, hmem⟩ := @mem_foldlM_putEntry _ [] hscalar (by simp) hnodup
  refine ⟨table, by rw [loadSymbolTable, findFrom_lines h, htable], fun codepoint name => ?_⟩
  rw [hmem]
  simp

end Table

section Symbols

variable (table : Dict ℕ Text)

def symbolOf (ch : ℕ) : List ℕ := ((table.lookup ch).map (·.map Char.toNat)).getD [ch]

def encode (text : List ℕ) : List ℕ := text.flatMap (symbolOf table)

def normaliseForIsabelle (loaded : Except Text (Dict ℕ Text)) (text : List ℕ) :
    Except Text (List ℕ) :=
  if text.isEmpty then .ok text
  else
    let text := text.filter fun ch => !isSurrogate ch
    loaded.map fun table => if table.isEmpty then text else encode table text

def escapeOf (entry : ℕ × Text) : List ℕ := entry.2.map Char.toNat

/-- A text as Isabelle displays it, behind `skip` more characters of an escape. -/
def displayFrom : ℕ → List ℕ → List ℕ
  | _, [] => []
  | skip + 1, _ :: t => displayFrom skip t
  | 0, c :: t =>
    match table.find? fun entry => (escapeOf entry).isPrefixOf (c :: t) with
    | some entry => entry.1 :: displayFrom ((escapeOf entry).length - 1) t
    | none => c :: displayFrom 0 t

def display (t : List ℕ) : List ℕ := displayFrom table 0 t

/-- Code points and names determine each other, and the names are escapes in characters that stand
for themselves. -/
structure Canonical : Prop where
  codes : (table.map Prod.fst).Nodup
  names : (table.map Prod.snd).Nodup
  scalar : ∀ entry ∈ table, isSurrogate entry.1 = false
  escape : ∀ entry ∈ table, ∃ body : Text, '>' ∉ body ∧
    entry.2 = backslash :: '<' :: body ++ ['>']
  plain : ∀ entry ∈ table, ∀ c ∈ entry.2, table.lookup c.toNat = none

variable {table}

theorem isSurrogate_toNat (c : Char) : isSurrogate c.toNat = false := by
  have hvalid := c.valid
  simp only [UInt32.isValidChar, Nat.isValidChar] at hvalid
  have hval : c.toNat = c.val.toNat := rfl
  rw [isSurrogate, hval]
  simp only [Bool.and_eq_false_iff, decide_eq_false_iff_not]
  omega

theorem symbolOf_of_lookup_none {c : ℕ} (h : table.lookup c = none) : symbolOf table c = [c] := by
  rw [symbolOf, h]
  rfl

theorem encode_of_forall {t : List ℕ} (h : ∀ c ∈ t, table.lookup c = none) :
    encode table t = t := by
  induction t with
  | nil => rfl
  | cons c t ih =>
    rw [encode, List.flatMap_cons, ← encode, ih fun d hd => h d (List.mem_cons_of_mem c hd),
      symbolOf_of_lookup_none (h c List.mem_cons_self)]
    rfl

theorem symbolOf_cases (c : ℕ) : (table.lookup c = none ∧ symbolOf table c = [c]) ∨
    ∃ entry ∈ table, entry.1 = c ∧ symbolOf table c = escapeOf entry := by
  cases hc : table.lookup c with
  | none => exact Or.inl ⟨rfl, symbolOf_of_lookup_none hc⟩
  | some name =>
    refine Or.inr ⟨(c, name), Dict.mem_of_lookup hc, rfl, ?_⟩
    rw [symbolOf, hc]
    rfl

namespace Canonical

variable (h : Canonical table)
include h

theorem symbolOf_code {entry : ℕ × Text} (hentry : entry ∈ table) :
    symbolOf table entry.1 = escapeOf entry := by
  rw [symbolOf, Dict.lookup_of_mem h.codes (v := entry.2) hentry]
  rfl

/-- No code point of the table and no surrogate is left. -/
theorem mem_encode {t : List ℕ} (ht : ∀ c ∈ t, isSurrogate c = false) {c : ℕ}
    (hc : c ∈ encode table t) : isSurrogate c = false ∧ table.lookup c = none := by
  obtain ⟨d, hd, hcd⟩ := List.mem_flatMap.mp hc
  rcases @symbolOf_cases table d with ⟨hnone, hsymbol⟩ | ⟨entry, hentry, _, hsymbol⟩
  · rw [hsymbol, List.mem_singleton] at hcd
    exact hcd ▸ ⟨ht d hd, hnone⟩
  · rw [hsymbol] at hcd
    obtain ⟨x, hx, rfl⟩ := List.mem_map.mp hcd
    exact ⟨isSurrogate_toNat x, h.plain entry hentry x hx⟩

theorem escapeOf_eq {entry : ℕ × Text} (hentry : entry ∈ table) :
    ∃ body : List ℕ, 62 ∉ body ∧ escapeOf entry = 92 :: 60 :: (body ++ [62]) := by
  obtain ⟨body, hbody, hname⟩ := h.escape entry hentry
  refine ⟨body.map Char.toNat, ?_, ?_⟩
  · intro hmem
    obtain ⟨c, hc, hcode⟩ := List.mem_map.mp hmem
    have hgt : c = '>' := Char.toNat_inj.mp hcode
    exact hbody (hgt ▸ hc)
  · rw [escapeOf, hname]
    simp [backslash]

/-- An escape tells where it ends. -/
theorem eq_of_isPrefixOf {entry entry' : ℕ × Text} (hentry : entry ∈ table)
    (hentry' : entry' ∈ table) {rest : List ℕ}
    (hleads : (escapeOf entry).isPrefixOf (escapeOf entry' ++ rest) = true) : entry = entry' := by
  obtain ⟨body, hbody, heq⟩ := h.escapeOf_eq hentry
  obtain ⟨body', hbody', heq'⟩ := h.escapeOf_eq hentry'
  obtain ⟨back, hback⟩ := List.isPrefixOf_iff_prefix.mp hleads
  rw [heq, heq'] at hback
  have hbacks : body ++ 62 :: back = body' ++ 62 :: rest := by simpa using hback
  have htake : ∀ {b : List ℕ} (r : List ℕ), 62 ∉ b →
      (b ++ 62 :: r).takeWhile (· ≠ 62) = b := by
    intro b r hb
    rw [List.takeWhile_append_of_pos (fun c hc => by
      simpa using fun hc' : c = 62 => hb (hc' ▸ hc))]
    simp
  have hbodies : body = body' := by
    rw [← htake back hbody, hbacks, htake rest hbody']
  have hescapes : entry.2.map Char.toNat = entry'.2.map Char.toNat := by
    change escapeOf entry = escapeOf entry'
    rw [heq, heq', hbodies]
  have hnames : entry.2 = entry'.2 :=
    List.map_injective_iff.mpr (fun _ _ hc => Char.toNat_inj.mp hc) hescapes
  exact List.inj_on_of_nodup_map h.names hentry hentry' hnames

omit h in
theorem displayFrom_eq_drop (k : ℕ) (t : List ℕ) :
    displayFrom table k t = displayFrom table 0 (t.drop k) := by
  induction t generalizing k with
  | nil => cases k <;> rfl
  | cons c t ih =>
    cases k with
    | zero => rfl
    | succ k => rw [displayFrom, ih, List.drop_succ_cons]

theorem display_escapeOf {entry : ℕ × Text} (hentry : entry ∈ table) (rest : List ℕ) :
    display table (escapeOf entry ++ rest) = entry.1 :: display table rest := by
  obtain ⟨body, hbody, heq⟩ := h.escapeOf_eq hentry
  have hfind : table.find? (fun entry' =>
      (escapeOf entry').isPrefixOf (escapeOf entry ++ rest)) = some entry := by
    cases hfound : table.find? (fun entry' =>
        (escapeOf entry').isPrefixOf (escapeOf entry ++ rest)) with
    | none =>
      have hno := List.find?_eq_none.mp hfound entry hentry
      exact absurd (List.isPrefixOf_iff_prefix.mpr (List.prefix_append _ rest)) hno
    | some entry' =>
      have hleads := List.find?_some hfound
      rw [h.eq_of_isPrefixOf (List.mem_of_find?_eq_some hfound) hentry hleads]
  have hcons : escapeOf entry ++ rest = 92 :: ((60 :: (body ++ [62])) ++ rest) := by
    rw [heq]
    rfl
  have hlength : (escapeOf entry).length - 1 = (60 :: (body ++ [62])).length := by
    rw [heq]
    rfl
  rw [hcons] at hfind
  rw [display, hcons, displayFrom, hfind]
  dsimp only
  rw [displayFrom_eq_drop, hlength, List.drop_left']
  · rfl
  · rfl

omit h in
theorem display_cons {c : ℕ} {t : List ℕ}
    (hno : ∀ entry ∈ table, (escapeOf entry).isPrefixOf (c :: t) = false) :
    display table (c :: t) = c :: display table t := by
  have hfind : table.find? (fun entry => (escapeOf entry).isPrefixOf (c :: t)) = none :=
    List.find?_eq_none.mpr fun entry hentry => by rw [hno entry hentry]; simp
  rw [display, displayFrom, hfind]
  rfl

/-- A text without escapes of its own is displayed as it was. -/
theorem display_encode {t : List ℕ} (ht : ¬ [92, 60] <:+: t) :
    display table (encode table t) = t := by
  induction t with
  | nil => rfl
  | cons c t ih =>
    have htail := ih fun hin => ht (hin.trans (List.suffix_cons c t).isInfix)
    rw [encode, List.flatMap_cons, ← encode]
    rcases @symbolOf_cases table c with ⟨hnone, hsymbol⟩ | ⟨entry, hentry, rfl, hsymbol⟩
    · rw [hsymbol, List.singleton_append, display_cons, htail]
      intro entry hentry
      obtain ⟨body, _, heq⟩ := h.escapeOf_eq hentry
      rw [← Bool.not_eq_true, List.isPrefixOf_iff_prefix, heq]
      rintro ⟨back, hback⟩
      obtain ⟨rfl, hrest⟩ := List.cons.inj hback
      cases t with
      | nil => cases hrest
      | cons d t =>
        rw [encode, List.flatMap_cons] at hrest
        rcases @symbolOf_cases table d with ⟨_, hd⟩ | ⟨entry', hentry', _, hd⟩
        · rw [hd] at hrest
          obtain ⟨rfl, _⟩ := List.cons.inj hrest
          exact ht ⟨[], t, rfl⟩
        · obtain ⟨body', _, heq'⟩ := h.escapeOf_eq hentry'
          rw [hd, heq'] at hrest
          cases hrest
    · rw [hsymbol, h.display_escapeOf hentry, htail]

/-- A text in characters that stand for themselves and in escapes is written as it was. -/
theorem encode_display {t : List ℕ} (ht : ∀ c ∈ t, table.lookup c = none) :
    encode table (display table t) = t := by
  induction hn : t.length using Nat.strongRecOn generalizing t with
  | ind n ih =>
    cases t with
    | nil => rfl
    | cons c t =>
      by_cases hno : ∀ entry ∈ table, (escapeOf entry).isPrefixOf (c :: t) = false
      · rw [display_cons hno, encode, List.flatMap_cons, ← encode,
          symbolOf_of_lookup_none (ht c List.mem_cons_self),
          ih t.length (by rw [← hn]; exact Nat.lt_succ_self _)
            (fun d hd => ht d (List.mem_cons_of_mem c hd)) rfl]
        rfl
      · obtain ⟨entry, hnot⟩ := not_forall.mp hno
        obtain ⟨hentry, hleads⟩ := Classical.not_imp.mp hnot
        obtain ⟨rest, hrest⟩ := List.isPrefixOf_iff_prefix.mp (eq_true_of_ne_false hleads)
        obtain ⟨body, _, heq⟩ := h.escapeOf_eq hentry
        rw [← hrest] at ht hn ⊢
        have hshort : rest.length < n := by
          rw [← hn, heq, List.length_append]
          simp only [List.length_cons]
          omega
        rw [h.display_escapeOf hentry, encode, List.flatMap_cons, ← encode, h.symbolOf_code hentry,
          ih rest.length hshort (fun d hd => ht d (List.mem_append_right _ hd)) rfl]

end Canonical

theorem normaliseForIsabelle_ok (table : Dict ℕ Text) (text : List ℕ) :
    normaliseForIsabelle (.ok table) text =
      .ok (encode table (text.filter fun ch => !isSurrogate ch)) := by
  unfold normaliseForIsabelle
  split_ifs with hempty
  · rw [List.isEmpty_iff.mp hempty]
    rfl
  · dsimp only [Except.map]
    split_ifs with htable
    · rw [List.isEmpty_iff.mp htable, encode_of_forall fun _ _ => rfl]
    · rfl

/-- What is written has neither surrogates nor code points of the table, is not changed by a
second pass, and is displayed as the text was, unless the text had escapes of its own. -/
theorem normalise_faithful (h : Canonical table) (text : List ℕ) :
    ∃ written, normaliseForIsabelle (.ok table) text = .ok written ∧
      (∀ c ∈ written, isSurrogate c = false ∧ table.lookup c = none) ∧
      normaliseForIsabelle (.ok table) written = .ok written ∧
      (¬ [92, 60] <:+: (text.filter fun ch => !isSurrogate ch) →
        display table written = text.filter fun ch => !isSurrogate ch) := by
  have hkept : ∀ c ∈ text.filter fun ch => !isSurrogate ch, isSurrogate c = false := by
    intro c hc
    simpa using (List.mem_filter.mp hc).2
  refine ⟨_, normaliseForIsabelle_ok table text, fun c hc => h.mem_encode hkept hc, ?_,
    fun ht => h.display_encode ht⟩
  rw [normaliseForIsabelle_ok, List.filter_eq_self.mpr fun c hc => by
    simp [(h.mem_encode hkept hc).1]]
  rw [encode_of_forall fun c hc => (h.mem_encode hkept hc).2]

/-- A text in the notation of escapes comes back from its display. -/
theorem normalise_display (h : Canonical table) {text : List ℕ}
    (ht : ∀ c ∈ text, isSurrogate c = false ∧ table.lookup c = none) :
    normaliseForIsabelle (.ok table) (display table text) = .ok text := by
  have hdisplay : ∀ (skip : ℕ) (t : List ℕ), (∀ c ∈ t, isSurrogate c = false) →
      ∀ c ∈ displayFrom table skip t, isSurrogate c = false := by
    intro skip t
    induction t generalizing skip with
    | nil => exact fun _ c hc => by cases skip <;> cases hc
    | cons d t ih =>
      intro hall c hc
      have hrest : ∀ c ∈ t, isSurrogate c = false := fun c hc => hall c (List.mem_cons_of_mem d hc)
      cases skip with
      | succ skip => exact ih skip hrest c hc
      | zero =>
        rw [displayFrom] at hc
        split at hc
        · rename_i entry hfind
          rcases List.mem_cons.mp hc with rfl | hc
          · exact h.scalar entry (List.mem_of_find?_eq_some hfind)
          · exact ih _ hrest c hc
        · rcases List.mem_cons.mp hc with rfl | hc
          · exact hall _ List.mem_cons_self
          · exact ih _ hrest c hc
  rw [normaliseForIsabelle_ok, List.filter_eq_self.mpr fun c hc => by
    simp [hdisplay 0 text (fun d hd => (ht d hd).1) c hc],
    h.encode_display fun c hc => (ht c hc).2]

end Symbols

section Example

def forallName : Text := backslash :: "<forall>".toList

def symbolsFile : List SymbolLine :=
  [.other "# logic".toList,
    .coded "forall".toList [' '] [' '] "002200".toList "  group: logic".toList,
    .uncoded "proof".toList [' '] "group: document".toList]

theorem loadSymbolTable_forall :
    ∃ table, loadSymbolTable (symbolsFile.flatMap fun line => line.render ++ ['\n']) = .ok table ∧
      (0x2200, forallName) ∈ table := by
  obtain ⟨table, htable, hmem⟩ := @loadSymbolTable_lines symbolsFile
    (by
      intro line hline
      simp only [symbolsFile, List.mem_cons, List.not_mem_nil, or_false] at hline
      rcases hline with rfl | rfl | rfl
      · exact ⟨by decide, by decide⟩
      · exact ⟨by decide, by decide, ⟨by decide, by simp [isSpace]⟩, ⟨by decide, by simp [isSpace]⟩,
          ⟨by decide, List.all_eq_true.mp (by decide)⟩, by decide, forall_head?_cons (by decide)⟩
      · exact ⟨by decide, by decide, by simp [isSpace], by decide, ⟨'g', rfl, by decide⟩,
          by decide⟩)
    (by decide) (by decide)
  exact ⟨table, htable, (hmem _ _).mpr (by decide)⟩

def forallTable : Dict ℕ Text := [(0x2200, forallName)]

theorem canonical_forallTable : Canonical forallTable where
  codes := by decide
  names := by decide
  scalar := by decide
  escape entry hentry := by
    rw [List.mem_singleton.mp hentry]
    exact ⟨"forall".toList, by decide, rfl⟩
  plain entry hentry := by
    rw [List.mem_singleton.mp hentry]
    have hall : forallName.all (fun c => (forallTable.lookup c.toNat).isNone) = true := by decide
    exact fun c hc => by simpa using List.all_eq_true.mp hall c hc

theorem normalise_faithful_forall :
    ∃ written, normaliseForIsabelle (.ok forallTable) [0x2200, 0xD800, 120] = .ok written ∧
      display forallTable written = [0x2200, 120] := by
  obtain ⟨written, hwritten, _, _, hdisplay⟩ :=
    normalise_faithful canonical_forallTable [0x2200, 0xD800, 120]
  exact ⟨written, hwritten, hdisplay (by decide)⟩

theorem normalise_display_forall :
    normaliseForIsabelle (.ok forallTable) (display forallTable (forallName.map Char.toNat)) =
      .ok (forallName.map Char.toNat) :=
  normalise_display canonical_forallTable (by decide)

end Example

end UnicodeNormaliser
end IsabelleGym
