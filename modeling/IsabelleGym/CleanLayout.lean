import IsabelleGym.CleanCommands
import IsabelleGym.CompleteTheory

/-!
# Theories that are cleaned as they should be

The end of the header is searched in the text with its margin, and the text is
cut there without it: the cut is too far behind by the length of the margin. A
theory is cleaned as it should be exactly when white space makes up for that,
nothing but white space follows the final `end`, and the blocks are aligned with
the commands.
-/

namespace IsabelleGym
namespace CleanTheory

open PythonStr TheoryParsing TheorySplitter

section Newlines

theorem unixNewlines_cons_of_visible {c : Char} (hc : isSpace c = false) (t : Text) :
    unixNewlines (c :: t) = c :: unixNewlines t := by
  have hne : c ≠ '\r' := by
    rintro rfl
    cases hc
  rw [unixNewlines_cons fun heq => absurd heq hne, if_neg hne]

theorem head_flatten {ps : List Text} (hps : ∀ p ∈ ps, ∃ c t, p = c :: t ∧ isSpace c = false) :
    ∀ c ∈ ps.flatten.head?, isSpace c = false := by
  cases ps with
  | nil => simp
  | cons p ps =>
    obtain ⟨c, t, rfl, hc⟩ := hps p List.mem_cons_self
    intro d hd
    obtain rfl : c = d := by simpa using hd
    exact hc

theorem unixNewlines_flatten {ps : List Text}
    (hps : ∀ p ∈ ps, ∃ c t, p = c :: t ∧ isSpace c = false) :
    unixNewlines ps.flatten = (ps.map unixNewlines).flatten := by
  induction ps with
  | nil => rfl
  | cons p ps ih =>
    have hrest : ∀ q ∈ ps, ∃ c t, q = c :: t ∧ isSpace c = false := fun q hq =>
      hps q (List.mem_cons_of_mem p hq)
    have hhead : ps.flatten.head? ≠ some '\n' := fun hhead =>
      absurd (head_flatten hrest '\n' hhead) (by decide)
    rw [List.flatten_cons, unixNewlines_append_of_head fun _ => hhead, ih hrest, List.map_cons,
      List.flatten_cons]

theorem isDocCommand_unixNewlines (p : Text) : isDocCommand (unixNewlines p) = isDocCommand p := by
  have hkeyword : ∀ t : Text, (unixNewlines t).takeWhile isKeywordChar =
      t.takeWhile isKeywordChar := by
    intro t
    induction t with
    | nil => rfl
    | cons c t ih =>
      by_cases hc : c = '\r'
      · have hreturn : isKeywordChar '\r' = false := isKeywordChar_of_isSpace rfl
        have hnewline : isKeywordChar '\n' = false := isKeywordChar_of_isSpace rfl
        subst hc
        rw [List.takeWhile_cons_of_neg (by simp [hreturn])]
        by_cases hhead : t.head? = some '\n'
        · obtain ⟨u, rfl⟩ := List.head?_eq_some_iff.mp hhead
          rw [unixNewlines_return_newline, List.takeWhile_cons_of_neg (by simp [hnewline])]
        · rw [unixNewlines_cons fun _ => hhead, if_pos rfl,
            List.takeWhile_cons_of_neg (by simp [hnewline])]
      · rw [unixNewlines_cons fun heq => absurd heq hc, if_neg hc, List.takeWhile_cons,
          List.takeWhile_cons, ih]
  rw [isDocCommand, hkeyword, isDocCommand]

/-- What the splitter reads of the commands, and the white space behind. -/
theorem exists_blank {ps : List Text} (hps : ∀ p ∈ ps, ∃ c t, p = c :: t ∧ isSpace c = false) :
    ∃ blank, (ps.map unixNewlines).flatten = strip (unixNewlines (strip ps.flatten)) ++ blank ∧
      ∀ c ∈ blank, isSpace c = true := by
  obtain ⟨trail, htrail, hblank⟩ := exists_strip_append (head_flatten hps)
  have hstripped : ∀ c ∈ (unixNewlines (strip ps.flatten)).head?, isSpace c = false := by
    cases hs : strip ps.flatten with
    | nil => intro c hc; cases hc
    | cons c t =>
      have hc := isSpace_head_strip hs
      rw [unixNewlines_cons_of_visible hc]
      intro d hd
      obtain rfl : c = d := Option.some.inj hd
      exact hc
  have hlast : (strip ps.flatten).getLast? = some '\r' → trail.head? ≠ some '\n' := by
    intro hreturn
    obtain ⟨u, hu⟩ := List.getLast?_eq_some_iff.mp hreturn
    have hagain := strip_strip ps.flatten
    rw [hu, strip_concat_of_isSpace rfl] at hagain
    have hlength := CompleteTheory.length_strip_le u
    rw [hagain, List.length_append, List.length_singleton] at hlength
    omega
  obtain ⟨rest, hrest, hrestBlank⟩ := exists_strip_append hstripped
  refine ⟨rest ++ unixNewlines trail, ?_, ?_⟩
  · rw [← unixNewlines_flatten hps]
    conv_lhs => rw [htrail]
    rw [unixNewlines_append_of_head hlast, ← List.append_assoc, ← hrest]
  · intro c hc
    rcases List.mem_append.mp hc with hc | hc
    · exact hrestBlank c hc
    · refine visible_eq_nil_iff.mp ?_ c hc
      rw [visible_unixNewlines]
      exact visible_eq_nil_iff.mpr hblank

end Newlines

section Kept

theorem map_fst_marksFrom {isWord isAlpha : Char → Bool} (r : Reader) (kept : Bool) (t : Text) :
    (marksFrom isWord isAlpha r kept t).map Prod.fst = t := by
  induction t generalizing r kept with
  | nil => rfl
  | cons c t ih =>
    rw [marksFrom, List.map_cons]
    exact congrArg (List.cons c) (ih _ _)

theorem map_fst_commandMarks (ps : List Text) :
    (ps.flatMap commandMarks).map Prod.fst = ps.flatten := by
  induction ps with
  | nil => rfl
  | cons p ps ih =>
    have hp : (commandMarks p).map Prod.fst = p := by
      rw [commandMarks, marked, List.map_map]
      exact List.map_id p
    rw [List.flatMap_cons, List.map_append, hp, ih, List.flatten_cons]

/-- The commands, with a blank for every document command. -/
def keptCommands (ps : List Text) : Text := ps.flatMap fun p => if isDocCommand p then [' '] else p

theorem head_keptCommands {ps : List Text}
    (hps : ∀ p ∈ ps, ∃ c t, p = c :: t ∧ isSpace c = false) :
    (keptCommands ps).head? ≠ some '\n' := by
  cases ps with
  | nil => simp [keptCommands]
  | cons p ps =>
    obtain ⟨c, t, rfl, hc⟩ := hps p List.mem_cons_self
    have hne : c ≠ '\n' := by
      rintro rfl
      cases hc
    rw [keptCommands, List.flatMap_cons]
    cases isDocCommand (c :: t) with
    | true => simp
    | false => simpa using hne

theorem words_append_commandMarks {ps : List Text}
    (hps : ∀ p ∈ ps, ∃ c t, p = c :: t ∧ isSpace c = false) (a : Text) :
    words (a ++ Marks.blanked ((ps.map unixNewlines).flatMap commandMarks)) =
      words (a ++ keptCommands ps) := by
  induction ps generalizing a with
  | nil => rfl
  | cons p ps ih =>
    have hrest : ∀ q ∈ ps, ∃ c t, q = c :: t ∧ isSpace c = false := fun q hq =>
      hps q (List.mem_cons_of_mem p hq)
    have hne : unixNewlines p ≠ [] := by
      obtain ⟨c, t, rfl, hc⟩ := hps p List.mem_cons_self
      rw [unixNewlines_cons_of_visible hc]
      exact List.cons_ne_nil _ _
    rw [List.map_cons, List.flatMap_cons, Marks.blanked_append, keptCommands, List.flatMap_cons,
      ← keptCommands, commandMarks, isDocCommand_unixNewlines, marked, Marks.blanked, List.map_map]
    cases isDocCommand p with
    | true =>
      have hwords := ih hrest []
      rw [List.nil_append, List.nil_append] at hwords
      rw [words_append_append a (by simpa using hne) (by simp [isSpace]), if_pos rfl,
        words_append_append a (List.cons_ne_nil _ _) (by simp [isSpace]), hwords]
    | false =>
      have hkept : (unixNewlines p).map ((fun x : Char × Bool => if x.2 then x.1 else ' ') ∘
          fun c => (c, !false)) = unixNewlines p := List.map_id _
      have hjoin := words_append_unixNewlines a (p ++ keptCommands ps)
      rw [unixNewlines_append_of_head fun _ => head_keptCommands hrest, ← List.append_assoc,
        words_append_unixNewlines] at hjoin
      rw [hkept, if_neg Bool.false_ne_true, ← List.append_assoc, ih hrest, hjoin]

theorem words_blanked_commandMarks {ps : List Text}
    (hps : ∀ p ∈ ps, ∃ c t, p = c :: t ∧ isSpace c = false) :
    words (Marks.blanked ((ps.map unixNewlines).flatMap commandMarks)) = words (keptCommands ps) :=
  words_append_commandMarks hps []

theorem visible_keptCommands (ps : List Text) :
    visible (keptCommands ps) = (ps.filter fun p => !isDocCommand p).flatMap visible := by
  induction ps with
  | nil => rfl
  | cons p ps ih =>
    rw [keptCommands, List.flatMap_cons, ← keptCommands, visible_append, ih]
    cases hp : isDocCommand p with
    | true =>
      rw [List.filter_cons_of_neg (by simp [hp])]
      rfl
    | false =>
      rw [List.filter_cons_of_pos (by simp [hp]), List.flatMap_cons]
      rfl

end Kept

/-- A complete theory with the commands of its body, each with what follows it up to the next
one. -/
structure CommandTheory (isWord : Char → Bool) extends CompleteTheory isWord where
  indent : Text
  commands : List Text
  indent_blank : ∀ c ∈ indent, isSpace c = true
  commands_visible : ∀ p ∈ commands, ∃ c t, p = c :: t ∧ isSpace c = false
  body_eq : body = indent ++ commands.flatten

namespace CommandTheory

variable {isWord : Char → Bool} (isAlpha : Char → Bool) (h : CommandTheory isWord)

/-- The header is cut off behind its `begin`, and the characters of the blocks that are kept are
those of the commands that are kept, each at its place. What is written has the words of the
header, of the commands that are kept, and of the end, and so their characters. -/
structure Faithful (body out : Text) : Prop where
  parts : splitTheory isWord h.text = some (strip h.front ++ ['\n'], body, "end".toList)
  places : (splitTopLevelCommands isWord isAlpha body).flatMap
      (fun b => marked (!isDocBlock isWord b) (visible b)) =
    h.commands.flatMap fun p => marked (!isDocCommand p) (visible p)
  output : (cleanTheory isWord isAlpha h.text).map Prod.fst = some out
  words_eq : words out = words h.front ++ words (keptCommands h.commands) ++ words "end".toList
  visible_eq : visible out = visible h.front ++
    (h.commands.filter fun p => !isDocCommand p).flatMap visible ++ visible "end".toList

def CleansFaithfully : Prop := ∃ body out, h.Faithful isAlpha body out

def margin : Text := h.lead.takeWhile isSpace

/-- How far in front of the `begin` of the header there is one behind the first word `theory`. -/
def early : ℕ :=
  ((findWord isWord "theory".toList none h.beforeBegin).bind fun i =>
    (findWord isWord "begin".toList (some 'y') (h.beforeBegin.drop (i + 6))).map fun j =>
      (h.beforeBegin.drop (i + 6)).length - j).getD 0

/-- The margin is as long as the header is cut off early, and what it is longer is white space
behind the header; there is nothing but white space behind the final `end`; and the blocks are
aligned with the commands. -/
structure Layout : Prop where
  margin_long : h.early ≤ h.margin.length
  margin_blank : ∀ c ∈ (h.body ++ "end".toList).take (h.margin.length - h.early),
    isSpace c = true
  noComment : ∀ c ∈ h.trail, isSpace c = true
  aligned : Aligned isWord isAlpha (h.commands.map unixNewlines)

section Cut

variable {isAlpha}

theorem splitTheory_of_comment {t : Text} (htrail : rstrip h.trail = t ++ [')']) :
    splitTheory isWord h.text = none := by
  rw [splitTheory, h.not_isSuffixOf_of_comment htrail]
  cases headerEnd isWord h.text <;> rfl

theorem splitTheory_text (htrail : ∀ c ∈ h.trail, isSpace c = true) {n : ℕ}
    (hend : headerEnd isWord h.text = some n) :
    splitTheory isWord h.text =
      some (strip ((h.core ++ "begin".toList ++ (h.body ++ "end".toList)).take n) ++ ['\n'],
        strip ((h.core ++ "begin".toList ++ h.body).drop n), "end".toList) := by
  obtain ⟨htake, hdrop, hsuffix, hlast⟩ := h.take_strip_text htrail
  have hstripEnd : strip "end".toList = "end".toList := by decide
  rw [splitTheory, hend]
  dsimp only
  rw [htake, hdrop, hsuffix, hlast, hstripEnd, h.strip_text htrail, ← List.append_assoc h.core]
  rfl

variable (hchars : WordChars isWord)

include hchars

/-- Where the search in the text with its margin ends. -/
theorem exists_headerEnd : ∃ n, headerEnd isWord h.text = some n ∧
    n + h.early = (h.core ++ "begin".toList).length + h.margin.length := by
  obtain ⟨i, hle, hi, hfound⟩ := h.findWord_core hchars
  have hmargin : ∀ c ∈ h.margin, isWord c = false := fun c hc =>
    hchars.space c (List.mem_takeWhile_imp hc)
  have hlead : h.lead = h.margin ++ lstrip h.lead := List.takeWhile_append_dropWhile.symm
  have hfive : "begin".toList.length = 5 := rfl
  have hlong : i + 6 ≤ h.core.length := by
    have hsix : "theory".toList.length = 6 := rfl
    rw [CompleteTheory.core, List.length_append, List.length_append, hsix]
    omega
  have hbefore : h.beforeBegin = h.margin ++ h.core := by
    rw [CompleteTheory.beforeBegin, CompleteTheory.core, ← List.append_assoc h.margin, ← hlead]
  have hword : ∀ c ∈ "theory".toList, isWord c = true := hchars.isWord (by simp)
  have hearly : h.early = ((findWord isWord "begin".toList (some 'y')
      (h.core.drop (i + 6))).map fun j => (h.core.drop (i + 6)).length - j).getD 0 := by
    have hadd : i + h.margin.length + 6 = h.margin.length + (i + 6) := by omega
    rw [early, hbefore, findWord_none_gap (by simp) hword hmargin, hi, Option.map_some,
      Option.bind_some, hadd, List.drop_length_add_append]
  have htext : h.text = h.margin ++
      (h.core ++ ("begin".toList ++ (h.body ++ ("end".toList ++ h.trail)))) := by
    have hfront : h.front = h.beforeBegin ++ "begin".toList := by
      rw [CompleteTheory.front, CompleteTheory.beforeBegin]
      simp only [List.append_assoc]
    rw [CompleteTheory.text, hfront, hbefore]
    simp only [List.append_assoc]
  have hend := h.headerEnd_core hchars hle hfound (h.head_body ("end".toList ++ h.trail))
  refine ⟨_, by rw [htext, headerEnd_gap hchars hmargin, hend, Option.map_some], ?_⟩
  rw [hearly, List.length_append, hfive]
  cases hbegin : findWord isWord "begin".toList (some 'y') (h.core.drop (i + 6)) with
  | none =>
    rw [Option.getD_none, Option.map_none, Option.getD_none, List.length_drop]
    omega
  | some j =>
    have hj := (prefix_of_findWord hbegin).length_le
    rw [List.length_drop, List.length_drop, hfive] at hj
    rw [Option.getD_some, Option.map_some, Option.getD_some, List.length_drop]
    omega

omit hchars

/-- The header is cut off right exactly when what is cut off behind it is white space. -/
theorem header_iff {n : ℕ}
    (hn : n + h.early = (h.core ++ "begin".toList).length + h.margin.length) :
    strip ((h.core ++ "begin".toList ++ (h.body ++ "end".toList)).take n) = strip h.front ↔
      h.early ≤ h.margin.length ∧
        ∀ c ∈ (h.body ++ "end".toList).take (h.margin.length - h.early), isSpace c = true := by
  have hstrip : strip (h.core ++ "begin".toList) = h.core ++ "begin".toList := by
    rw [← h.strip_front, strip_strip]
  rw [h.strip_front]
  have htake : h.early ≤ h.margin.length →
      (h.core ++ "begin".toList ++ (h.body ++ "end".toList)).take n =
        h.core ++ "begin".toList ++
          (h.body ++ "end".toList).take (h.margin.length - h.early) := by
    intro hlong
    have hsum : n = (h.core ++ "begin".toList).length + (h.margin.length - h.early) := by omega
    rw [hsum, List.take_length_add_append]
  constructor
  · intro heq
    have hlong : h.early ≤ h.margin.length := by
      have hle := CompleteTheory.length_strip_le
        ((h.core ++ "begin".toList ++ (h.body ++ "end".toList)).take n)
      rw [heq, List.length_take] at hle
      omega
    refine ⟨hlong, visible_eq_nil_iff.mp ?_⟩
    have hvisible := congrArg visible heq
    rw [htake hlong, visible_strip, visible_append] at hvisible
    exact List.append_right_eq_self.mp hvisible
  · rintro ⟨hlong, hblank⟩
    rw [htake hlong, strip_append_blank _ hblank, hstrip]

/-- What is then left of the body are the commands. -/
theorem body_of_blank {n : ℕ}
    (hn : n + h.early = (h.core ++ "begin".toList).length + h.margin.length)
    (hlong : h.early ≤ h.margin.length)
    (hblank : ∀ c ∈ (h.body ++ "end".toList).take (h.margin.length - h.early), isSpace c = true) :
    strip ((h.core ++ "begin".toList ++ h.body).drop n) = strip h.commands.flatten := by
  have hsum : n = (h.core ++ "begin".toList).length + (h.margin.length - h.early) := by omega
  have hshort : h.margin.length - h.early ≤ h.body.length := by
    by_contra hlt
    have hmem : 'e' ∈ (h.body ++ "end".toList).take (h.margin.length - h.early) := by
      rw [List.take_append, List.take_of_length_le (by omega)]
      obtain ⟨k, hk⟩ : ∃ k, h.margin.length - h.early - h.body.length = k + 1 :=
        ⟨h.margin.length - h.early - h.body.length - 1, by omega⟩
      rw [hk]
      exact List.mem_append_right _ List.mem_cons_self
    cases hblank 'e' hmem
  rw [List.take_append_of_le_length hshort] at hblank
  have hbody := strip_blank_append hblank (h.body.drop (h.margin.length - h.early))
  rw [List.take_append_drop] at hbody
  rw [hsum, List.drop_length_add_append, ← hbody, h.body_eq,
    strip_blank_append h.indent_blank]

end Cut

section Body

variable {isAlpha}

theorem pieces_visible : ∀ p ∈ h.commands.map unixNewlines, ∃ c t, p = c :: t ∧
    isSpace c = false := by
  intro p hp
  obtain ⟨q, hq, rfl⟩ := List.mem_map.mp hp
  obtain ⟨c, t, rfl, hc⟩ := h.commands_visible q hq
  exact ⟨c, unixNewlines t, unixNewlines_cons_of_visible hc t, hc⟩

theorem pieces_ne_nil : ∀ p ∈ h.commands.map unixNewlines, p ≠ [] := by
  intro p hp hnil
  obtain ⟨c, t, hcons, -⟩ := h.pieces_visible p hp
  rw [hnil] at hcons
  cases hcons

variable (hchars : WordChars isWord) (halpha : ∀ c, isAlpha c = true → isWord c = true)

include hchars halpha

/-- The marks of the blocks of a body are those of its text with the newlines replaced. -/
theorem exists_marks : ∃ last blank, (∀ c ∈ blank, isSpace c = true) ∧
    marksFrom isWord isAlpha {} (!isDocBlock isWord (h.commands.map unixNewlines).flatten)
        (h.commands.map unixNewlines).flatten =
      marksFrom isWord isAlpha {}
        (!isDocBlock isWord (strip (unixNewlines (strip h.commands.flatten))))
        (strip (unixNewlines (strip h.commands.flatten))) ++ marked last blank := by
  obtain ⟨blank, hflatten, hblank⟩ := exists_blank h.commands_visible
  rw [hflatten, isDocBlock_append_blank hchars _ hblank]
  obtain ⟨last, hlast⟩ := marksFrom_append_blank hchars halpha {}
    (!isDocBlock isWord (strip (unixNewlines (strip h.commands.flatten))))
    (strip (unixNewlines (strip h.commands.flatten))) hblank
  exact ⟨last, blank, hblank, hlast⟩

theorem places_iff :
    (splitTopLevelCommands isWord isAlpha (strip h.commands.flatten)).flatMap
        (fun b => marked (!isDocBlock isWord b) (visible b)) =
      h.commands.flatMap (fun p => marked (!isDocCommand p) (visible p)) ↔
    Aligned isWord isAlpha (h.commands.map unixNewlines) := by
  have hmark : ∀ p : Text, marked (!isDocCommand p) (visible p) =
      Marks.seen (commandMarks (unixNewlines p)) := by
    intro p
    rw [commandMarks, isDocCommand_unixNewlines, Marks.seen_marked, visible_unixNewlines]
  have hcommands : h.commands.flatMap (fun p => marked (!isDocCommand p) (visible p)) =
      Marks.seen ((h.commands.map unixNewlines).flatMap commandMarks) := by
    rw [Marks.seen, List.filter_flatMap, List.flatMap_map, funext hmark]
    rfl
  obtain ⟨last, blank, hblank, hmarks⟩ := h.exists_marks hchars halpha
  have hseen := congrArg Marks.seen hmarks
  rw [Marks.seen_append, Marks.seen_marked, visible_eq_nil_iff.mpr hblank, marked, List.map_nil,
    List.append_nil] at hseen
  rw [blocks_seen hchars halpha, ← hseen, hcommands, aligned_iff_matches h.pieces_ne_nil]
  exact seen_marksFrom_iff hchars halpha {} _ h.pieces_visible

/-- Where the blocks are aligned their words are those of the commands that are kept. -/
theorem words_of_aligned (haligned : Aligned isWord isAlpha (h.commands.map unixNewlines)) :
    ((splitTopLevelCommands isWord isAlpha (strip h.commands.flatten)).filter
        fun b => !isDocBlock isWord b).flatMap words = words (keptCommands h.commands) := by
  obtain ⟨last, blank, hblank, hmarks⟩ := h.exists_marks hchars halpha
  have hblanked : ∀ c ∈ Marks.blanked (marked last blank), isSpace c = true := by
    intro c hc
    obtain ⟨x, hx, rfl⟩ := List.mem_map.mp hc
    obtain ⟨d, hd, rfl⟩ := List.mem_map.mp hx
    cases last with
    | true => exact hblank d hd
    | false => rfl
  have hwords := congrArg (fun m => words (Marks.blanked m)) hmarks
  rw [Marks.blanked_append, words_append_blank _ hblanked] at hwords
  have hseen := (seen_marksFrom_iff hchars halpha {}
    (!isDocBlock isWord (h.commands.map unixNewlines).flatten) h.pieces_visible).mpr
      ((aligned_iff_matches h.pieces_ne_nil).mp haligned)
  have hsame : (marksFrom isWord isAlpha {}
      (!isDocBlock isWord (h.commands.map unixNewlines).flatten)
      (h.commands.map unixNewlines).flatten).map Prod.fst =
        ((h.commands.map unixNewlines).flatMap commandMarks).map Prod.fst := by
    rw [map_fst_marksFrom, map_fst_commandMarks]
  rw [words_kept hchars halpha, ← hwords, Marks.words_blanked hsame hseen]
  exact words_blanked_commandMarks h.commands_visible

/-- A theory is cleaned as it should be exactly in this layout. -/
theorem cleansFaithfully_iff : h.CleansFaithfully isAlpha ↔ h.Layout isAlpha := by
  rcases CompleteTheory.rstrip_gap h.trail_isGap with htrail | ⟨t, ht⟩
  · obtain ⟨n, hend, hn⟩ := h.exists_headerEnd hchars
    have hsplit := h.splitTheory_text htrail hend
    constructor
    · rintro ⟨body, out, hfaithful⟩
      have hparts := hfaithful.parts
      rw [hsplit, Option.some_inj, Prod.mk.injEq, Prod.mk.injEq] at hparts
      obtain ⟨hheader, hbody, -⟩ := hparts
      obtain ⟨hlong, hblank⟩ := (h.header_iff hn).mp (List.append_cancel_right hheader)
      rw [h.body_of_blank hn hlong hblank] at hbody
      have hplaces := hfaithful.places
      rw [← hbody] at hplaces
      exact ⟨hlong, hblank, htrail, (h.places_iff hchars halpha).mp hplaces⟩
    · rintro ⟨hlong, hblank, -, haligned⟩
      rw [(h.header_iff hn).mpr ⟨hlong, hblank⟩, h.body_of_blank hn hlong hblank] at hsplit
      obtain ⟨out, hout, hwords⟩ := words_cleanTheory isAlpha hsplit
      have hheader : words (strip h.front ++ ['\n']) = words h.front := by
        rw [words_append_blank _ (by simp [isSpace]), words_strip]
      rw [h.words_of_aligned hchars halpha haligned, hheader] at hwords
      have hvisible := congrArg List.flatten hwords
      rw [List.flatten_append, List.flatten_append, flatten_words, flatten_words, flatten_words,
        flatten_words, visible_keptCommands] at hvisible
      exact ⟨_, out, hsplit, (h.places_iff hchars halpha).mpr haligned, hout, hwords, hvisible⟩
  · have hnot : ¬ ∀ c ∈ h.trail, isSpace c = true := by
      intro hall
      rw [rstrip_eq_nil_iff.mpr hall] at ht
      simp at ht
    refine iff_of_false ?_ fun hlayout => hnot hlayout.noComment
    rintro ⟨body, out, hfaithful⟩
    have hparts := hfaithful.parts
    rw [h.splitTheory_of_comment ht] at hparts
    cases hparts

end Body

/-- A theory with a given margin and given commands. -/
theorem exists_commandTheory {lead indent : Text} {commands : List Text} (hlead : IsGap lead)
    (hindent : ∀ c ∈ indent, isSpace c = true) (hne : indent ≠ [])
    (hcommands : ∀ p ∈ commands, ∃ c t, p = c :: t ∧ isSpace c = false)
    (hlast : ∀ c ∈ (indent ++ commands.flatten).getLast?, asciiWordChar c = false) :
    ∃ h : CommandTheory asciiWordChar, h.commands = commands ∧
      h.front = lead ++ "theory A imports Main begin".toList ∧
        h.text = lead ++ "theory A imports Main begin".toList ++ (indent ++ commands.flatten) ++
          "end".toList := by
  have hhead : ∀ c ∈ (indent ++ commands.flatten).head?, asciiWordChar c = false := by
    intro c hc
    rw [List.head?_append_of_ne_nil _ hne] at hc
    exact wordChars_ascii.space c (hindent c (List.mem_of_mem_head? hc))
  obtain ⟨h, hbody, hfront, htext⟩ := CompleteTheory.exists_completeTheory hlead
    (.space (c := ' ') rfl .nil) (by simp) (List.append_ne_nil_of_left_ne_nil hne _) hhead hlast
    .nil
  have hheader : lead ++ "theory A".toList ++ [' '] ++ "imports Main begin".toList =
      lead ++ "theory A imports Main begin".toList := by
    rw [List.append_assoc, List.append_assoc]
    rfl
  rw [hheader] at hfront htext
  rw [List.append_nil] at htext
  exact ⟨⟨h, indent, commands, hindent, hcommands, hbody⟩, rfl, hfront, htext⟩

theorem asciiWordChar_of_isAlpha (c : Char) (hc : c.isAlpha = true) : asciiWordChar c = true := by
  rw [asciiWordChar, Char.isAlphanum, hc]
  rfl

/-- A theory with a document command on a line of its own is cleaned as it should be. -/
theorem cleansFaithfully_iff_section :
    ∃ h : CommandTheory asciiWordChar,
      h.text = "theory A imports Main begin\ntext x\nlemma a: True ..\nend".toList ∧
        h.CleansFaithfully Char.isAlpha ∧ h.Layout Char.isAlpha := by
  have hcommands : ∀ p ∈ ["text x\n".toList, "lemma a: True ..\n".toList],
      ∃ c t, p = c :: t ∧ isSpace c = false := by simp [isSpace]
  have hindent : ∀ c ∈ ['\n'], isSpace c = true := by simp [isSpace]
  obtain ⟨h, hcommands, hfront, htext⟩ := exists_commandTheory .nil hindent (by simp) hcommands
    (by simp [asciiWordChar])
  have hfaithful : h.CleansFaithfully Char.isAlpha := by
    refine ⟨"text x\nlemma a: True ..".toList,
      "theory A imports Main begin\n\nlemma a: True ..\n\nend\n".toList, ?_, ?_, ?_, ?_, ?_⟩
    · rw [htext, hfront]
      decide +kernel
    · rw [hcommands]
      decide +kernel
    · rw [htext]
      decide +kernel
    · rw [hfront, hcommands]
      decide +kernel
    · rw [hfront, hcommands]
      decide +kernel
  exact ⟨h, htext, hfaithful,
    (h.cleansFaithfully_iff wordChars_ascii asciiWordChar_of_isAlpha).mp hfaithful⟩

/-- A margin of two newlines moves the first letter of a command into the header, and a document
command behind another one on a line is kept. -/
theorem command_split_by_margin :
    (∃ h : CommandTheory asciiWordChar,
      h.text = "\n\ntheory A imports Main begin\nlemma a: True ..\nend".toList ∧
        cleanTheory asciiWordChar Char.isAlpha h.text =
          some ("theory A imports Main begin\nl\n\nemma a: True ..\n\nend\n".toList, 1, 0) ∧
        ¬ h.CleansFaithfully Char.isAlpha) ∧
    ∃ h : CommandTheory asciiWordChar,
      h.text = "theory A imports Main begin\nlemma a: True .. text x\nend".toList ∧
        cleanTheory asciiWordChar Char.isAlpha h.text =
          some ("theory A imports Main begin\n\nlemma a: True .. text x\n\nend\n".toList, 1, 0) ∧
        ¬ h.CleansFaithfully Char.isAlpha := by
  have hindent : ∀ c ∈ ['\n'], isSpace c = true := by simp [isSpace]
  constructor
  · have hcommands : ∀ p ∈ ["lemma a: True ..\n".toList], ∃ c t, p = c :: t ∧
        isSpace c = false := by simp [isSpace]
    obtain ⟨h, -, hfront, htext⟩ := exists_commandTheory
      (.space (c := '\n') rfl (.space (c := '\n') rfl .nil)) hindent (by simp) hcommands
      (by simp [asciiWordChar])
    refine ⟨h, htext, ?_, ?_⟩
    · rw [htext]
      decide +kernel
    · rintro ⟨body, out, hfaithful⟩
      have hparts := congrArg (Option.map Prod.fst) hfaithful.parts
      rw [htext, hfront, Option.map_some] at hparts
      dsimp only at hparts
      revert hparts
      decide +kernel
  · have hcommands : ∀ p ∈ ["lemma a: True .. ".toList, "text x\n".toList],
        ∃ c t, p = c :: t ∧ isSpace c = false := by simp [isSpace]
    obtain ⟨h, hcommands, hfront, htext⟩ := exists_commandTheory .nil hindent (by simp) hcommands
      (by simp [asciiWordChar])
    have hout : cleanTheory asciiWordChar Char.isAlpha h.text =
        some ("theory A imports Main begin\n\nlemma a: True .. text x\n\nend\n".toList, 1, 0) := by
      rw [htext]
      decide +kernel
    refine ⟨h, htext, hout, ?_⟩
    rintro ⟨body, out, hfaithful⟩
    have houtput := hfaithful.output
    rw [hout, Option.map_some, Option.some_inj] at houtput
    have hvisible := hfaithful.visible_eq
    rw [← houtput, hfront, hcommands] at hvisible
    revert hvisible
    decide +kernel

end CommandTheory

end CleanTheory
end IsabelleGym
