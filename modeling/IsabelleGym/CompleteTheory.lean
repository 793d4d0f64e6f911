import IsabelleGym.HeaderText

/-!
# The parts of a complete theory

A complete theory is cut behind the first word `begin` that follows the first word
`theory`, and in front of an `end` that nothing follows. The searches see comments
and quoted names like any other text.
-/

namespace IsabelleGym
namespace TheoryParsing

open PythonStr

/-- A complete theory: a gap, the tokens of the header between `theory` and `begin`, a body, the
final `end` and a gap. -/
structure CompleteTheory (isWord : Char → Bool) where
  lead : Text
  tokens : HeaderTokens
  gap : Text
  body : Text
  trail : Text
  lead_isGap : IsGap lead
  tokens_valid : ∀ p ∈ tokens, p.2.Valid isWord
  tokens_spaced : HeaderTokens.Spaced true tokens
  gap_isGap : IsGap gap
  gap_spaced : HeaderTokens.endsWord true tokens = true → gap ≠ []
  body_ne_nil : body ≠ []
  body_head : ∀ c ∈ body.head?, isWord c = false
  body_last : ∀ c ∈ body.getLast?, isWord c = false
  trail_isGap : IsGap trail

namespace CompleteTheory

variable {isWord : Char → Bool} (h : CompleteTheory isWord)

def middle : Text := h.tokens.text ++ h.gap

/-- The text up to the `begin` of the header. -/
def front : Text := h.lead ++ ("theory".toList ++ (h.middle ++ "begin".toList))

def text : Text := h.front ++ (h.body ++ ("end".toList ++ h.trail))

/-- The header ends with its own `begin`, the end part is the final `end`, and the parts have all
characters up to there that are no white space. -/
def SplitsFaithfully : Prop :=
  ∃ body, splitCompleteTheory isWord h.text =
      some (strip h.front ++ ['\n'], body, "end".toList) ∧
    visible (strip h.front ++ ['\n']) ++ visible body ++ visible "end".toList =
      visible (h.front ++ h.body ++ "end".toList)

def beforeBegin : Text := h.lead ++ ("theory".toList ++ h.middle)

/-- Behind the first word `theory` there is no word `begin` in front of the one of the header, and
nothing but white space follows the final `end`. -/
structure Plain : Prop where
  noBegin : ∀ i, findWord isWord "theory".toList none h.beforeBegin = some i →
    findWord isWord "begin".toList (some 'y') (h.beforeBegin.drop (i + 6)) = none
  noComment : ∀ c ∈ h.trail, isSpace c = true

section Ends

/-- A text that ends in a gap with a comment ends in a comment once it is stripped. -/
theorem rstrip_gap {gap : Text} (hgap : IsGap gap) :
    (∀ c ∈ gap, isSpace c = true) ∨ ∃ t, rstrip gap = t ++ [')'] := by
  induction hgap with
  | nil => exact Or.inl fun c hc => absurd hc List.not_mem_nil
  | @space c t hc ht ih =>
    rcases ih with hspace | ⟨u, hu⟩
    · exact Or.inl (List.forall_mem_cons.mpr ⟨hc, hspace⟩)
    · refine Or.inr ⟨c :: u, ?_⟩
      have hne : rstrip t ≠ [] := by simp [hu]
      rw [← List.singleton_append, rstrip_append hne, hu]
      rfl
  | @comment a t ha ht ih =>
    right
    rcases ih with hspace | ⟨u, hu⟩
    · rw [rstrip_append_of_nil (rstrip_eq_nil_iff.mpr hspace)]
      rcases List.eq_nil_or_concat' a with rfl | ⟨b, c, rfl⟩
      · obtain ⟨u, hu, -⟩ := ha
        cases hu
      · have hlast := ha.getLast?
        rw [List.getLast?_concat, Option.some_inj] at hlast
        subst hlast
        refine ⟨b, ?_⟩
        rw [rstrip, List.rdropWhile_concat_neg _ _ _ (by decide)]
    · have hne : rstrip t ≠ [] := by simp [hu]
      exact ⟨a ++ u, by rw [rstrip_append hne, hu, List.append_assoc]⟩

theorem lstrip_append_cons (a : Text) {c : Char} (hc : isSpace c = false) (t : Text) :
    lstrip (a ++ c :: t) = lstrip a ++ c :: t := by
  rw [lstrip, lstrip, List.dropWhile_append]
  split_ifs with hempty
  · rw [List.isEmpty_iff.mp hempty, List.nil_append,
      List.dropWhile_cons_of_neg (by rw [hc]; exact Bool.false_ne_true)]
  · rfl

theorem rstrip_append_end (a : Text) : rstrip (a ++ "end".toList) = a ++ "end".toList := by
  have hend : a ++ "end".toList = (a ++ ['e', 'n']) ++ ['d'] := by
    rw [List.append_assoc]
    rfl
  rw [hend, rstrip, List.rdropWhile_concat_neg _ _ _ (by decide)]

theorem length_strip_le (t : Text) : (strip t).length ≤ t.length :=
  (List.rdropWhile_prefix isSpace _).length_le.trans (List.dropWhile_suffix _).length_le

end Ends

/-- The text in front of the `begin` of the header, from its first character on that is no white
space. -/
def core : Text := lstrip h.lead ++ ("theory".toList ++ h.middle)

theorem exists_lead : ∃ blanks, (∀ c ∈ blanks, isSpace c = true) ∧
    h.lead = blanks ++ lstrip h.lead :=
  ⟨h.lead.takeWhile isSpace, fun _ hc => List.mem_takeWhile_imp hc,
    List.takeWhile_append_dropWhile.symm⟩

theorem lstrip_front : lstrip h.front = h.core ++ "begin".toList := by
  have hcons : h.front = h.lead ++ 't' :: ("heory".toList ++ (h.middle ++ "begin".toList)) := rfl
  rw [hcons, lstrip_append_cons h.lead rfl, core, List.append_assoc, List.append_assoc]
  rfl

theorem strip_front : strip h.front = h.core ++ "begin".toList := by
  have hbegin : h.core ++ "begin".toList = (h.core ++ "begi".toList) ++ ['n'] := by
    rw [List.append_assoc]
    rfl
  rw [strip, lstrip_front, hbegin, rstrip, List.rdropWhile_concat_neg _ _ _ (by decide)]

theorem strip_text (htrail : ∀ c ∈ h.trail, isSpace c = true) :
    strip h.text = h.core ++ ("begin".toList ++ (h.body ++ "end".toList)) := by
  have hcons : h.text = h.lead ++ 't' :: ("heory".toList ++ (h.middle ++ "begin".toList) ++
      (h.body ++ ("end".toList ++ h.trail))) := by
    rw [text, front, List.append_assoc]
    rfl
  have hshape : lstrip h.lead ++ 't' :: ("heory".toList ++ (h.middle ++ "begin".toList) ++
      (h.body ++ ("end".toList ++ h.trail))) =
        (h.core ++ ("begin".toList ++ h.body)) ++ "end".toList ++ h.trail := by
    have htheory : h.core = lstrip h.lead ++ 't' :: ("heory".toList ++ h.middle) := rfl
    rw [htheory]
    generalize "heory".toList = theory
    generalize "begin".toList = beginWord
    generalize "end".toList = ending
    simp
  rw [strip, hcons, lstrip_append_cons h.lead rfl, hshape,
    rstrip_append_of_nil (rstrip_eq_nil_iff.mpr htrail), rstrip_append_end]
  simp only [List.append_assoc]

/-- A text whose last gap has a comment does not end with `end`. -/
theorem not_isSuffixOf_of_comment {t : Text} (htrail : rstrip h.trail = t ++ [')']) :
    "end".toList.isSuffixOf (strip h.text) = false := by
  have hcons : h.text = h.lead ++ 't' :: ("heory".toList ++ (h.middle ++ "begin".toList) ++
      (h.body ++ ("end".toList ++ h.trail))) := by
    rw [text, front, List.append_assoc]
    rfl
  have hne : rstrip h.trail ≠ [] := by simp [htrail]
  have hlast : ∃ u, strip h.text = u ++ [')'] := by
    have hassoc : lstrip h.lead ++ 't' :: ("heory".toList ++ (h.middle ++ "begin".toList) ++
        (h.body ++ ("end".toList ++ h.trail))) = (lstrip h.lead ++ 't' :: ("heory".toList ++
          (h.middle ++ "begin".toList) ++ (h.body ++ "end".toList))) ++ h.trail := by
      simp only [List.append_assoc, List.cons_append]
    rw [strip, hcons, lstrip_append_cons h.lead rfl, hassoc, rstrip_append hne, htrail]
    exact ⟨_, (List.append_assoc _ _ _).symm⟩
  obtain ⟨u, hu⟩ := hlast
  rw [Bool.eq_false_iff, hu]
  intro hs
  obtain ⟨v, hv⟩ := List.isSuffixOf_iff_suffix.mp hs
  have hlast := congrArg List.getLast? hv
  simp at hlast

theorem splitCompleteTheory_of_comment {t : Text} (htrail : rstrip h.trail = t ++ [')']) :
    splitCompleteTheory isWord h.text = none := by
  rw [splitCompleteTheory, h.not_isSuffixOf_of_comment htrail]
  cases headerEnd isWord (strip h.text) <;> rfl

/-- The end part of a text that ends with `end`, and what is in front of it. -/
theorem take_strip_text (htrail : ∀ c ∈ h.trail, isSpace c = true) :
    (strip h.text).take ((strip h.text).length - 3) = h.core ++ "begin".toList ++ h.body ∧
      (strip h.text).drop ((strip h.text).length - 3) = "end".toList ∧
      "end".toList.isSuffixOf (strip h.text) = true ∧
      (h.core ++ "begin".toList ++ h.body).getLast?.any isWord = false := by
  have hthree : "end".toList.length = 3 := rfl
  have hassoc : strip h.text = (h.core ++ "begin".toList ++ h.body) ++ "end".toList := by
    rw [h.strip_text htrail]
    simp only [List.append_assoc]
  have hlength : (h.core ++ "begin".toList ++ h.body ++ "end".toList).length - 3 =
      (h.core ++ "begin".toList ++ h.body).length := by
    rw [List.length_append, hthree, Nat.add_sub_cancel]
  have hlast : (h.core ++ "begin".toList ++ h.body).getLast?.any isWord = false := by
    obtain ⟨b, c, hb⟩ := (List.eq_nil_or_concat' h.body).resolve_left h.body_ne_nil
    rw [hb, ← List.append_assoc, List.getLast?_concat, Option.any_some]
    exact h.body_last c (by rw [hb]; simp)
  rw [hassoc, hlength, List.take_left, List.drop_left]
  exact ⟨rfl, rfl, List.isSuffixOf_iff_suffix.mpr (List.suffix_append _ _), hlast⟩

/-- The parts, where the header is cut off at an end that is not behind its own. -/
theorem splitCompleteTheory_core (htrail : ∀ c ∈ h.trail, isSpace c = true) {n : ℕ}
    (hend : headerEnd isWord (h.core ++ ("begin".toList ++ (h.body ++ "end".toList))) = some n)
    (hn : n ≤ h.core.length + 5) :
    splitCompleteTheory isWord h.text =
      some (strip ((h.core ++ "begin".toList).take n) ++ ['\n'],
        strip ((h.core ++ "begin".toList).drop n ++ h.body), "end".toList) := by
  have hfive : "begin".toList.length = 5 := rfl
  obtain ⟨htake, hdrop, hsuffix, hlast⟩ := h.take_strip_text htrail
  have hlong : n ≤ (h.core ++ "begin".toList).length := by
    rw [List.length_append, hfive]
    exact hn
  have hshort : ¬ (strip h.text).length - 3 < n := by
    have hle := congrArg List.length htake
    rw [List.length_take, List.length_append] at hle
    omega
  have hstripEnd : strip "end".toList = "end".toList := by decide
  have hcut : (strip h.text).take n = (h.core ++ "begin".toList).take n := by
    rw [h.strip_text htrail, ← List.append_assoc, List.take_append_of_le_length hlong]
  rw [← h.strip_text htrail] at hend
  rw [splitCompleteTheory, hend]
  dsimp only
  rw [htake, hdrop, hsuffix, hlast, if_neg hshort, hstripEnd, hcut,
    List.drop_append_of_le_length hlong]
  rfl

section Search

variable (hchars : WordChars isWord)

include hchars

theorem lead_last : ∀ c ∈ (lstrip h.lead).getLast?, isWord c = false := by
  intro c hc
  obtain ⟨blanks, -, hlead⟩ := h.exists_lead
  refine isWord_of_isSpace_or_close hchars (h.lead_isGap.last c ?_)
  rw [hlead, List.getLast?_append, Option.mem_def.mp hc]
  rfl

theorem middle_head : ∃ c t, h.middle = c :: t ∧ isWord c = false :=
  HeaderTokens.head_text hchars h.tokens_spaced h.tokens_valid h.gap_isGap h.gap_spaced

theorem middle_last : ∃ t c, h.middle = t ++ [c] ∧ isWord c = false :=
  HeaderTokens.last_text hchars h.tokens_valid h.gap_isGap h.gap_spaced fun _ => rfl

/-- The first word `theory` is the one of the header or stands in front of it. -/
theorem exists_theory : ∃ i ≤ (lstrip h.lead).length, ∀ (c : Char) (t : Text), isWord c = false →
    findWord isWord "theory".toList none (lstrip h.lead ++ ("theory".toList ++ c :: t)) =
      some i := by
  have hne : "theory".toList ≠ [] := by simp
  have hword : ∀ c ∈ "theory".toList, isWord c = true := hchars.isWord (by simp)
  obtain ⟨i, hi⟩ : ∃ i, findWord isWord "theory".toList none
      (lstrip h.lead ++ "theory".toList) = some i := by
    rcases List.eq_nil_or_concat' (lstrip h.lead) with hnil | ⟨l, d, hl⟩
    · rw [hnil, List.nil_append]
      have hself : findWord isWord "theory".toList none ("theory".toList ++ []) = some 0 :=
        findWord_self hne rfl (by simp)
      rw [List.append_nil] at hself
      exact ⟨0, hself⟩
    · have hd := h.lead_last hchars d (by rw [hl]; simp)
      have hsplit := findWord_append_word hne hword none l hd (t := []) (by simp)
      rw [hl, List.append_assoc, List.singleton_append]
      rw [List.append_nil] at hsplit
      rw [hsplit]
      cases findWord isWord "theory".toList none (l ++ [d]) with
      | some i => exact ⟨i, rfl⟩
      | none => exact ⟨l.length + 1, rfl⟩
  have hlength := (prefix_of_findWord hi).length_le
  have hsix : "theory".toList.length = 6 := rfl
  rw [List.length_drop, List.length_append, hsix] at hlength
  refine ⟨i, by omega, fun c t hc => ?_⟩
  have hhead : ∀ d ∈ (c :: t).head?, isWord d = false := by
    intro d hd
    obtain rfl : c = d := by simpa using hd
    exact hc
  rw [← List.append_assoc, findWord_append hword none _ hhead, hi, Option.some_or]

theorem findWord_core : ∃ i ≤ (lstrip h.lead).length,
    findWord isWord "theory".toList none h.core = some i ∧
      ∀ t, findWord isWord "theory".toList none (h.core ++ t) = some i := by
  obtain ⟨i, hi, hfound⟩ := h.exists_theory hchars
  obtain ⟨c, t, hmiddle, hc⟩ := h.middle_head hchars
  refine ⟨i, hi, ?_, fun u => ?_⟩
  · rw [core, hmiddle]
    exact hfound c t hc
  · rw [core, hmiddle, List.append_assoc, List.append_assoc, List.cons_append]
    exact hfound c (t ++ u) hc

/-- The condition on the text is one on the text without the white space in front. -/
theorem noBegin_iff {i : ℕ} (hi : findWord isWord "theory".toList none h.core = some i) :
    (∀ j, findWord isWord "theory".toList none h.beforeBegin = some j →
        findWord isWord "begin".toList (some 'y') (h.beforeBegin.drop (j + 6)) = none) ↔
      findWord isWord "begin".toList (some 'y') (h.core.drop (i + 6)) = none := by
  obtain ⟨blanks, hblanks, hlead⟩ := h.exists_lead
  have hne : "theory".toList ≠ [] := by simp
  have hword : ∀ c ∈ "theory".toList, isWord c = true := hchars.isWord (by simp)
  have hblanks' : ∀ c ∈ blanks, isWord c = false := fun c hc => hchars.space c (hblanks c hc)
  have htext : h.beforeBegin = blanks ++ h.core := by
    rw [beforeBegin, core, ← List.append_assoc blanks, ← hlead]
  have hfound : findWord isWord "theory".toList none h.beforeBegin = some (i + blanks.length) := by
    rw [htext, findWord_none_gap hne hword hblanks', hi, Option.map_some]
  have hdrop : h.beforeBegin.drop (i + blanks.length + 6) = h.core.drop (i + 6) := by
    have hadd : i + blanks.length + 6 = blanks.length + (i + 6) := by omega
    rw [htext, hadd, List.drop_length_add_append]
  constructor
  · intro hall
    have := hall _ hfound
    rwa [hdrop] at this
  · intro hnone j hj
    rw [hfound, Option.some_inj] at hj
    rw [← hj, hdrop, hnone]

omit hchars in
theorem head_body (t : Text) : ∀ c ∈ (h.body ++ t).head?, isWord c = false := by
  intro c hc
  rw [List.head?_append_of_ne_nil _ h.body_ne_nil] at hc
  exact h.body_head c hc

/-- The header that is cut off ends with the first word `begin` behind the first word `theory`,
which is at the latest the one of the header. -/
theorem headerEnd_core {i : ℕ} (hle : i ≤ (lstrip h.lead).length)
    (hfound : ∀ t, findWord isWord "theory".toList none (h.core ++ t) = some i) {t : Text}
    (ht : ∀ c ∈ t.head?, isWord c = false) :
    headerEnd isWord (h.core ++ ("begin".toList ++ t)) =
      some (((findWord isWord "begin".toList (some 'y') (h.core.drop (i + 6))).getD
        (h.core.drop (i + 6)).length) + (i + 6) + 5) := by
  obtain ⟨m, c, hmiddle, hc⟩ := h.middle_last hchars
  have hne : "begin".toList ≠ [] := by simp
  have hword : ∀ c ∈ "begin".toList, isWord c = true := hchars.isWord (by simp)
  have hbefore : i + 6 ≤ (lstrip h.lead ++ "theory".toList).length := by
    have hsix : "theory".toList.length = 6 := rfl
    rw [List.length_append, hsix]
    omega
  have hcore : h.core = (lstrip h.lead ++ "theory".toList) ++ (m ++ [c]) := by
    rw [core, hmiddle, List.append_assoc]
  have hrest : h.core.drop (i + 6) =
      ((lstrip h.lead ++ "theory".toList).drop (i + 6) ++ m) ++ [c] := by
    rw [hcore, List.drop_append_of_le_length hbefore, List.append_assoc]
  have hlong : i + 6 ≤ h.core.length := by
    rw [hcore, List.length_append]
    omega
  have hbegin := findWord_append_word hne hword (some 'y')
    ((lstrip h.lead ++ "theory".toList).drop (i + 6) ++ m) hc ht
  rw [← hrest] at hbegin
  have hsplit : (h.core ++ ("begin".toList ++ t)).drop (i + 6) =
      ((lstrip h.lead ++ "theory".toList).drop (i + 6) ++ m) ++ c :: ("begin".toList ++ t) := by
    rw [List.drop_append_of_le_length hlong, hrest, List.append_assoc, List.singleton_append]
  have hlength : (h.core.drop (i + 6)).length =
      ((lstrip h.lead ++ "theory".toList).drop (i + 6) ++ m).length + 1 := by
    rw [hrest, List.length_append]
    rfl
  rw [headerEnd, hfound, Option.bind_some, hsplit, hbegin, hlength]
  cases findWord isWord "begin".toList (some 'y') (h.core.drop (i + 6)) with
  | none =>
    rw [Option.none_or, Option.map_some, Option.getD_none, Option.some_inj]
    omega
  | some j =>
    rw [Option.some_or, Option.map_some, Option.getD_some, Option.some_inj]
    omega

/-- The parts are right exactly when the text is plain. -/
theorem splitsFaithfully_iff : h.SplitsFaithfully ↔ h.Plain := by
  obtain ⟨i, hle, hi, hfound⟩ := h.findWord_core hchars
  rcases rstrip_gap h.trail_isGap with htrail | ⟨t, ht⟩
  · have hfive : "begin".toList.length = 5 := rfl
    have hend := h.headerEnd_core hchars hle hfound (h.head_body "end".toList)
    have hlong : i + 6 ≤ h.core.length := by
      have hsix : "theory".toList.length = 6 := rfl
      rw [core, List.length_append, List.length_append, hsix]
      omega
    have hplain : h.Plain ↔
        findWord isWord "begin".toList (some 'y') (h.core.drop (i + 6)) = none := by
      rw [← h.noBegin_iff hchars hi]
      exact ⟨fun hp => hp.noBegin, fun hn => ⟨hn, htrail⟩⟩
    rw [hplain]
    cases hbegin : findWord isWord "begin".toList (some 'y') (h.core.drop (i + 6)) with
    | none =>
      rw [hbegin, Option.getD_none, List.length_drop] at hend
      have hn : h.core.length - (i + 6) + (i + 6) + 5 = (h.core ++ "begin".toList).length := by
        rw [List.length_append, hfive]
        omega
      rw [hn] at hend
      have hsplit := h.splitCompleteTheory_core htrail hend
        (by rw [List.length_append, hfive])
      rw [List.take_length, List.drop_length, List.nil_append, ← h.strip_front, strip_strip]
        at hsplit
      refine iff_of_true ⟨strip h.body, hsplit, ?_⟩ rfl
      have hnewline : visible ['\n'] = [] := rfl
      rw [visible_append, visible_strip, visible_strip, hnewline, List.append_nil, visible_append,
        visible_append]
    | some j =>
      rw [hbegin, Option.getD_some] at hend
      have hj := (prefix_of_findWord hbegin).length_le
      rw [List.length_drop, List.length_drop, hfive] at hj
      have hsplit := h.splitCompleteTheory_core htrail hend (by omega)
      refine iff_of_false ?_ (by simp)
      rintro ⟨body, hbody, -⟩
      rw [hsplit, Option.some_inj, Prod.mk.injEq] at hbody
      have hheader := congrArg List.length hbody.1
      have hshort := length_strip_le ((h.core ++ "begin".toList).take (j + (i + 6) + 5))
      rw [h.strip_front, List.length_append, List.length_append, List.length_append, hfive]
        at hheader
      rw [List.length_take] at hshort
      omega
  · have hnot : ¬ ∀ c ∈ h.trail, isSpace c = true := by
      intro hall
      rw [rstrip_eq_nil_iff.mpr hall] at ht
      simp at ht
    refine iff_of_false ?_ fun hp => hnot hp.noComment
    rintro ⟨body, hbody, -⟩
    rw [h.splitCompleteTheory_of_comment ht] at hbody
    cases hbody

end Search

/-- A theory with given gaps and a given body. -/
theorem exists_completeTheory {lead gap body trail : Text} (hlead : IsGap lead) (hgap : IsGap gap)
    (hne : gap ≠ []) (hbody : body ≠ []) (hhead : ∀ c ∈ body.head?, asciiWordChar c = false)
    (hlast : ∀ c ∈ body.getLast?, asciiWordChar c = false) (htrail : IsGap trail) :
    ∃ h : CompleteTheory asciiWordChar, h.body = body ∧
      h.front = lead ++ "theory A".toList ++ gap ++ "imports Main begin".toList ∧
        h.text = lead ++ "theory A".toList ++ gap ++ "imports Main begin".toList ++ body ++
          "end".toList ++ trail := by
  have hblank : IsGap [' '] := .space rfl .nil
  have hword : ∀ w : Text, w ≠ [] → w ≠ "begin".toList →
      (∀ c ∈ w, isSpace c = false ∧ c ≠ quote ∧ c ≠ '(' ∧ c ≠ ')') →
        (HeaderToken.word w).Valid asciiWordChar := fun w h₁ h₂ h₃ => ⟨h₁, h₂, h₃⟩
  refine ⟨⟨lead, [([' '], .word ['A']), (gap, .word ['i', 'm', 'p', 'o', 'r', 't', 's']),
    ([' '], .word ['M', 'a', 'i', 'n'])], [' '], body, trail, hlead, ?_, ?_, hblank, by simp,
    hbody, hhead, hlast, htrail⟩, rfl, ?_, ?_⟩
  · intro p hp
    simp only [List.mem_cons, List.not_mem_nil, or_false] at hp
    rcases hp with rfl | rfl | rfl <;>
      exact hword _ (by decide) (by decide) (by simp [isSpace, quote])
  · exact ⟨hblank, by simp, hgap, fun _ _ => hne, hblank, by simp, trivial⟩
  · simp [front, middle, HeaderToken.text]
  · simp [text, front, middle, HeaderToken.text]

/-- As above with nothing in front, and nothing but a blank in the body. -/
theorem exists_emptyTheory {gap trail : Text} (hgap : IsGap gap) (hne : gap ≠ [])
    (htrail : IsGap trail) :
    ∃ h : CompleteTheory asciiWordChar,
      h.front = "theory A".toList ++ gap ++ "imports Main begin".toList ∧
        h.text = "theory A".toList ++ gap ++ "imports Main begin end".toList ++ trail := by
  obtain ⟨h, -, hfront, htext⟩ := exists_completeTheory .nil hgap hne (List.cons_ne_nil ' ' [])
    (by simp [asciiWordChar]) (by simp [asciiWordChar]) htrail
  have hjoin : "imports Main begin end".toList =
      "imports Main begin".toList ++ ([' '] ++ "end".toList) := rfl
  refine ⟨h, hfront, ?_⟩
  rw [htext, hjoin]
  simp only [List.append_assoc, List.nil_append]

theorem splitsFaithfully_iff_blank :
    ∃ h : CompleteTheory asciiWordChar, h.text = "theory A imports Main begin end".toList ∧
      (h.SplitsFaithfully ↔ h.Plain) := by
  obtain ⟨h, -, htext⟩ := exists_emptyTheory (.space (c := ' ') rfl .nil) (by simp) .nil
  exact ⟨h, htext, h.splitsFaithfully_iff wordChars_ascii⟩

/-- A comment with `begin` in it ends the header, and a comment behind `end` hides it. -/
theorem comment_misleads_split :
    (∃ h : CompleteTheory asciiWordChar,
      h.text = "theory A(* begin *)imports Main begin end".toList ∧ ¬ h.SplitsFaithfully) ∧
    ∃ h : CompleteTheory asciiWordChar,
      h.text = "theory A imports Main begin end(**)".toList ∧ ¬ h.SplitsFaithfully := by
  constructor
  · have hcomment : IsGap "(* begin *)".toList := by
      have h := IsGap.comment (t := []) ⟨" begin *)".toList, rfl, by decide⟩ .nil
      rwa [List.append_nil] at h
    obtain ⟨h, hfront, htext⟩ := exists_emptyTheory hcomment (by simp) .nil
    refine ⟨h, htext, ?_⟩
    rintro ⟨body, hbody, -⟩
    rw [htext, hfront] at hbody
    have hsplit : (splitCompleteTheory asciiWordChar
        ("theory A".toList ++ "(* begin *)".toList ++ "imports Main begin end".toList ++ [])).map
          Prod.fst = some "theory A(* begin\n".toList := by decide +kernel
    rw [hbody, Option.map_some, Option.some_inj] at hsplit
    have hcut : strip ("theory A".toList ++ "(* begin *)imports Main begin".toList) ++ ['\n'] =
        "theory A(* begin\n".toList := hsplit
    exact absurd hcut (by decide +kernel)
  · have hcomment : IsGap "(**)".toList := by
      have h := IsGap.comment (t := []) ⟨"*)".toList, rfl, by decide⟩ .nil
      rwa [List.append_nil] at h
    obtain ⟨h, -, htext⟩ := exists_emptyTheory (.space (c := ' ') rfl .nil) (by simp) hcomment
    refine ⟨h, htext, ?_⟩
    rintro ⟨body, hbody, -⟩
    rw [htext] at hbody
    have hsplit : splitCompleteTheory asciiWordChar ("theory A".toList ++ [' '] ++
        "imports Main begin end".toList ++ "(**)".toList) = none := by decide +kernel
    rw [hsplit] at hbody
    cases hbody

end CompleteTheory

end TheoryParsing
end IsabelleGym
