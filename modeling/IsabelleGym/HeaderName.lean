import IsabelleGym.OuterSyntax
import IsabelleGym.ThyInfo
import Mathlib.Data.List.TakeWhile

/-!
# The name check of a header that comes in several edits

The tokens of the edits are collected from `theory` on, and the third of them is
compared with the entered name. The third token is the name only where one token
stands between `theory` and the name.
-/

namespace IsabelleGym

namespace Token

def isComment (tok : Token) : Bool := tok.kind = .informalComment ∨ tok.kind = .formalComment

def isImproper (tok : Token) : Bool := tok.kind = .space ∨ tok.isComment

end Token

namespace ThyInfo

def sendText (I : Isabelle) (info : ThyInfo) (text : Text) : Bool × ThyInfo :=
  match info.updateGivenTextEdit I (.insert info.insertionPoint text) with
  | some info' => (true, info')
  | none => (false, info)

def sendTexts (I : Isabelle) (info : ThyInfo) : List Text → List Bool × ThyInfo
  | [] => ([], info)
  | text :: texts =>
    let sent := sendText I info text
    let rest := sendTexts I sent.2 texts
    (sent.1 :: rest.1, rest.2)

def AllAccepted (answers : List Bool) : Prop := ∀ answer ∈ answers, answer = true

end ThyInfo

/-- The texts of a theory header that is sent in several edits, none of which splits a token: any
tokens, `theory`, white space and comments, the name, and the header up to its `begin` at least. The
name is among the tokens of `edit`. -/
structure SentHeader (I : Isabelle) where
  before : List Text
  edit : Text
  after : List Text
  pre : List Token
  thy : Token
  gap : List Token
  name : Token
  rest : List Token
  tokens : (before ++ edit :: after).flatMap I.thyTokens = pre ++ thy :: (gap ++ name :: rest)
  pre_noTheory : ∀ tok ∈ pre, tok.isCommand "theory".toList = false
  thy_isTheory : thy.isCommand "theory".toList = true
  gap_isImproper : ∀ tok ∈ gap, tok.isImproper = true
  name_isName : name.isName = true
  rest_begins : ∃ tok ∈ rest, tok.isBegin = true
  completes_left : (before.flatMap I.thyTokens).length ≤ pre.length + gap.length + 1
  completes_right : pre.length + gap.length + 1 < ((before ++ [edit]).flatMap I.thyTokens).length

namespace SentHeader

open ThyInfo

variable {I : Isabelle}

/-- A header with the entered name is accepted in all its parts; of another the part with the name
is the first to be rejected, which changes nothing. -/
structure Checked (h : SentHeader I) (entered : Text) : Prop where
  accepts : h.name.content = entered →
    AllAccepted (sendTexts I { name := entered } (h.before ++ h.edit :: h.after)).1
  rejects : h.name.content ≠ entered →
    AllAccepted (sendTexts I { name := entered } h.before).1 ∧
      sendText I (sendTexts I { name := entered } h.before).2 h.edit =
        (false, (sendTexts I { name := entered } h.before).2)

/-- The third token from `theory` on, white space and comments counted. -/
def third (h : SentHeader I) : Option Token := (h.thy :: (h.gap ++ h.name :: h.rest))[2]?

/-- The third token decides as the name does, and for another name in the edit that has the
name. -/
structure ThirdDecides (h : SentHeader I) (entered : Text) : Prop where
  content : h.third.map Token.content = some entered ↔ h.name.content = entered
  edit : h.name.content ≠ entered →
    (h.before.flatMap I.thyTokens).length ≤ h.pre.length + 2 ∧
      h.pre.length + 2 < ((h.before ++ [h.edit]).flatMap I.thyTokens).length

end SentHeader

namespace ThyInfo

variable {I : Isabelle} {entered : Text} {texts : List Text} {info : ThyInfo}

def headerTokens (I : Isabelle) (texts : List Text) : List Token :=
  (texts.flatMap I.thyTokens).dropWhile (fun tok => !tok.isCommand "theory".toList)

/-- No third token, or one with the entered name. -/
def ThirdFits (entered : Text) (tokens : List Token) : Prop :=
  ∀ tok ∈ tokens[2]?, tok.content = entered

structure Tracks (I : Isabelle) (entered : Text) (texts : List Text) (info : ThyInfo) : Prop where
  name : info.name = entered
  unprocessed : info.headerProcessed = false
  tokens : info.accumulatedThyHeaderTokens = headerTokens I texts
  verified : info.currentStatus.frame.inputThyNameVerified = (headerTokens I texts)[2]?.isSome
  fits : ThirdFits entered (headerTokens I texts)

theorem tracks_nil (I : Isabelle) (entered : Text) : Tracks I entered [] { name := entered } :=
  ⟨rfl, rfl, rfl, rfl, by simp [ThirdFits, headerTokens]⟩

theorem inputThyName_eq (f : Frame) :
    ThyStatus.inputThyName f = f.accumulatedThyHeaderTokens[2]?.map Token.content := by
  rw [ThyStatus.inputThyName]
  match f.accumulatedThyHeaderTokens with
  | [] => rfl
  | [_] => rfl
  | [_, _] => rfl
  | _ :: _ :: _ :: _ => rfl

theorem headerTokens_concat (I : Isabelle) (texts : List Text) (text : Text) :
    headerTokens I (texts ++ [text]) = headerTokens I texts ++
      getThyHeaderTokens I text (headerTokens I texts).isEmpty := by
  rw [headerTokens, List.flatMap_append, List.flatMap_singleton, List.dropWhile_append,
    ← headerTokens]
  cases headerTokens I texts <;> rfl

theorem third_headerTokens_append {tok : Token} (h : (headerTokens I texts)[2]? = some tok)
    (more : List Text) : (headerTokens I (texts ++ more))[2]? = some tok := by
  rw [headerTokens, List.flatMap_append, List.dropWhile_append, ← headerTokens]
  have hne : (headerTokens I texts).isEmpty = false := by
    cases htokens : headerTokens I texts with
    | nil => simp [htokens] at h
    | cons _ _ => rfl
  rw [hne]
  obtain ⟨hlt, -⟩ := List.getElem?_eq_some_iff.mp h
  simpa [List.getElem?_append_left hlt] using h

theorem ThirdFits.of_append {more : List Text}
    (h : ThirdFits entered (headerTokens I (texts ++ more))) :
    ThirdFits entered (headerTokens I texts) :=
  fun tok htok => h tok (third_headerTokens_append htok more)

theorem Tracks.thirdFits_iff (h : Tracks I entered texts info) {tokens : List Token}
    {tok : Token} (htok : tokens[2]? = some tok) :
    ThirdFits entered tokens ↔ info.name = tok.content := by
  simp [ThirdFits, htok, h.name, eq_comm]

/-- The check of one text: once there is a third token, it has to fit. -/
theorem Tracks.checkHeader (h : Tracks I entered texts info) (text : Text) :
    (ThirdFits entered (headerTokens I (texts ++ [text])) →
      info.checkHeader I (.insert info.insertionPoint text) =
        some { info.currentStatus.frame with
          accumulatedThyHeaderTokens := headerTokens I (texts ++ [text])
          inputThyNameVerified := (headerTokens I (texts ++ [text]))[2]?.isSome }) ∧
    (¬ ThirdFits entered (headerTokens I (texts ++ [text])) →
      info.checkHeader I (.insert info.insertionPoint text) = none) := by
  have hframe : (info.withHeaderTokens I (.insert info.insertionPoint text)) =
      { info.currentStatus.frame with
        accumulatedThyHeaderTokens := headerTokens I (texts ++ [text]) } := by
    rw [withHeaderTokens, h.tokens, EditScript.Edit.insert_text, headerTokens_concat]
  have hverified := h.verified
  rw [ThyInfo.checkHeader, h.unprocessed, if_neg Bool.false_ne_true, hframe, verifyThyName,
    inputThyName_eq, hverified]
  cases hold : (headerTokens I texts)[2]? with
  | some tok =>
    -- The name was verified before and is not looked at again.
    have hnew := third_headerTokens_append hold [text]
    rw [hold] at hverified
    refine ⟨fun _ => ?_, fun hnot => ?_⟩
    · have hkept : info.currentStatus.frame.inputThyNameVerified = true := hverified
      rw [hnew, Option.isSome_some, if_pos rfl, ← hkept]
    · have hfits := (h.thirdFits_iff hold).mp h.fits
      exact absurd ((h.thirdFits_iff hnew).mpr hfits) hnot
  | none =>
    rw [hold] at hverified
    rw [Option.isSome_none, if_neg Bool.false_ne_true]
    cases hnew : (headerTokens I (texts ++ [text]))[2]? with
    | none =>
      refine ⟨fun _ => ?_, fun hnot => absurd (by simp [ThirdFits, hnew]) hnot⟩
      have hkept : info.currentStatus.frame.inputThyNameVerified = false := hverified
      rw [Option.map_none, Option.isSome_none, ← hkept]
    | some tok =>
      rw [h.thirdFits_iff hnew]
      exact ⟨fun hname => if_pos hname, fun hname => if_neg hname⟩

/-- What one text does: it is accepted exactly when the third token, if it is there now, fits. -/
theorem Tracks.sendText (h : Tracks I entered texts info) (text : Text) :
    (ThirdFits entered (headerTokens I (texts ++ [text])) →
        (sendText I info text).1 = true ∧
          Tracks I entered (texts ++ [text]) (sendText I info text).2) ∧
      (¬ ThirdFits entered (headerTokens I (texts ++ [text])) →
        sendText I info text = (false, info)) := by
  obtain ⟨haccepted, hrejected⟩ := h.checkHeader text
  constructor
  · intro hfits
    rw [ThyInfo.sendText, updateGivenTextEdit, haccepted hfits, Option.map_some]
    exact ⟨rfl, h.name, h.unprocessed, rfl, rfl, hfits⟩
  · intro hnot
    rw [ThyInfo.sendText, updateGivenTextEdit, hrejected hnot, Option.map_none]

/-- All texts are accepted exactly when the third token of all of them fits, if there is one. -/
theorem Tracks.sendTexts (h : Tracks I entered texts info) (more : List Text) :
    (AllAccepted (sendTexts I info more).1 ↔ ThirdFits entered (headerTokens I (texts ++ more))) ∧
      (ThirdFits entered (headerTokens I (texts ++ more)) →
        Tracks I entered (texts ++ more) (sendTexts I info more).2) := by
  induction more generalizing texts info with
  | nil =>
    rw [List.append_nil]
    exact ⟨iff_of_true (by simp [ThyInfo.sendTexts, AllAccepted]) h.fits, fun _ => h⟩
  | cons text more ih =>
    have hassoc : texts ++ text :: more = (texts ++ [text]) ++ more := by simp
    rw [hassoc]
    by_cases hfits : ThirdFits entered (headerTokens I (texts ++ [text]))
    · obtain ⟨hanswer, htracks⟩ := (h.sendText text).1 hfits
      obtain ⟨hmore, hlast⟩ := ih htracks
      refine ⟨?_, hlast⟩
      rw [← hmore]
      simp [ThyInfo.sendTexts, AllAccepted, hanswer]
    · have hanswer := (h.sendText text).2 hfits
      have hnot : ¬ ThirdFits entered (headerTokens I ((texts ++ [text]) ++ more)) :=
        fun hall => hfits hall.of_append
      refine ⟨iff_of_false (fun hall => ?_) hnot, fun hall => absurd hall hnot⟩
      have htrue := hall _ (List.mem_cons_self : _ ∈ (ThyInfo.sendTexts I info (text :: more)).1)
      simp [hanswer] at htrue

end ThyInfo

namespace SentHeader

open ThyInfo

variable {I : Isabelle} (h : SentHeader I)

/-- The third token of a part of the header: it is there as soon as the part is long enough. -/
theorem third_headerTokens (part more : List Text)
    (hpart : part ++ more = h.before ++ h.edit :: h.after) :
    (headerTokens I part)[2]? =
      if h.pre.length + 2 < (part.flatMap I.thyTokens).length then h.third else none := by
  have htokens := h.tokens
  rw [← hpart, List.flatMap_append] at htokens
  have htake : part.flatMap I.thyTokens =
      (h.pre ++ h.thy :: (h.gap ++ h.name :: h.rest)).take (part.flatMap I.thyTokens).length := by
    rw [← htokens, List.take_left]
  have hpre : ∀ n, (h.pre.take n).dropWhile
      (fun tok => !tok.isCommand "theory".toList) = [] := by
    intro n
    rw [List.dropWhile_eq_nil_iff]
    intro tok htok
    rw [h.pre_noTheory tok (List.mem_of_mem_take htok), Bool.not_false]
  generalize (part.flatMap I.thyTokens).length = n at htake
  rw [headerTokens, htake, List.take_append, List.dropWhile_append, hpre, List.isEmpty_nil,
    if_pos rfl, third]
  cases hn : n - h.pre.length with
  | zero =>
    rw [if_neg (by omega)]
    rfl
  | succ k =>
    rw [List.take_succ_cons,
      List.dropWhile_cons_of_neg (by rw [h.thy_isTheory]; exact Bool.false_ne_true),
      ← List.take_succ_cons, List.getElem?_take]
    have hiff : 2 < k + 1 ↔ h.pre.length + 2 < n := by omega
    simp only [hiff]

theorem exists_third : ∃ tok, h.third = some tok := by
  obtain ⟨tok, htok, -⟩ := h.rest_begins
  have hpos : 0 < h.rest.length := List.length_pos_of_mem htok
  refine ⟨_, List.getElem?_eq_getElem ?_⟩
  simp
  omega

theorem length_tokens :
    h.pre.length + 2 < ((h.before ++ h.edit :: h.after).flatMap I.thyTokens).length := by
  obtain ⟨tok, htok, -⟩ := h.rest_begins
  have hpos : 0 < h.rest.length := List.length_pos_of_mem htok
  rw [h.tokens]
  simp
  omega

/-- The check is right for a header exactly when the third token decides as its name does. -/
theorem checked_iff (entered : Text) : h.Checked entered ↔ h.ThirdDecides entered := by
  obtain ⟨tok, htok⟩ := h.exists_third
  have hstart := tracks_nil I entered
  have hall := h.third_headerTokens _ [] (List.append_nil (h.before ++ h.edit :: h.after))
  rw [if_pos h.length_tokens, htok] at hall
  have hbefore := h.third_headerTokens h.before (h.edit :: h.after) rfl
  have hedit := h.third_headerTokens (h.before ++ [h.edit]) h.after (by simp)
  rw [htok] at hbefore hedit
  have hcontent : h.third.map Token.content = some entered ↔ tok.content = entered := by
    rw [htok, Option.map_some, Option.some_inj]
  by_cases hname : h.name.content = entered
  · -- The third token is there at the end, and all texts are accepted when it fits.
    have hsent := (hstart.sendTexts (h.before ++ h.edit :: h.after)).1
    rw [List.nil_append] at hsent
    have hfits : ThirdFits entered (headerTokens I (h.before ++ h.edit :: h.after)) ↔
        tok.content = entered := by simp [ThirdFits, hall]
    constructor
    · intro hchecked
      have haccepted := hsent.mp (hchecked.accepts hname)
      exact ⟨iff_of_true (hcontent.mpr (hfits.mp haccepted)) hname, fun hne => absurd hname hne⟩
    · intro hthird
      have hfit := hfits.mpr (hcontent.mp (hthird.content.mpr hname))
      exact ⟨fun _ => hsent.mpr hfit, fun hne => absurd hname hne⟩
  · obtain ⟨hsent, htracks⟩ := hstart.sendTexts h.before
    rw [List.nil_append] at hsent htracks
    constructor
    · intro hchecked
      obtain ⟨haccepted, hrejected⟩ := hchecked.rejects hname
      have hfits := hsent.mp haccepted
      have hnot : ¬ ThirdFits entered (headerTokens I (h.before ++ [h.edit])) := by
        intro hfit
        have htrue := (((htracks hfits).sendText h.edit).1 hfit).1
        rw [hrejected] at htrue
        cases htrue
      split_ifs at hedit with hright
      · have hne : tok.content ≠ entered := fun heq => hnot (by simp [ThirdFits, hedit, heq])
        refine ⟨iff_of_false (mt hcontent.mp hne) hname, fun _ => ⟨?_, hright⟩⟩
        by_contra hleft
        rw [if_pos (by omega)] at hbefore
        exact hne (hfits tok hbefore)
      · exact absurd (by simp [ThirdFits, hedit]) hnot
    · intro hthird
      have hne : tok.content ≠ entered := fun heq => hname (hthird.content.mp (hcontent.mpr heq))
      obtain ⟨hleft, hright⟩ := hthird.edit hname
      rw [if_neg (by omega)] at hbefore
      rw [if_pos hright] at hedit
      have hfits : ThirdFits entered (headerTokens I h.before) := by simp [ThirdFits, hbefore]
      have hnot : ¬ ThirdFits entered (headerTokens I (h.before ++ [h.edit])) :=
        fun hfit => hne (hfit tok hedit)
      exact ⟨fun heq => absurd heq hname,
        fun _ => ⟨hsent.mpr hfits, ((htracks hfits).sendText h.edit).2 hnot⟩⟩

end SentHeader

namespace OuterSyntax

/-- The words that are comments; the other tokens are those of `token`. -/
def commentToken (word : Text) : Token :=
  if "(*".toList.isPrefixOf word && "*)".toList.isSuffixOf word then
    ⟨.informalComment, word, (word.drop 2).dropLast.dropLast⟩
  else token bootstrapCommands word

/-- `isabelle` with comments in a header. -/
def withComments : Isabelle :=
  { isabelle with thyTokens := fun text => (words text).map commentToken }

end OuterSyntax

namespace SentHeader

open ThyInfo OuterSyntax

/-- A header with a comment between `theory` and the name. -/
def headerText (comment name : Text) : Text :=
  "theory ".toList ++ comment ++ ' ' :: name ++ " imports Main begin".toList

def headerWords (comment name : Text) : List Text :=
  ["theory".toList, [' '], comment, [' '], name, [' '], "imports".toList, [' '], "Main".toList,
    [' '], "begin".toList]

theorem exists_sentHeader (comment name : Text)
    (hwords : words (headerText comment name) = headerWords comment name)
    (hcomment : (commentToken comment).isImproper = true)
    (hname : (commentToken name).isName = true) :
    ∃ h : SentHeader withComments, h.before = [] ∧ h.edit = headerText comment name ∧
      h.after = [] ∧ h.name = commentToken name := by
  have htokens : withComments.thyTokens (headerText comment name) =
      (headerWords comment name).map commentToken := by
    rw [← hwords]
    rfl
  refine ⟨⟨[], headerText comment name, [], [], commentToken "theory".toList,
    [commentToken [' '], commentToken comment, commentToken [' ']], commentToken name,
    [commentToken [' '], commentToken "imports".toList, commentToken [' '],
      commentToken "Main".toList, commentToken [' '], commentToken "begin".toList],
    ?_, by simp, by decide +kernel, ?_, hname, ⟨commentToken "begin".toList, by simp, by
      decide +kernel⟩, Nat.zero_le _, ?_⟩, rfl, rfl, rfl, rfl⟩
  · rw [List.nil_append, List.flatMap_singleton, htokens]
    rfl
  · have hspace : (commentToken [' ']).isImproper = true := by decide +kernel
    simp [hspace, hcomment]
  · rw [List.nil_append, List.flatMap_singleton, htokens]
    simp [headerWords]

/-- A comment between `theory` and the name is taken for the name: the header of `A` is rejected,
and with `A` in the comment a header of `B` is accepted for `A`. -/
theorem comment_taken_for_name :
    (∃ h : SentHeader withComments, h.before = [] ∧
      h.edit = headerText "(*c*)".toList ['A'] ∧ h.after = [] ∧ h.name = commentToken ['A'] ∧
      ¬ h.Checked ['A']) ∧
    ∃ h : SentHeader withComments, h.before = [] ∧
      h.edit = headerText "(*A*)".toList ['B'] ∧ h.after = [] ∧ h.name = commentToken ['B'] ∧
      ¬ h.Checked ['A'] := by
  constructor
  · obtain ⟨h, hbefore, hedit, hafter, hname⟩ := exists_sentHeader "(*c*)".toList ['A']
      (by decide +kernel) (by decide +kernel) (by decide +kernel)
    refine ⟨h, hbefore, hedit, hafter, hname, fun hchecked => ?_⟩
    have haccepts := hchecked.accepts (by rw [hname]; decide +kernel)
    have hrejected : (sendTexts withComments { name := ['A'] }
        [headerText "(*c*)".toList ['A']]).1 = [false] := by decide +kernel
    rw [hbefore, hedit, hafter, List.nil_append, hrejected] at haccepts
    exact Bool.false_ne_true (haccepts false List.mem_cons_self)
  · obtain ⟨h, hbefore, hedit, hafter, hname⟩ := exists_sentHeader "(*A*)".toList ['B']
      (by decide +kernel) (by decide +kernel) (by decide +kernel)
    refine ⟨h, hbefore, hedit, hafter, hname, fun hchecked => ?_⟩
    have hrejects := (hchecked.rejects (by rw [hname]; decide +kernel)).2
    have haccepted : (sendText withComments { name := ['A'] }
        (headerText "(*A*)".toList ['B'])).1 = true := by decide +kernel
    rw [hbefore, hedit, sendTexts] at hrejects
    rw [hrejects] at haccepted
    exact Bool.false_ne_true haccepted

end SentHeader
end IsabelleGym
