import IsabelleGym.TheoryParsing

/-!
# Words in a text

A word is searched with its boundaries. Where no word character follows, a text
can be cut: the word is found in the first part as it is found there alone, and
behind it with what stands before.
-/

namespace IsabelleGym
namespace TheoryParsing

open PythonStr

/-- The documented word characters of `re`: on ASCII the letters, the digits and the underscore;
white space is none anywhere. -/
structure WordChars (isWord : Char → Bool) : Prop where
  ascii : ∀ c : Char, c.toNat < 128 → isWord c = (c.isAlphanum || c = '_')
  space : ∀ c : Char, isSpace c = true → isWord c = false

theorem toNat_of_isAlphanum {c : Char} (h : c.isAlphanum = true) :
    48 ≤ c.toNat ∧ c.toNat ≤ 122 := by
  have hc : c.isAlphanum = (decide ('A'.val ≤ c.val ∧ c.val ≤ 'Z'.val) ||
      (decide ('a'.val ≤ c.val) && decide (c.val ≤ 'z'.val)) ||
      (decide ('0'.val ≤ c.val) && decide (c.val ≤ '9'.val))) := rfl
  rw [hc] at h
  simp only [Bool.or_eq_true, Bool.and_eq_true, decide_eq_true_eq, UInt32.le_iff_toNat_le] at h
  change (65 ≤ c.val.toNat ∧ c.val.toNat ≤ 90 ∨ 97 ≤ c.val.toNat ∧ c.val.toNat ≤ 122) ∨
    48 ≤ c.val.toNat ∧ c.val.toNat ≤ 57 at h
  change 48 ≤ c.val.toNat ∧ c.val.toNat ≤ 122
  omega

theorem toNat_of_isSpace {c : Char} (h : isSpace c = true) : c.toNat ≤ 32 ∨ 133 ≤ c.toNat := by
  simp only [isSpace, Bool.or_eq_true, Bool.and_eq_true, decide_eq_true_eq] at h
  omega

def asciiWordChar (c : Char) : Bool := c.isAlphanum || c = '_'

theorem wordChars_ascii : WordChars asciiWordChar where
  ascii _ _ := rfl
  space c hc := by
    have hbound := toNat_of_isSpace hc
    rw [asciiWordChar, Bool.or_eq_false_iff]
    constructor
    · rw [Bool.eq_false_iff]
      intro halpha
      have := toNat_of_isAlphanum halpha
      omega
    · rw [decide_eq_false_iff_not]
      rintro rfl
      cases hc

/-- A text that goes on with a character of another kind starts with a word as it does alone. -/
theorem isPrefixOf_append_of_head {p : Char → Bool} {w : Text} (hw : ∀ c ∈ w, p c = true)
    (a : Text) {b : Text} (hb : ∀ c ∈ b.head?, p c = false) :
    w.isPrefixOf (a ++ b) = w.isPrefixOf a := by
  induction w generalizing a with
  | nil => simp
  | cons d w ih =>
    cases a with
    | nil =>
      cases b with
      | nil => rfl
      | cons c b =>
        have hne : d ≠ c := by
          rintro rfl
          have hfalse := hb d rfl
          rw [hw d List.mem_cons_self] at hfalse
          cases hfalse
        simp [List.isPrefixOf, hne]
    | cons e a =>
      rw [List.cons_append, List.isPrefixOf, List.isPrefixOf,
        ih (fun c hc => hw c (List.mem_cons_of_mem d hc)) a]

theorem WordChars.isWord {isWord : Char → Bool} (h : WordChars isWord) {word : Text}
    (hword : ∀ c ∈ word, c.isAlphanum = true) : ∀ c ∈ word, isWord c = true := by
  intro c hc
  have hbound := toNat_of_isAlphanum (hword c hc)
  rw [h.ascii c (by omega), hword c hc, Bool.true_or]

section Words

variable {isWord : Char → Bool} {word : Text}

theorem wordAt_congr {before before' : Option Char} (h : before.any isWord = before'.any isWord)
    (t : Text) : wordAt isWord word before t = wordAt isWord word before' t := by
  rw [wordAt, wordAt, h]

theorem findWord_congr {before before' : Option Char} (h : before.any isWord = before'.any isWord)
    (t : Text) : findWord isWord word before t = findWord isWord word before' t := by
  cases t with
  | nil => rfl
  | cons c t => rw [findWord, findWord, wordAt_congr h]

variable (hne : word ≠ []) (hword : ∀ c ∈ word, isWord c = true)

include hword

theorem wordAt_append (before : Option Char) (a : Text) {b : Text}
    (hb : ∀ c ∈ b.head?, isWord c = false) :
    wordAt isWord word before (a ++ b) = wordAt isWord word before a := by
  rw [wordAt, wordAt, isPrefixOf_append_of_head hword a hb]
  cases hpre : word.isPrefixOf a with
  | false => simp
  | true =>
    have hle : word.length ≤ a.length := (List.isPrefixOf_iff_prefix.mp hpre).length_le
    rw [List.drop_append_of_le_length hle]
    have hany : ((a.drop word.length ++ b).head?.any isWord) =
        ((a.drop word.length).head?.any isWord) := by
      cases a.drop word.length with
      | cons c u => rfl
      | nil =>
        cases b with
        | nil => rfl
        | cons c u => simpa using hb c rfl
    rw [hany]

/-- A text is searched in two parts where no word character follows the first. -/
theorem findWord_append (before : Option Char) (a : Text) {b : Text}
    (hb : ∀ c ∈ b.head?, isWord c = false) :
    findWord isWord word before (a ++ b) =
      (findWord isWord word before a).or
        ((findWord isWord word (a.getLast?.or before) b).map (· + a.length)) := by
  induction a generalizing before with
  | nil =>
    rw [List.nil_append, findWord, Option.none_or]
    simp
  | cons c a ih =>
    have hhere := wordAt_append hword before (c :: a) hb
    rw [List.cons_append] at hhere ⊢
    rw [findWord, findWord, hhere]
    split_ifs
    · rfl
    · have hlast : a.getLast?.or (some c) = (c :: a).getLast?.or before := by
        rw [List.getLast?_cons]
        cases a.getLast? <;> rfl
      rw [ih (some c), hlast, List.length_cons]
      cases findWord isWord word (some c) a with
      | some i => rfl
      | none =>
        cases findWord isWord word ((c :: a).getLast?.or before) b with
        | none => rfl
        | some i => simp [Nat.add_assoc]

include hne in
theorem findWord_cons_of_not (before : Option Char) {c : Char} (hc : isWord c = false) (t : Text) :
    findWord isWord word before (c :: t) =
      (findWord isWord word (some c) t).map (· + 1) := by
  have hhere : wordAt isWord word before (c :: t) = false := by
    rw [wordAt]
    obtain ⟨d, w, rfl⟩ := List.exists_cons_of_ne_nil hne
    have hdc : d ≠ c := by
      rintro rfl
      rw [hword d List.mem_cons_self] at hc
      cases hc
    simp [List.isPrefixOf, hdc]
  rw [findWord, hhere]
  rfl

omit hword in
include hne in
/-- The word itself is found between characters of another kind. -/
theorem findWord_self {before : Option Char} (hbefore : before.any isWord = false) {t : Text}
    (ht : ∀ c ∈ t.head?, isWord c = false) :
    findWord isWord word before (word ++ t) = some 0 := by
  obtain ⟨d, w, rfl⟩ := List.exists_cons_of_ne_nil hne
  have hprefix : (d :: w).isPrefixOf (d :: w ++ t) = true :=
    List.isPrefixOf_iff_prefix.mpr (List.prefix_append _ _)
  have hhead : t.head?.any isWord = false := by
    cases t with
    | nil => rfl
    | cons c t => simpa using ht c rfl
  have hhere : wordAt isWord (d :: w) before (d :: w ++ t) = true := by
    rw [wordAt, hbefore, hprefix, List.drop_left, hhead]
    rfl
  rw [List.cons_append] at hhere ⊢
  rw [findWord, if_pos hhere]

include hne in
/-- In front of a character of another kind it does not matter what is before. -/
theorem findWord_congr_of_head {t : Text} (ht : ∀ c ∈ t.head?, isWord c = false)
    (before before' : Option Char) :
    findWord isWord word before t = findWord isWord word before' t := by
  cases t with
  | nil => rfl
  | cons c t =>
    have hc := ht c rfl
    rw [findWord_cons_of_not hne hword before hc, findWord_cons_of_not hne hword before' hc]

include hne in
/-- Characters of another kind in front are passed over. -/
theorem findWord_gap {gap : Text} (hgap : ∀ c ∈ gap, isWord c = false) (before : Option Char)
    (t : Text) :
    findWord isWord word before (gap ++ t) =
      (findWord isWord word (gap.getLast?.or before) t).map (· + gap.length) := by
  induction gap generalizing before with
  | nil => simp
  | cons c gap ih =>
    have hlast : gap.getLast?.or (some c) = (c :: gap).getLast?.or before := by
      rw [List.getLast?_cons]
      cases gap.getLast? <;> rfl
    rw [List.cons_append, findWord_cons_of_not hne hword before (hgap c List.mem_cons_self),
      ih fun d hd => hgap d (List.mem_cons_of_mem c hd), hlast, Option.map_map]
    rfl

omit hword in
theorem any_getLast?_gap {gap : Text} (hgap : ∀ c ∈ gap, isWord c = false) :
    (gap.getLast?.or none).any isWord = false := by
  cases hb : gap.getLast? with
  | none => rfl
  | some c => exact hgap c (List.mem_of_getLast? hb)

include hne in
theorem findWord_none_gap {gap : Text} (hgap : ∀ c ∈ gap, isWord c = false) (t : Text) :
    findWord isWord word none (gap ++ t) =
      (findWord isWord word none t).map (· + gap.length) := by
  have hlast : (gap.getLast?.or none).any isWord = (none : Option Char).any isWord :=
    any_getLast?_gap hgap
  rw [findWord_gap hne hword hgap, findWord_congr hlast]

include hne in
/-- The word behind characters of another kind. -/
theorem findWord_gap_self {gap : Text} (hgap : ∀ c ∈ gap, isWord c = false) {t : Text}
    (ht : ∀ c ∈ t.head?, isWord c = false) :
    findWord isWord word none (gap ++ (word ++ t)) = some gap.length := by
  rw [findWord_none_gap hne hword hgap, findWord_self hne rfl ht, Option.map_some, Nat.zero_add]

include hne in
/-- A text that ends in a character of another kind, with the word behind it. -/
theorem findWord_append_word (before : Option Char) (a : Text) {c : Char}
    (hc : isWord c = false) {t : Text} (ht : ∀ d ∈ t.head?, isWord d = false) :
    findWord isWord word before (a ++ c :: (word ++ t)) =
      (findWord isWord word before (a ++ [c])).or (some (a.length + 1)) := by
  have hhead : ∀ u : Text, ∀ d ∈ (c :: u).head?, isWord d = false := by
    intro u d hd
    obtain rfl : c = d := by simpa using hd
    exact hc
  have hself : findWord isWord word (some c) (word ++ t) = some 0 :=
    findWord_self hne (by simpa using hc) ht
  rw [findWord_append hword before a (hhead _), findWord_append hword before a (hhead _),
    findWord_cons_of_not hne hword _ hc, findWord_cons_of_not hne hword _ hc, hself, findWord]
  cases findWord isWord word before a with
  | some i => rfl
  | none => simp [Nat.add_comm]

end Words

/-- What is in front of a header that is no word moves its end. -/
theorem headerEnd_gap {isWord : Char → Bool} (hchars : WordChars isWord) {gap : Text}
    (hgap : ∀ c ∈ gap, isWord c = false) (t : Text) :
    headerEnd isWord (gap ++ t) = (headerEnd isWord t).map (· + gap.length) := by
  have hword : ∀ c ∈ "theory".toList, isWord c = true := hchars.isWord (by simp)
  rw [headerEnd, headerEnd, findWord_none_gap (by simp) hword hgap]
  cases findWord isWord "theory".toList none t with
  | none => rfl
  | some i =>
    have hdrop : (gap ++ t).drop (i + gap.length + 6) = t.drop (i + 6) := by
      have hadd : i + gap.length + 6 = gap.length + (i + 6) := by omega
      rw [hadd, List.drop_length_add_append]
    rw [Option.map_some, Option.bind_some, Option.bind_some, hdrop]
    cases findWord isWord "begin".toList (some 'y') (t.drop (i + 6)) with
    | none => rfl
    | some j =>
      rw [Option.map_some, Option.map_some, Option.map_some, Option.some_inj]
      omega

end TheoryParsing
end IsabelleGym
