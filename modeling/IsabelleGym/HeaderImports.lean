import IsabelleGym.HeaderTokens

/-!
# The name and the imports that are found

The name is what stands behind `theory` and white space, the imports are the tokens
up to the first word `begin`. Names that are apart are found when they are readable
and only then; of a name that is cut off only shorter tokens are left.
-/

namespace IsabelleGym
namespace TheoryParsing

open PythonStr

section Imports

variable {isWord : Char → Bool}

def cutAtBegin (isWord : Char → Bool) (t : Text) : Text :=
  ((findWord isWord "begin".toList none t).map t.take).getD t

def importsIn (isWord : Char → Bool) (t : Text) : List Text :=
  (tokensOf (cutAtBegin isWord t)).filter fun tok => !tok.isEmpty && !noise.contains tok

theorem isPrefix_cutAtBegin (isWord : Char → Bool) (t : Text) : cutAtBegin isWord t <+: t := by
  rw [cutAtBegin]
  cases findWord isWord "begin".toList none t with
  | none => exact List.prefix_refl t
  | some m => exact List.take_prefix m t

/-- The imports of a header whose word `imports` follows a gap. -/
theorem importsOf_gap (hchars : WordChars isWord) {gap : Text}
    (hgap : ∀ c ∈ gap, isSpace c = true) {t : Text} (ht : ∀ c ∈ t.head?, isWord c = false) :
    importsOf isWord (gap ++ ("imports".toList ++ t)) = importsIn isWord t := by
  have hne : "imports".toList ≠ [] := by simp
  have hfound : findWord isWord "imports".toList none (gap ++ ("imports".toList ++ t)) =
      some gap.length :=
    findWord_gap_self hne (hchars.isWord (by simp)) (fun c hc => hchars.space c (hgap c hc)) ht
  have hdrop : (gap ++ ("imports".toList ++ t)).drop (gap.length + 7) = t := by
    rw [List.drop_length_add_append]
    change ("imports".toList ++ t).drop "imports".toList.length = t
    exact List.drop_left
  rw [importsOf, hfound]
  dsimp only
  rw [hdrop]
  rfl

/-- In front of the word `begin` and behind a gap nothing is found. -/
theorem importsIn_begin (hchars : WordChars isWord) {gap : Text}
    (hgap : ∀ c ∈ gap, isSpace c = true) {t : Text} (ht : ∀ c ∈ t.head?, isWord c = false) :
    importsIn isWord (gap ++ ("begin".toList ++ t)) = [] := by
  have hne : "begin".toList ≠ [] := by simp
  have hfound : findWord isWord "begin".toList none (gap ++ ("begin".toList ++ t)) =
      some gap.length :=
    findWord_gap_self hne (hchars.isWord (by simp)) (fun c hc => hchars.space c (hgap c hc)) ht
  have hcut : cutAtBegin isWord (gap ++ ("begin".toList ++ t)) = gap := by
    rw [cutAtBegin, hfound, Option.map_some, Option.getD_some, List.take_left]
  have hnone := tokensOf_append_of_isSpace hgap []
  rw [List.append_nil] at hnone
  rw [importsIn, hcut, hnone]
  rfl

open Pieces

theorem cutAtBegin_text (hchars : WordChars isWord) {ps : Pieces}
    (hbegin : ∀ p ∈ ps, findWord isWord "begin".toList none p.2.name = none) {bare : Bool}
    (hsep : Separated bare ps) {rest : Text}
    (hrest : endsBare bare ps = true → ∀ c ∈ rest.head?, isWord c = false) :
    cutAtBegin isWord (ps.text ++ rest) = ps.text ++ cutAtBegin isWord rest := by
  rw [cutAtBegin, cutAtBegin, findWord_text hchars hbegin hsep hrest (by simp)]
  cases findWord isWord "begin".toList none rest with
  | none => rfl
  | some m =>
    simp only [Option.map_some, Option.getD_some]
    rw [Nat.add_comm, List.take_length_add_append]

/-- Readable names are the imports that are found, in front of those found behind them. -/
theorem importsIn_text (hchars : WordChars isWord) {ps : Pieces}
    (hread : ∀ p ∈ ps, p.2.Readable isWord) {bare : Bool} (hsep : Separated bare ps) {rest : Text}
    (hrest : endsBare bare ps = true →
      ∀ c ∈ rest.head?, isWord c = false ∧ isImportChar c = false) :
    importsIn isWord (ps.text ++ rest) = ps.names ++ importsIn isWord rest := by
  have hcut : endsBare bare ps = true →
      ∀ c ∈ (cutAtBegin isWord rest).head?, isImportChar c = false := by
    intro hbare c hc
    obtain ⟨u, hu⟩ := isPrefix_cutAtBegin isWord rest
    refine (hrest hbare c ?_).2
    rw [← hu, List.head?_append, Option.mem_def.mp hc]
    rfl
  have hkeep : ps.names.filter (fun tok => !tok.isEmpty && !noise.contains tok) = ps.names := by
    rw [List.filter_eq_self]
    intro tok htok
    obtain ⟨p, hp, rfl⟩ := List.mem_map.mp htok
    have hp' := hread p hp
    have hne : p.2.name.isEmpty = false := by
      have htoken := hp'.oneToken
      cases hi : p.2 with
      | bare name =>
        rw [hi] at htoken
        cases name with
        | nil => cases htoken.1
        | cons c name => rfl
      | quoted name =>
        rw [hi] at htoken
        exact List.isEmpty_eq_false_iff.mpr htoken.1
    rw [hne, hp'.notNoise]
    rfl
  rw [importsIn, importsIn, cutAtBegin_text hchars (fun p hp => (hread p hp).noBegin) hsep
      fun hbare c hc => (hrest hbare c hc).1,
    tokensOf_text (fun p hp => (hread p hp).oneToken) hsep hcut, List.filter_append, hkeep]

/-- Of a name with a word `begin` in it no token is left that is as long as the name. -/
theorem not_mem_importsIn_of_begin (hchars : WordChars isWord) {gap : Text} {i : ImportName}
    {ps : Pieces} (hquote : quote ∉ i.name) {bare : Bool} (hsep : Separated bare ((gap, i) :: ps))
    {rest : Text}
    (hrest : endsBare bare ((gap, i) :: ps) = true → ∀ c ∈ rest.head?, isWord c = false)
    (hbegin : findWord isWord "begin".toList none i.name ≠ none) :
    i.name ∉ importsIn isWord (Pieces.text ((gap, i) :: ps) ++ rest) := by
  intro hmem
  obtain ⟨k, hk⟩ := Option.ne_none_iff_exists'.mp hbegin
  have hlength := (prefix_of_findWord hk).length_le
  have hbeg : "begin".toList.length = 5 := rfl
  rw [List.length_drop] at hlength
  have htok := (List.mem_filter.mp hmem).1
  rw [cutAtBegin, findWord_text_cons_of_begin hchars hsep hrest (by simp) hk, Option.map_some,
    Option.getD_some, text_cons, List.append_assoc, List.append_assoc,
    List.take_length_add_append, tokensOf_append_of_isSpace hsep.1] at htok
  cases i with
  | bare name =>
    have htake : ((ImportName.bare name).text ++ (Pieces.text ps ++ rest)).take
        (beginIn (.bare name) k) = name.take k :=
      List.take_append_of_le_length (by
        change 5 ≤ name.length - k at hlength
        change k ≤ name.length
        omega)
    rw [htake] at htok
    have hle := length_le_of_mem_tokensOf htok
    rw [List.length_take] at hle
    change 5 ≤ name.length - k at hlength
    change name.length ≤ _ at hle
    omega
  | quoted name =>
    change 5 ≤ name.length - k at hlength
    have htake : ((ImportName.quoted name).text ++ (Pieces.text ps ++ rest)).take
        (beginIn (.quoted name) k) = quote :: name.take k := by
      have htext : (ImportName.quoted name).text ++ (Pieces.text ps ++ rest) =
          quote :: (name ++ quote :: (Pieces.text ps ++ rest)) := by simp [ImportName.text]
      rw [htext]
      change quote :: (name ++ _).take k = _
      rw [List.take_append_of_le_length (by omega)]
    have hcut : quote ∉ name.take k := fun hq => hquote (List.mem_of_mem_take hq)
    rw [htake, tokensOf_open hcut] at htok
    have hle := length_le_of_mem_tokensOf htok
    rw [List.length_take] at hle
    change name.length ≤ _ at hle
    omega

/-- Where the names are found, each of them is one token. -/
theorem oneToken_of_importsIn {ps : Pieces}
    (hquote : ∀ p ∈ ps, p.2.name ≠ [] ∧ quote ∉ p.2.name) (hgap : ∀ p ∈ ps, quote ∉ p.1)
    {rest : Text} (hrest : quote ∉ rest) (h : importsIn isWord (ps.text ++ rest) = ps.names) :
    ∀ p ∈ ps, p.2.OneToken := by
  have hle : countQuoted ps.names ≤ quotedNames ps := by
    have hfilter : countQuoted (importsIn isWord (ps.text ++ rest)) ≤
        countQuoted (tokensOf (cutAtBegin isWord (ps.text ++ rest))) :=
      List.filter_sublist.countP_le
    have htake := countQuoted_tokensOf_take hquote hgap (u := []) (by simp) hrest
      (cutAtBegin isWord (ps.text ++ rest)).length
    rw [List.nil_append, ← List.prefix_iff_eq_take.mp (isPrefix_cutAtBegin isWord _)] at htake
    rw [← h]
    exact hfilter.trans htake
  intro p hp
  obtain ⟨gap, i⟩ := p
  obtain ⟨hne, hi⟩ := hquote (gap, i) hp
  cases i with
  | quoted name => exact ⟨hne, hi⟩
  | bare name =>
    by_contra hnot
    have hodd : isBareToken name = false := by
      rw [Bool.eq_false_iff]
      intro hbare
      obtain ⟨hstart, hall⟩ := Bool.and_eq_true_iff.mp hbare
      exact hnot ⟨hstart, List.all_eq_true.mp hall⟩
    have := quotedNames_lt hp hodd
    omega

/-- A name that is found in front is readable, and the others are found behind it. -/
theorem readable_of_importsIn_cons (hchars : WordChars isWord) {gap : Text} {i : ImportName}
    (hgap : ∀ c ∈ gap, isSpace c = true) (htoken : i.OneToken) (hquote : quote ∉ i.name)
    {rest : Text} (hrest : i.isBare = true →
      ∀ c ∈ rest.head?, isWord c = false ∧ isImportChar c = false)
    {more : List Text} (h : importsIn isWord (gap ++ i.text ++ rest) = i.name :: more) :
    i.Readable isWord ∧ importsIn isWord rest = more := by
  have hone : Separated false [(gap, i)] := ⟨hgap, by simp, trivial⟩
  have htext : gap ++ i.text ++ rest = Pieces.text [(gap, i)] ++ rest := by simp
  rw [htext] at h
  have hmem : i.name ∈ importsIn isWord (Pieces.text [(gap, i)] ++ rest) := by
    rw [h]
    exact List.mem_cons_self
  have hbegin : findWord isWord "begin".toList none i.name = none := by
    by_contra hbegin
    exact not_mem_importsIn_of_begin hchars hquote hone (fun hb c hc => (hrest hb c hc).1) hbegin
      hmem
  have hnoise : noise.contains i.name = false := by
    have hkept := (List.mem_filter.mp hmem).2
    simpa using (Bool.and_eq_true_iff.mp hkept).2
  have hreadable : i.Readable isWord := ⟨htoken, hbegin, hnoise⟩
  rw [importsIn_text hchars (by simpa using hreadable) hone hrest] at h
  exact ⟨hreadable, (List.cons.inj h).2⟩

/-- Names that are apart are found only when they are readable. -/
theorem readable_of_importsIn (hchars : WordChars isWord) {ps : Pieces}
    (hquote : ∀ p ∈ ps, p.2.name ≠ [] ∧ quote ∉ p.2.name) {bare : Bool}
    (hsep : Separated bare ps) {rest : Text}
    (hrest : endsBare bare ps = true →
      ∀ c ∈ rest.head?, isWord c = false ∧ isImportChar c = false)
    (hfree : quote ∉ rest) (h : importsIn isWord (ps.text ++ rest) = ps.names) :
    ∀ p ∈ ps, p.2.Readable isWord := by
  have hgap : ∀ {bare : Bool} {qs : Pieces}, Separated bare qs → ∀ p ∈ qs, quote ∉ p.1 := by
    intro bare qs hqs p hp hmem
    induction qs generalizing bare with
    | nil => cases hp
    | cons q qs ih =>
      rcases List.mem_cons.mp hp with rfl | hp
      · cases hqs.1 quote hmem
      · exact ih hqs.2.2 hp
  have htoken := oneToken_of_importsIn hquote (hgap hsep) hfree h
  induction ps generalizing bare with
  | nil => exact fun p hp => absurd hp List.not_mem_nil
  | cons p ps ih =>
    obtain ⟨gap, i⟩ := p
    have hhead : i.isBare = true →
        ∀ c ∈ (Pieces.text ps ++ rest).head?, isWord c = false ∧ isImportChar c = false := by
      intro hbare c hc
      have hsep' := hsep.2.2
      have hnil : ps = [] → endsBare bare ((gap, i) :: ps) = true := fun hnil => by
        rw [hnil]
        exact hbare
      rw [hbare] at hsep'
      exact ⟨head_text hchars.space (isWord_quote hchars) hsep'
          (fun hps d hd => (hrest (hnil hps) d hd).1) c hc,
        head_text (fun c => isImportChar_of_isSpace) isImportChar_quote hsep'
          (fun hps d hd => (hrest (hnil hps) d hd).2) c hc⟩
    rw [text_cons, List.append_assoc] at h
    obtain ⟨hreadable, hmore⟩ := readable_of_importsIn_cons hchars hsep.1
      (htoken _ List.mem_cons_self) (hquote _ List.mem_cons_self).2 hhead h
    intro q hq
    rcases List.mem_cons.mp hq with rfl | hq
    · exact hreadable
    · exact ih (fun q hq => hquote q (List.mem_cons_of_mem _ hq)) hsep.2.2 hrest hmore
        (fun q hq => htoken q (List.mem_cons_of_mem _ hq)) q hq

end Imports

section Name

theorem searchTheoryLine_of_not_mem {t : Text} (h : '\n' ∉ t) :
    searchTheoryLine false t = none := by
  induction t with
  | nil => rfl
  | cons c t ih =>
    have hc : decide (c = '\n') = false :=
      decide_eq_false fun heq => h (by rw [heq]; exact List.mem_cons_self)
    rw [searchTheoryLine, hc, ih fun hmem => h (List.mem_cons_of_mem c hmem)]
    rfl

/-- A text of one line is searched at its start only. -/
theorem searchTheoryLine_line {t : Text} (h : '\n' ∉ t) :
    searchTheoryLine true t = (theoryNameAt t).map fun name => (name, afterTheoryName t) := by
  cases t with
  | nil => rfl
  | cons c t =>
    have hc : decide (c = '\n') = false :=
      decide_eq_false fun heq => h (by rw [heq]; exact List.mem_cons_self)
    rw [searchTheoryLine, if_pos rfl, hc,
      searchTheoryLine_of_not_mem fun hmem => h (List.mem_cons_of_mem c hmem), Option.or_none]

/-- Behind `theory` and white space. -/
theorem named_gap {gap : Text} (hgap : ∀ c ∈ gap, isSpace c = true) {t : Text}
    (ht : ∀ c ∈ t.head?, isSpace c = false) :
    ((("theory".toList ++ (gap ++ t)).dropWhile fun c => c = ' ' || c = '\t').drop 6).dropWhile
      isSpace = t := by
  have hdrop : (("theory".toList ++ (gap ++ t)).dropWhile fun c => c = ' ' || c = '\t').drop 6 =
      gap ++ t := by
    change (gap ++ t).drop 0 = _
    rw [List.drop_zero]
  rw [hdrop]
  exact dropWhile_append_stop hgap ht

/-- A bare name is read up to the first character that is none of a name. -/
theorem theoryNameAt_bare {gap : Text} (hne : gap ≠ []) (hgap : ∀ c ∈ gap, isSpace c = true)
    {t : Text} (ht : ∀ c ∈ t.head?, isSpace c = false ∧ c ≠ quote) :
    theoryNameAt ("theory".toList ++ (gap ++ t)) =
      if (t.takeWhile isNameChar).isEmpty then none else some (t.takeWhile isNameChar) := by
  have hnamed := named_gap hgap fun c hc => (ht c hc).1
  have hrest : (("theory".toList ++ (gap ++ t)).dropWhile fun c => c = ' ' || c = '\t').drop 6 =
      gap ++ t := by
    change (gap ++ t).drop 0 = _
    rw [List.drop_zero]
  have hquote : t.head? ≠ some quote := fun hhead => (ht quote hhead).2 rfl
  rw [theoryNameAt]
  dsimp only
  rw [hnamed, hrest, if_neg hquote]
  have hstarts : (!"theory".toList.isPrefixOf
      (("theory".toList ++ (gap ++ t)).dropWhile fun c => c = ' ' || c = '\t')) = false := rfl
  rw [hstarts]
  simp [hne]

theorem afterTheoryName_bare {gap : Text} (hgap : ∀ c ∈ gap, isSpace c = true) {t : Text}
    (ht : ∀ c ∈ t.head?, isSpace c = false ∧ c ≠ quote) :
    afterTheoryName ("theory".toList ++ (gap ++ t)) = t.dropWhile isNameChar := by
  have hquote : t.head? ≠ some quote := fun hhead => (ht quote hhead).2 rfl
  rw [afterTheoryName, named_gap hgap fun c hc => (ht c hc).1, if_neg hquote]

end Name

end TheoryParsing
end IsabelleGym
