import IsabelleGym.CleanBlocks

/-!
# Blocks against commands

The characters are kept with the right commands exactly when two things hold of
the places where blocks start: the word there is a document command if and only
if the command around it is one, and where a document command is next to another
command a block starts.
-/

namespace IsabelleGym
namespace CleanTheory

open PythonStr TheoryParsing TheorySplitter

def isDocCommand (p : Text) : Bool := docCommands.contains (p.takeWhile isKeywordChar)

def commandMarks (p : Text) : Marks := marked (!isDocCommand p) p

section Trailing

variable {isWord isAlpha : Char → Bool}

theorem round_append_blank (state : Tracker) (before : Option Char) (c : Char) (t : Text)
    {blank : Text} (hblank : ∀ d ∈ blank, isSpace d = true) :
    state.round isWord isAlpha before c (t ++ blank) = state.round isWord isAlpha before c t := by
  have hhead : ∀ d ∈ blank.head?, (!isSpace d) = false := by
    intro d hd
    rw [hblank d (List.mem_of_mem_head? hd)]
    rfl
  have hopen : ∀ d ∈ "(*".toList, (!isSpace d) = true := by simp [isSpace]
  have hclose : ∀ d ∈ "*)".toList, (!isSpace d) = true := by simp [isSpace]
  have hopening : ∀ d ∈ opening, (!isSpace d) = true := by simp [opening, backslash, isSpace]
  have hclosing : ∀ d ∈ closing, (!isSpace d) = true := by simp [closing, backslash, isSpace]
  unfold Tracker.round
  dsimp only
  rw [← List.cons_append, isPrefixOf_append_of_head hopen _ hhead,
    isPrefixOf_append_of_head hclose _ hhead, isPrefixOf_append_of_head hopening _ hhead,
    isPrefixOf_append_of_head hclosing _ hhead]

theorem step_append_blank (r : Reader) (c : Char) (t : Text) {blank : Text}
    (hblank : ∀ d ∈ blank, isSpace d = true) :
    r.step isWord isAlpha c (t ++ blank) = r.step isWord isAlpha c t := by
  obtain ⟨state, before, skip⟩ := r
  cases skip with
  | succ skip => rfl
  | zero => rw [Reader.step, Reader.step, round_append_blank state before c t hblank]

variable (hchars : WordChars isWord) (halpha : ∀ c, isAlpha c = true → isWord c = true)

include hchars halpha

theorem marksFrom_blank (r : Reader) (kept : Bool) {blank : Text}
    (hblank : ∀ c ∈ blank, isSpace c = true) :
    marksFrom isWord isAlpha r kept blank = marked kept blank := by
  induction blank generalizing r with
  | nil => rfl
  | cons c blank ih =>
    have hstarts : ¬ (r.step isWord isAlpha c blank).2 = true := by
      intro h
      have hspace := isSpace_of_step hchars halpha h
      rw [hblank c List.mem_cons_self] at hspace
      cases hspace
    rw [marksFrom, if_neg hstarts, ih _ fun d hd => hblank d (List.mem_cons_of_mem c hd)]
    rfl

/-- White space at the end is in the last block. -/
theorem marksFrom_append_blank (r : Reader) (kept : Bool) (t : Text) {blank : Text}
    (hblank : ∀ c ∈ blank, isSpace c = true) :
    ∃ last, marksFrom isWord isAlpha r kept (t ++ blank) =
      marksFrom isWord isAlpha r kept t ++ marked last blank := by
  induction t generalizing r kept with
  | nil => exact ⟨kept, marksFrom_blank hchars halpha r kept hblank⟩
  | cons c t ih =>
    rw [List.cons_append, marksFrom, marksFrom, step_append_blank r c t hblank]
    split_ifs with hstarts
    · have hdoc := isDocBlock_append_blank hchars (c :: t) hblank
      rw [List.cons_append] at hdoc
      rw [hdoc]
      obtain ⟨last, hlast⟩ := ih (r.step isWord isAlpha c t).1 (!isDocBlock isWord (c :: t))
      exact ⟨last, congrArg (List.cons _) hlast⟩
    · obtain ⟨last, hlast⟩ := ih (r.step isWord isAlpha c t).1 kept
      exact ⟨last, congrArg (List.cons _) hlast⟩

end Trailing

section Agreement

variable {isWord isAlpha : Char → Bool}

theorem readTo_append (r : Reader) (a b c : Text) :
    r.readTo isWord isAlpha (a ++ b) c =
      (r.readTo isWord isAlpha a (b ++ c)).readTo isWord isAlpha b c := by
  induction a generalizing r with
  | nil => rfl
  | cons d a ih => rw [List.cons_append, Reader.readTo, Reader.readTo, ih, List.append_assoc]

/-- The first character of a block is marked by the block, whatever was before. -/
theorem marksFrom_of_starts {r : Reader} {t : Text} (h : r.starts isWord isAlpha t = true)
    (kept kept' : Bool) :
    marksFrom isWord isAlpha r kept t = marksFrom isWord isAlpha r kept' t := by
  cases t with
  | nil => rfl
  | cons c t =>
    have hstarts : (r.step isWord isAlpha c t).2 = true := h
    rw [marksFrom, marksFrom, if_pos hstarts, if_pos hstarts]

variable (isWord isAlpha) in
/-- Blocks that start in the text `p`, in front of `u`, are kept as told. -/
def Inside (r : Reader) (kept : Bool) (p u : Text) : Prop :=
  ∀ a b, p = a ++ b → b ≠ [] →
    (r.readTo isWord isAlpha a (b ++ u)).starts isWord isAlpha (b ++ u) = true →
      (!isDocBlock isWord (b ++ u)) = kept

theorem inside_cons (r : Reader) (kept : Bool) (c : Char) (p u : Text) :
    Inside isWord isAlpha r kept (c :: p) u ↔
      (r.starts isWord isAlpha (c :: (p ++ u)) = true →
        (!isDocBlock isWord (c :: (p ++ u))) = kept) ∧
      Inside isWord isAlpha (r.step isWord isAlpha c (p ++ u)).1 kept p u := by
  constructor
  · intro h
    refine ⟨h [] (c :: p) rfl (List.cons_ne_nil _ _), ?_⟩
    rintro a b rfl hb hstarts
    refine h (c :: a) b rfl hb ?_
    rwa [Reader.readTo, ← List.append_assoc]
  · rintro ⟨hhere, hbehind⟩ a b hab hb hstarts
    cases a with
    | nil =>
      rw [List.nil_append] at hab
      subst hab
      exact hhere hstarts
    | cons d a =>
      obtain ⟨rfl, rfl⟩ := List.cons.inj hab
      refine hbehind a b rfl hb ?_
      rwa [Reader.readTo, ← List.append_assoc] at hstarts

variable (hchars : WordChars isWord) (halpha : ∀ c, isAlpha c = true → isWord c = true)

include hchars halpha

/-- A text whose block is kept as told is marked so exactly when the blocks that start in it
are. -/
theorem seen_marksFrom_append (r : Reader) (kept : Bool) (p u : Text) (m : Marks) :
    (marksFrom isWord isAlpha r kept (p ++ u)).seen = (marked kept p).seen ++ m ↔
      Inside isWord isAlpha r kept p u ∧
        (marksFrom isWord isAlpha (r.readTo isWord isAlpha p u) kept u).seen = m := by
  induction p generalizing r with
  | nil =>
    have hinside : Inside isWord isAlpha r kept [] u := by
      intro a b hab hb
      exact absurd (List.append_eq_nil_iff.mp hab.symm).2 hb
    exact ⟨fun h => ⟨hinside, h⟩, fun h => h.2⟩
  | cons c p ih =>
    rw [inside_cons, Reader.readTo, and_assoc, ← ih, List.cons_append, marksFrom, Reader.starts]
    have hmarked : marked kept (c :: p) = (c, kept) :: marked kept p := rfl
    rw [hmarked]
    cases hstarts : (r.step isWord isAlpha c (p ++ u)).2 with
    | true =>
      have hc := isSpace_of_step hchars halpha hstarts
      rw [if_pos rfl, Marks.seen_cons hc, Marks.seen_cons hc, List.cons_append, List.cons_eq_cons,
        Prod.mk.injEq]
      constructor
      · rintro ⟨⟨-, hkept⟩, h⟩
        rw [hkept] at h
        exact ⟨fun _ => hkept, h⟩
      · rintro ⟨hkept, h⟩
        rw [hkept rfl]
        exact ⟨⟨rfl, rfl⟩, h⟩
    | false =>
      rw [if_neg Bool.false_ne_true]
      cases hc : isSpace c with
      | true =>
        rw [Marks.seen_cons_of_isSpace hc, Marks.seen_cons_of_isSpace hc]
        simp
      | false =>
        rw [Marks.seen_cons hc, Marks.seen_cons hc, List.cons_append, List.cons_eq_cons]
        simp

omit hchars halpha

variable (isWord isAlpha) in
/-- Behind a reader, and behind a command that is kept or not, the blocks are right about the
commands. -/
structure Matches (r : Reader) (kept : Bool) (ps : List Text) : Prop where
  inside : ∀ before p after, ps = before ++ p :: after →
    Inside isWord isAlpha (r.readTo isWord isAlpha before.flatten (p ++ after.flatten))
      (!isDocCommand p) p after.flatten
  change : ∀ before p after, ps = before ++ p :: after →
    ((before.getLast?.map fun q => !isDocCommand q).getD kept) ≠ (!isDocCommand p) →
      (r.readTo isWord isAlpha before.flatten (p ++ after.flatten)).starts isWord isAlpha
        (p ++ after.flatten) = true

theorem matches_cons (r : Reader) (kept : Bool) (p : Text) (ps : List Text) :
    Matches isWord isAlpha r kept (p :: ps) ↔
      (kept ≠ (!isDocCommand p) → r.starts isWord isAlpha (p ++ ps.flatten) = true) ∧
      Inside isWord isAlpha r (!isDocCommand p) p ps.flatten ∧
      Matches isWord isAlpha (r.readTo isWord isAlpha p ps.flatten) (!isDocCommand p) ps := by
  have hread : ∀ before q after, ps = before ++ q :: after →
      r.readTo isWord isAlpha (p :: before).flatten (q ++ after.flatten) =
        (r.readTo isWord isAlpha p ps.flatten).readTo isWord isAlpha before.flatten
          (q ++ after.flatten) := by
    rintro before q after rfl
    rw [List.flatten_cons, readTo_append, List.flatten_append, List.flatten_cons]
  have hlast : ∀ before : List Text,
      (((p :: before).getLast?.map fun q => !isDocCommand q).getD kept) =
        ((before.getLast?.map fun q => !isDocCommand q).getD (!isDocCommand p)) := by
    intro before
    rw [List.getLast?_cons]
    cases before.getLast? <;> rfl
  constructor
  · rintro ⟨hinside, hchange⟩
    refine ⟨hchange [] p ps rfl, hinside [] p ps rfl, ?_, ?_⟩
    · intro before q after hps
      rw [← hread before q after hps]
      exact hinside (p :: before) q after (congrArg (List.cons p) hps)
    · intro before q after hps hne
      rw [← hread before q after hps]
      rw [← hlast] at hne
      exact hchange (p :: before) q after (congrArg (List.cons p) hps) hne
  · rintro ⟨hstarts, hhere, hinside, hchange⟩
    constructor
    · intro before q after hps
      cases before with
      | nil =>
        obtain ⟨rfl, rfl⟩ := List.cons.inj hps
        exact hhere
      | cons x before =>
        obtain ⟨rfl, htail⟩ := List.cons.inj hps
        rw [hread before q after htail]
        exact hinside before q after htail
    · intro before q after hps hne
      cases before with
      | nil =>
        obtain ⟨rfl, rfl⟩ := List.cons.inj hps
        exact hstarts hne
      | cons x before =>
        obtain ⟨rfl, htail⟩ := List.cons.inj hps
        rw [hlast] at hne
        rw [hread before q after htail]
        exact hchange before q after htail hne

include hchars halpha

/-- The characters of the commands are marked as their commands are exactly when the blocks match
the commands. -/
theorem seen_marksFrom_iff (r : Reader) (kept : Bool) {ps : List Text}
    (hps : ∀ p ∈ ps, ∃ c t, p = c :: t ∧ isSpace c = false) :
    (marksFrom isWord isAlpha r kept ps.flatten).seen = Marks.seen (ps.flatMap commandMarks) ↔
      Matches isWord isAlpha r kept ps := by
  induction ps generalizing r kept with
  | nil => exact iff_of_true rfl ⟨by simp, by simp⟩
  | cons p ps ih =>
    have hrest := ih (r.readTo isWord isAlpha p ps.flatten) (!isDocCommand p)
      fun q hq => hps q (List.mem_cons_of_mem p hq)
    have hcut := seen_marksFrom_append hchars halpha r (!isDocCommand p) p ps.flatten
      (Marks.seen (ps.flatMap commandMarks))
    rw [matches_cons, List.flatten_cons, List.flatMap_cons, Marks.seen_append, commandMarks]
    rw [hrest] at hcut
    by_cases hkept : kept = !isDocCommand p
    · rw [hkept, hcut]
      exact ⟨fun h => ⟨fun hne => absurd rfl hne, h⟩, fun h => h.2⟩
    · cases hstarts : r.starts isWord isAlpha (p ++ ps.flatten) with
      | true =>
        rw [marksFrom_of_starts hstarts kept (!isDocCommand p), hcut]
        exact ⟨fun h => ⟨fun _ => rfl, h⟩, fun h => h.2⟩
      | false =>
        refine iff_of_false ?_ fun h => absurd (h.1 hkept) Bool.false_ne_true
        obtain ⟨c, t, rfl, hc⟩ := hps p List.mem_cons_self
        have hnot : ¬ (r.step isWord isAlpha c (t ++ ps.flatten)).2 = true := by
          intro h
          rw [List.cons_append, Reader.starts, h] at hstarts
          cases hstarts
        rw [List.cons_append, marksFrom, if_neg hnot, Marks.seen_cons hc, marked, List.map_cons,
          Marks.seen_cons hc, List.cons_append]
        intro h
        exact hkept (Prod.mk.inj (List.cons.inj h).1).2

end Agreement

section Alignment

variable (isWord isAlpha : Char → Bool)

/-- A block starts between the two parts of a body: at its beginning, or where the splitter sees a
word at the beginning of a line outside of comments, cartouches and strings. -/
def StartsBlock (before after : Text) : Prop :=
  before = [] ∨
    (({} : Reader).readTo isWord isAlpha before after).starts isWord isAlpha after = true

/-- Where a block starts in a command, its word is a document command if and only if the command is
one, and where a document command is next to another command a block starts. -/
structure Aligned (commands : List Text) : Prop where
  keyword : ∀ before a b after, commands = before ++ (a ++ b) :: after → b ≠ [] →
    StartsBlock isWord isAlpha (before.flatten ++ a) (b ++ after.flatten) →
      isDocBlock isWord (b ++ after.flatten) = isDocCommand (a ++ b)
  change : ∀ before p q after, commands = before ++ p :: q :: after →
    isDocCommand p ≠ isDocCommand q →
      StartsBlock isWord isAlpha (before.flatten ++ p) (q ++ after.flatten)

variable {isWord isAlpha}

theorem aligned_iff_matches {ps : List Text} (hne : ∀ p ∈ ps, p ≠ []) :
    Aligned isWord isAlpha ps ↔
      Matches isWord isAlpha {} (!isDocBlock isWord ps.flatten) ps := by
  constructor
  · intro h
    constructor
    · rintro before p after hps a b rfl hb hstarts
      rw [List.append_assoc, ← readTo_append] at hstarts
      rw [h.keyword before a b after hps hb (Or.inr hstarts)]
    · rintro before p after hps hchange
      have hp : p ≠ [] := hne p (by rw [hps]; simp)
      rcases List.eq_nil_or_concat' before with rfl | ⟨before, q, rfl⟩
      · have hword := h.keyword [] [] p after hps hp (Or.inl rfl)
        rw [List.nil_append] at hword hps
        rw [hps, List.flatten_cons, hword] at hchange
        exact absurd rfl hchange
      · have hq : q ≠ [] := hne q (by rw [hps]; simp)
        have hdiffer : isDocCommand q ≠ isDocCommand p := by
          intro heq
          rw [List.getLast?_concat, Option.map_some, Option.getD_some, heq] at hchange
          exact hchange rfl
        rw [List.append_assoc, List.singleton_append] at hps
        rcases h.change before q p after hps hdiffer with hnil | hstarts
        · exact absurd (List.append_eq_nil_iff.mp hnil).2 hq
        · rwa [List.flatten_append, List.flatten_singleton]
  · intro h
    constructor
    · rintro before a b after hps hb hstarts
      have hinside := h.inside before (a ++ b) after hps a b rfl hb
      rw [List.append_assoc, ← readTo_append] at hinside
      rcases hstarts with hnil | hstarts
      · by_contra hdiffer
        obtain ⟨hbefore, rfl⟩ := List.append_eq_nil_iff.mp hnil
        obtain rfl : before = [] := by
          cases before with
          | nil => rfl
          | cons q before =>
            have hq : q ≠ [] := hne q (by rw [hps]; simp)
            exact absurd (List.append_eq_nil_iff.mp hbefore).1 hq
        rw [List.nil_append] at hps hdiffer
        have hstarts := h.change [] b after hps (by
          rw [hps]
          intro heq
          exact hdiffer (Bool.not_inj heq))
        exact hdiffer (Bool.not_inj (hinside hstarts))
      · exact Bool.not_inj (hinside hstarts)
    · rintro before p q after hps hdiffer
      have hstarts := h.change (before ++ [p]) q after (by rw [hps, List.append_assoc]; rfl) (by
        rw [List.getLast?_concat, Option.map_some, Option.getD_some]
        exact fun heq => hdiffer (Bool.not_inj heq))
      rw [List.flatten_append, List.flatten_singleton] at hstarts
      exact Or.inr hstarts

end Alignment

end CleanTheory
end IsabelleGym
