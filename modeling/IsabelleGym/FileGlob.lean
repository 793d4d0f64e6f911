import IsabelleGym.FilePattern
import IsabelleGym.FileTree
import Mathlib.Logic.Function.Basic
import Mathlib.Tactic.Choose

/-!
# Glob patterns

A pattern of `Path.glob` is cut into components: double dots go to the parent, a
double star descends into directories, and every other component is an `fnmatch`
pattern for the names in a directory. What a pattern selects is a path as
written, with its double dots.
-/

namespace FileGlob

open PosixPath

/-- A component of a glob pattern; `here` stands behind a trailing slash. -/
inductive Segment
  | parent
  | descend
  | entry (pattern : List Char)
  | here
deriving DecidableEq

def doubleStar : List Char := ['*', '*']

/-- A double star is only allowed as a whole component. -/
def segment (c : List Char) : Option Segment :=
  if c = dotDot then some .parent
  else if c = doubleStar then some .descend
  else if c.tails.any (doubleStar.isPrefixOf ·) then none
  else some (.entry c)

/-- The components of a pattern; `glob` raises for an absolute one and for one without any. -/
def segments (pattern : List Char) : Option (List Segment) :=
  let p := ofText pattern
  if p.anchor ≠ [] || p.parts = [] then none
  else (p.parts.mapM segment).map fun segs =>
    if pattern.getLast? = some '/' then segs ++ [.here] else segs

theorem segment_eq_some {c : List Char} {seg : Segment} (h : segment c = some seg) :
    c = dotDot ∧ seg = .parent ∨ c = doubleStar ∧ seg = .descend ∨
      c ≠ dotDot ∧ c ≠ doubleStar ∧ seg = .entry c := by
  unfold segment at h
  split_ifs at h with hparent hdescend
  · exact .inl ⟨hparent, (Option.some.inj h).symm⟩
  · exact .inr (.inl ⟨hdescend, (Option.some.inj h).symm⟩)
  · exact .inr (.inr ⟨hparent, hdescend, (Option.some.inj h).symm⟩)

theorem segment_eq_entry {c pattern : List Char} (h : segment c = some (.entry pattern)) :
    pattern = c ∧ c ≠ dotDot := by
  rcases segment_eq_some h with ⟨-, hcontra⟩ | ⟨-, hcontra⟩ | ⟨hdots, -, heq⟩
  · cases hcontra
  · cases hcontra
  · cases heq
    exact ⟨rfl, hdots⟩

theorem NamesItself.segment_eq {c : List Char} (hc : NamesItself c) {seg : Segment}
    (h : segment c = some seg) : seg = .entry c := by
  rcases segment_eq_some h with ⟨rfl, -⟩ | ⟨rfl, -⟩ | ⟨-, -, rfl⟩
  · exact absurd rfl hc.1.2.2.2
  · exact absurd (hc.2 ['a'] (by decide) (by decide)) (by decide)
  · rfl

/-- A pattern is not absolute, and its components are its parts, one by one. -/
theorem forall₂_of_segments {pattern : List Char} {segs : List Segment}
    (h : segments pattern = some segs) :
    (ofText pattern).anchor = [] ∧
      ∃ segs', List.Forall₂ (fun c seg => segment c = some seg) (ofText pattern).parts segs' ∧
        segs = if pattern.getLast? = some '/' then segs' ++ [.here] else segs' := by
  have hmapM : ∀ {cs : List (List Char)} {segs : List Segment}, cs.mapM segment = some segs →
      List.Forall₂ (fun c seg => segment c = some seg) cs segs := by
    intro cs
    induction cs with
    | nil =>
      intro segs h
      cases h
      exact .nil
    | cons c cs ih =>
      intro segs h
      rw [List.mapM_cons] at h
      obtain ⟨seg, hseg, h⟩ := Option.bind_eq_some_iff.mp h
      obtain ⟨rest, hrest, h⟩ := Option.bind_eq_some_iff.mp h
      cases h
      exact .cons hseg (ih hrest)
  unfold segments at h
  dsimp only at h
  by_cases hbad : ((ofText pattern).anchor ≠ [] || (ofText pattern).parts = []) = true
  · rw [if_pos hbad] at h
    cases h
  · rw [if_neg hbad] at h
    obtain ⟨segs', hsegs', rfl⟩ := Option.map_eq_some_iff.mp h
    refine ⟨?_, segs', hmapM hsegs', rfl⟩
    by_contra hanchor
    exact hbad (by simp [hanchor])

theorem segments_eq_some {pattern : List Char} (hlast : pattern.getLast? ≠ some '/')
    {segs : List Segment} (h : segments pattern = some segs) :
    List.Forall₂ (fun c seg => segment c = some seg) (ofText pattern).parts segs := by
  obtain ⟨-, segs', hforall, rfl⟩ := forall₂_of_segments h
  rwa [if_neg hlast]

theorem entry_mem_segments {pattern : List Char} {segs : List Segment}
    (h : segments pattern = some segs) {c : List Char} :
    .entry c ∈ segs ↔ c ∈ (ofText pattern).parts ∧ segment c = some (.entry c) := by
  have hparts : ∀ {cs : List (List Char)} {segs : List Segment},
      List.Forall₂ (fun c seg => segment c = some seg) cs segs →
      (.entry c ∈ segs ↔ c ∈ cs ∧ segment c = some (.entry c)) := by
    intro cs segs hforall
    induction hforall with
    | nil => simp
    | @cons d seg _ _ hseg _ ih =>
      rw [List.mem_cons, List.mem_cons, ih]
      constructor
      · rintro (rfl | ⟨hin, hc⟩)
        · obtain ⟨rfl, -⟩ := segment_eq_entry hseg
          exact ⟨.inl rfl, hseg⟩
        · exact ⟨.inr hin, hc⟩
      · rintro ⟨rfl | hin, hc⟩
        · exact .inl (Option.some.inj (hc.symm.trans hseg))
        · exact .inr ⟨hin, hc⟩
  obtain ⟨-, segs', hforall, rfl⟩ := forall₂_of_segments h
  rw [← hparts hforall]
  split_ifs
  · simp
  · exact Iff.rfl

theorem exists_concat_of_forall₂ {β γ : Type} {R : β → γ → Prop} {l : List β} {b : β}
    {cs : List γ} (h : List.Forall₂ R (l ++ [b]) cs) : ∃ cs' c, cs = cs' ++ [c] ∧ R b c := by
  induction l generalizing cs with
  | nil =>
    cases h with
    | cons hc hnil =>
      cases hnil
      exact ⟨[], _, rfl, hc⟩
  | cons a l ih =>
    cases h with
    | cons _ hrest =>
      obtain ⟨cs', c, rfl, hc⟩ := ih hrest
      exact ⟨_ :: cs', c, rfl, hc⟩

/-- A component that ends in a dot and a star is a pattern for names. -/
theorem segment_dot_star {c : List Char} {seg : Segment}
    (h : segment (c ++ ".*".toList) = some seg) : seg = .entry (c ++ ".*".toList) := by
  rcases segment_eq_some h with ⟨heq, -⟩ | ⟨heq, -⟩ | ⟨-, -, rfl⟩
  · have hmem : '*' ∈ dotDot := heq ▸ by simp
    exact absurd hmem (by decide)
  · have hmem : '.' ∈ doubleStar := heq ▸ by simp
    exact absurd hmem (by decide)
  · rfl

/-- A name that is a pattern remains one with a dot and a star behind it. -/
theorem segment_append_dot_star {c : List Char} (h : segment c = some (.entry c)) :
    segment (c ++ ".*".toList) = some (.entry (c ++ ".*".toList)) := by
  have hnot : ¬ doubleStar <:+: c := by
    intro hin
    obtain ⟨u, v, rfl⟩ := hin
    have htail : (u ++ doubleStar ++ v).tails.any (doubleStar.isPrefixOf ·) = true :=
      List.any_eq_true.mpr ⟨doubleStar ++ v, (List.mem_tails _ _).mpr ⟨u, by simp⟩, by simp⟩
    unfold segment at h
    split_ifs at h
    all_goals cases h
  have hnone : ¬ (c ++ ".*".toList).tails.any (doubleStar.isPrefixOf ·) = true := by
    rw [List.any_eq_true]
    rintro ⟨tail, htail, hbelow⟩
    obtain ⟨u, heq⟩ := (List.mem_tails _ _).mp htail
    obtain ⟨v, rfl⟩ := List.isPrefixOf_iff_prefix.mp hbelow
    have hsplit : u ++ ['*', '*'] ++ v = c ++ ['.', '*'] := by simpa [doubleStar] using heq
    rcases List.eq_nil_or_concat v with rfl | ⟨v, y, rfl⟩
    · have hlast : ['*', '*'] = ['.', '*'] :=
        (List.append_inj' (by simpa using hsplit : u ++ ['*', '*'] = c ++ ['.', '*']) rfl).2
      exact absurd hlast (by decide)
    · rcases List.eq_nil_or_concat v with rfl | ⟨v, z, rfl⟩
      · have hlast : ['*', y] = ['.', '*'] := (List.append_inj'
          (by simpa using hsplit : u ++ ['*'] ++ ['*', y] = c ++ ['.', '*']) rfl).2
        simp at hlast
      · exact hnot ⟨u, v, (List.append_inj' (by simpa using hsplit :
          u ++ ['*', '*'] ++ v ++ [z, y] = c ++ ['.', '*']) rfl).1⟩
  unfold segment
  split_ifs with hparent hdescend
  · have hmem : '*' ∈ dotDot := hparent ▸ by simp
    exact absurd hmem (by decide)
  · have hmem : '.' ∈ doubleStar := hdescend ▸ by simp
    exact absurd hmem (by decide)
  · rfl

variable {α : Type} (t : FileTree α)

/-- No path is longer. -/
def depth : ℕ := t.foldr (fun entry d => max entry.1.length d) 0

def subdirs : ℕ → FilePath → List FilePath
  | 0, p => [p]
  | depth + 1, p => p :: ((t.names p).filter fun n => t.isDir (p ++ [n])).flatMap fun n =>
    subdirs depth (p ++ [n])

def select : FilePath → List Segment → List FilePath
  | p, [] => [p]
  | p, .parent :: segs => if t.isDir p then select (p ++ [dotDot]) segs else []
  | p, .descend :: segs => (subdirs t (depth t) p).flatMap fun q => select q segs
  | p, .entry pattern :: segs =>
    ((t.names p).filter fun n => fnmatch pattern n && (segs.isEmpty || t.isDir (p ++ [n]))).flatMap
      fun n => select (p ++ [n]) segs
  | p, .here :: segs => select p segs

def glob (base : FilePath) (pattern : List Char) : Option (List FilePath) :=
  (segments pattern).map fun segs => if t.isDir base then select t base segs else []

inductive Walk : List Segment → List FileName → Prop
  | nil : Walk [] []
  | parent {segs : List Segment} {cs : List FileName} : Walk segs cs →
    Walk (.parent :: segs) (dotDot :: cs)
  | entry {pattern n : List Char} {segs : List Segment} {cs : List FileName} : IsPlain n →
    fnmatch pattern n = true → Walk segs cs → Walk (.entry pattern :: segs) (n :: cs)
  | here {segs : List Segment} {cs : List FileName} : Walk segs cs → Walk (.here :: segs) cs
  | descend {segs : List Segment} {cs : List FileName} : Walk segs cs → Walk (.descend :: segs) cs
  | deeper {n : FileName} {segs : List Segment} {cs : List FileName} : IsPlain n →
    Walk (.descend :: segs) cs → Walk (.descend :: segs) (n :: cs)

variable {t}

theorem plain_of_mem_subdirs (ht : t.WellFormed) {d : ℕ} {p q : FilePath}
    (h : q ∈ subdirs t d p) : ∃ ns, (∀ n ∈ ns, IsPlain n) ∧ q = p ++ ns := by
  induction d generalizing p with
  | zero => exact ⟨[], by simp, by simpa [subdirs] using h⟩
  | succ d ih =>
    rw [subdirs, List.mem_cons, List.mem_flatMap] at h
    rcases h with rfl | ⟨n, hn, hq⟩
    · exact ⟨[], by simp, by simp⟩
    · obtain ⟨ns, hns, rfl⟩ := ih hq
      refine ⟨n :: ns, ?_, by simp⟩
      intro m hm
      rcases List.mem_cons.mp hm with rfl | hm
      · exact ht.plain_of_mem_names (List.mem_filter.mp hn).1
      · exact hns m hm

theorem Walk.under {ns : List FileName} (hns : ∀ n ∈ ns, IsPlain n) {segs : List Segment}
    {cs : List FileName} (h : Walk segs cs) : Walk (.descend :: segs) (ns ++ cs) := by
  induction ns with
  | nil => exact .descend h
  | cons n ns ih =>
    exact .deeper (hns n List.mem_cons_self) (ih fun m hm => hns m (List.mem_cons_of_mem n hm))

theorem walk_of_mem_select (ht : t.WellFormed) {segs : List Segment} {p q : FilePath}
    (h : q ∈ select t p segs) : ∃ cs, Walk segs cs ∧ q = p ++ cs := by
  induction segs generalizing p with
  | nil => exact ⟨[], .nil, by simpa [select] using h⟩
  | cons seg segs ih =>
    cases seg with
    | parent =>
      rw [select] at h
      split_ifs at h
      · obtain ⟨cs, hwalk, rfl⟩ := ih h
        exact ⟨dotDot :: cs, .parent hwalk, by simp⟩
      · cases h
    | descend =>
      rw [select, List.mem_flatMap] at h
      obtain ⟨r, hr, hq⟩ := h
      obtain ⟨ns, hns, rfl⟩ := plain_of_mem_subdirs ht hr
      obtain ⟨cs, hwalk, rfl⟩ := ih hq
      exact ⟨ns ++ cs, hwalk.under hns, by simp⟩
    | entry pattern =>
      rw [select, List.mem_flatMap] at h
      obtain ⟨n, hn, hq⟩ := h
      obtain ⟨hname, hmatch⟩ := List.mem_filter.mp hn
      obtain ⟨cs, hwalk, rfl⟩ := ih hq
      rw [Bool.and_eq_true] at hmatch
      exact ⟨n :: cs, .entry (ht.plain_of_mem_names hname) hmatch.1 hwalk, by simp⟩
    | here =>
      rw [select] at h
      obtain ⟨cs, hwalk, rfl⟩ := ih h
      exact ⟨cs, .here hwalk, rfl⟩

theorem walk_of_mem_glob (ht : t.WellFormed) {base : FilePath} {pattern : List Char}
    {paths : List FilePath} (h : glob t base pattern = some paths) {q : FilePath} (hq : q ∈ paths) :
    ∃ segs cs, segments pattern = some segs ∧ Walk segs cs ∧ q = base ++ cs := by
  obtain ⟨segs, hsegs, rfl⟩ := Option.map_eq_some_iff.mp h
  split_ifs at hq
  · obtain ⟨cs, hwalk, hcs⟩ := walk_of_mem_select ht hq
    exact ⟨segs, cs, hsegs, hwalk, hcs⟩
  · cases hq

/-- A pattern with a component that no name matches selects nothing. -/
theorem Walk.exists_of_mem {segs : List Segment} {cs : List FileName} (h : Walk segs cs)
    {pattern : List Char} (hin : .entry pattern ∈ segs) :
    ∃ n, IsPlain n ∧ fnmatch pattern n = true := by
  induction h with
  | nil => cases hin
  | entry hplain hmatch _ ih =>
    rcases List.mem_cons.mp hin with heq | hin
    · cases heq
      exact ⟨_, hplain, hmatch⟩
    · exact ih hin
  | deeper _ _ ih => exact ih hin
  | parent _ ih | here _ ih | descend _ ih =>
    rcases List.mem_cons.mp hin with heq | hin
    · cases heq
    · exact ih hin

theorem Walk.of_descend {segs : List Segment} {cs : List FileName}
    (h : Walk (.descend :: segs) cs) :
    ∃ ns cs', (∀ n ∈ ns, IsPlain n) ∧ Walk segs cs' ∧ cs = ns ++ cs' := by
  generalize hsegs : Segment.descend :: segs = segs' at h
  induction h with
  | nil | parent _ | entry _ _ _ | here _ => cases hsegs
  | descend h =>
    cases hsegs
    exact ⟨[], _, by simp, h, by simp⟩
  | @deeper n _ _ hplain _ ih =>
    obtain ⟨ns, cs', hns, hwalk, rfl⟩ := ih hsegs
    refine ⟨n :: ns, cs', ?_, hwalk, by simp⟩
    intro m hm
    rcases List.mem_cons.mp hm with rfl | hm
    · exact hplain
    · exact hns m hm

def NamesEntries (name : List Char → FileName) (segs : List Segment) : Prop :=
  ∀ pattern, .entry pattern ∈ segs → IsPlain (name pattern) ∧ fnmatch pattern (name pattern) = true

theorem NamesEntries.update {name : List Char → FileName} {segs : List Segment}
    (h : NamesEntries name segs) (pattern : List Char) {n : List Char} (hn : IsPlain n)
    (hmatch : fnmatch pattern n = true) : NamesEntries (Function.update name pattern n) segs := by
  intro pattern' hin
  by_cases heq : pattern' = pattern
  · subst heq
    rw [Function.update_self]
    exact ⟨hn, hmatch⟩
  · rw [Function.update_of_ne heq]
    exact h pattern' hin

theorem exists_namesEntries {segs : List Segment}
    (h : ∀ pattern, .entry pattern ∈ segs → ∃ n, IsPlain n ∧ fnmatch pattern n = true) :
    ∃ name, NamesEntries name segs := by
  have hchoice : ∀ pattern, ∃ n, .entry pattern ∈ segs → IsPlain n ∧ fnmatch pattern n = true := by
    intro pattern
    by_cases hin : .entry pattern ∈ segs
    · obtain ⟨n, hn⟩ := h pattern hin
      exact ⟨n, fun _ => hn⟩
    · exact ⟨[], fun hcontra => absurd hcontra hin⟩
  choose name hname using hchoice
  exact ⟨name, hname⟩

/-- A component of the pattern matches no name at all. -/
def Unmatchable (pattern : List Char) : Prop :=
  ∃ segs, segments pattern = some segs ∧
    ∃ c, .entry c ∈ segs ∧ ∀ n, IsPlain n → fnmatch c n = false

theorem exists_namesEntries_of_segments {pattern : List Char} {segs : List Segment}
    (hsegs : segments pattern = some segs) (h : ¬ Unmatchable pattern) :
    ∃ name, NamesEntries name segs := by
  apply exists_namesEntries
  intro c hin
  by_contra hnone
  refine h ⟨segs, hsegs, c, hin, fun n hn => ?_⟩
  rw [← Bool.not_eq_true]
  exact fun hmatch => hnone ⟨n, hn, hmatch⟩

theorem Unmatchable.not_walk {pattern : List Char} (h : Unmatchable pattern)
    {segs : List Segment} (hsegs : segments pattern = some segs) {cs : List FileName} :
    ¬ Walk segs cs := by
  intro hwalk
  obtain ⟨segs', hsegs', c, hin, hnone⟩ := h
  cases hsegs.symm.trans hsegs'
  obtain ⟨n, hn, hmatch⟩ := hwalk.exists_of_mem hin
  rw [hnone n hn] at hmatch
  cases hmatch

def pathOf (name : List Char → FileName) : List Segment → List FileName
  | [] => []
  | .parent :: segs => dotDot :: pathOf name segs
  | .entry pattern :: segs => name pattern :: pathOf name segs
  | .descend :: segs | .here :: segs => pathOf name segs

theorem mem_pathOf {name : List Char → FileName} {segs : List Segment} {c : FileName}
    (h : c ∈ pathOf name segs) :
    c = dotDot ∨ ∃ pattern, .entry pattern ∈ segs ∧ c = name pattern := by
  induction segs with
  | nil => cases h
  | cons seg segs ih =>
    have hrest : c ∈ pathOf name segs →
        c = dotDot ∨ ∃ pattern, .entry pattern ∈ seg :: segs ∧ c = name pattern := by
      intro h
      rcases ih h with hdots | ⟨pattern, hin, heq⟩
      · exact .inl hdots
      · exact .inr ⟨pattern, List.mem_cons_of_mem seg hin, heq⟩
    cases seg with
    | parent =>
      rcases List.mem_cons.mp h with heq | h
      · exact .inl heq
      · exact hrest h
    | entry pattern =>
      rcases List.mem_cons.mp h with heq | h
      · exact .inr ⟨pattern, List.mem_cons_self, heq⟩
      · exact hrest h
    | descend | here => exact hrest h

theorem length_pathOf_le (name : List Char → FileName) (segs : List Segment) :
    (pathOf name segs).length ≤ segs.length := by
  induction segs with
  | nil => exact Nat.le_refl 0
  | cons seg segs ih =>
    cases seg with
    | parent | entry _ => exact Nat.succ_le_succ ih
    | descend | here => exact Nat.le_succ_of_le ih

/-- A path with a component for each segment and without double dots is one of names. -/
theorem eq_map_entry {name : List Char → FileName} {segs : List Segment}
    (hdots : dotDot ∉ pathOf name segs) (h : segs.length ≤ (pathOf name segs).length) :
    ∃ patterns : List (List Char), segs = patterns.map .entry := by
  induction segs with
  | nil => exact ⟨[], rfl⟩
  | cons seg segs ih =>
    have hle := length_pathOf_le name segs
    cases seg with
    | parent => exact absurd List.mem_cons_self hdots
    | descend | here =>
      simp only [pathOf, List.length_cons] at h
      omega
    | entry pattern =>
      obtain ⟨patterns, rfl⟩ :=
        ih (fun hin => hdots (List.mem_cons_of_mem _ hin)) (Nat.le_of_succ_le_succ h)
      exact ⟨pattern :: patterns, rfl⟩

theorem mem_select_pathOf {name : List Char → FileName} {segs : List Segment}
    (hname : NamesEntries name segs) {p : FilePath}
    (hdir : ∀ ds, ds <+: pathOf name segs → t.isDir (p ++ ds) = true) :
    p ++ pathOf name segs ∈ select t p segs := by
  induction segs generalizing p with
  | nil => simp [pathOf, select]
  | cons seg segs ih =>
    have hrest : NamesEntries name segs :=
      fun pattern hin => hname pattern (List.mem_cons_of_mem seg hin)
    have hsplit : ∀ (c : FileName) (ds : FilePath), p ++ [c] ++ ds = p ++ c :: ds :=
      fun c ds => by rw [List.append_assoc, List.singleton_append]
    cases seg with
    | parent =>
      have hp : t.isDir p = true := by simpa using hdir [] (List.nil_prefix)
      rw [select, if_pos hp, pathOf, ← hsplit dotDot (pathOf name segs)]
      refine ih hrest fun ds hds => ?_
      rw [hsplit]
      exact hdir (dotDot :: ds) (List.cons_prefix_cons.mpr ⟨rfl, hds⟩)
    | descend =>
      rw [select, List.mem_flatMap]
      refine ⟨p, ?_, ih hrest hdir⟩
      cases depth t with
      | zero => simp [subdirs]
      | succ d => simp [subdirs]
    | entry pattern =>
      obtain ⟨hplain, hmatch⟩ := hname pattern List.mem_cons_self
      have hentry : t.isDir (p ++ [name pattern]) = true :=
        hdir [name pattern] (List.cons_prefix_cons.mpr ⟨rfl, List.nil_prefix⟩)
      have hlisted : name pattern ∈ t.names p := by
        rw [FileTree.isDir_iff, resolve_concat_of_ne p hplain.2.2.2] at hentry
        rcases hentry with hnil | ⟨entry, hin, rfl | hbelow⟩
        · simp at hnil
        · exact FileTree.mem_names.mpr ⟨_, hin, List.prefix_refl _⟩
        · exact FileTree.mem_names.mpr ⟨entry, hin, hbelow.1⟩
      rw [select, List.mem_flatMap, pathOf, ← hsplit (name pattern) (pathOf name segs)]
      refine ⟨name pattern, List.mem_filter.mpr ⟨hlisted, ?_⟩, ih hrest fun ds hds => ?_⟩
      · rw [hmatch, hentry]
        simp
      · rw [hsplit]
        exact hdir (name pattern :: ds) (List.cons_prefix_cons.mpr ⟨rfl, hds⟩)
    | here => exact ih hrest hdir

def chain (p cs : FilePath) : FileTree α := cs.inits.map fun ds => (resolve (p ++ ds), .dir)

theorem mem_chain {p cs : FilePath} {entry : FilePath × FileNode α} :
    entry ∈ (chain p cs : FileTree α) ↔ ∃ ds, ds <+: cs ∧ entry = (resolve (p ++ ds), .dir) := by
  rw [chain, List.mem_map]
  refine exists_congr fun ds => ?_
  rw [List.mem_inits]
  exact and_congr_right fun _ => eq_comm

theorem isDir_chain {p cs ds : FilePath} (h : ds <+: cs) :
    (chain p cs : FileTree α).isDir (p ++ ds) = true :=
  FileTree.isDir_iff.mpr (.inr ⟨_, mem_chain.mpr ⟨ds, h, rfl⟩, .inl rfl⟩)

/-- What is selected is the directory itself, or an entry of a directory, or a parent. -/
theorem select_cases {segs : List Segment} {p q : FilePath} (h : q ∈ select t p segs) :
    q = p ∨ (∃ r n, q = r ++ [n] ∧ n ∈ t.names r) ∨ ∃ r, q = r ++ [dotDot] ∧ t.isDir r = true := by
  induction segs generalizing p with
  | nil => exact .inl (by simpa [select] using h)
  | cons seg segs ih =>
    cases seg with
    | parent =>
      rw [select] at h
      split_ifs at h with hp
      · rcases ih h with rfl | hq
        · exact .inr (.inr ⟨p, rfl, hp⟩)
        · exact .inr hq
      · cases h
    | descend =>
      rw [select, List.mem_flatMap] at h
      obtain ⟨r, hr, hq⟩ := h
      have hbelow : ∀ {d : ℕ} {p : FilePath}, r ∈ subdirs t d p →
          r = p ∨ ∃ r' n, r = r' ++ [n] ∧ n ∈ t.names r' := by
        intro d
        induction d with
        | zero => exact fun hr => .inl (by simpa [subdirs] using hr)
        | succ d ihd =>
          intro p hr
          rw [subdirs, List.mem_cons, List.mem_flatMap] at hr
          rcases hr with rfl | ⟨n, hn, hr⟩
          · exact .inl rfl
          · rcases ihd hr with rfl | hr
            · exact .inr ⟨p, n, rfl, (List.mem_filter.mp hn).1⟩
            · exact .inr hr
      rcases ih hq with rfl | hq
      · rcases hbelow hr with rfl | hr
        · exact .inl rfl
        · exact .inr (.inl hr)
      · exact .inr hq
    | entry pattern =>
      rw [select, List.mem_flatMap] at h
      obtain ⟨n, hn, hq⟩ := h
      rcases ih hq with rfl | hq
      · exact .inr (.inl ⟨p, n, rfl, (List.mem_filter.mp hn).1⟩)
      · exact .inr hq
    | here => exact ih h

/-- Removing what is selected in a listed directory removes something. -/
theorem exists_not_mem_remove (ht : t.WellFormed) {segs : List Segment} {p q : FilePath}
    (hp : (resolve p, .dir) ∈ t) (hne : resolve p ≠ []) (hlast : p.getLast? ≠ some dotDot)
    (h : q ∈ select t p segs) :
    (t.isDir q || t.isFile q) = true ∧ ∃ entry ∈ t, entry ∉ t.remove q := by
  have hremoved : ∀ entry ∈ t, resolve q <+: entry.1 →
      (q.getLast? = some dotDot → entry.1 ≠ resolve q) →
      (t.isDir q || t.isFile q) = true ∧ ∃ entry ∈ t, entry ∉ t.remove q := by
    intro entry hin hbelow hdots
    refine ⟨?_, entry, hin, FileTree.not_mem_remove hin hbelow hdots⟩
    rcases FileTree.isDir_or_isFile hin hbelow with hdir | ⟨-, hfile⟩
    · rw [hdir, Bool.true_or]
    · rw [hfile, Bool.or_true]
  rcases select_cases h with rfl | ⟨r, n, rfl, hn⟩ | ⟨r, rfl, hr⟩
  · exact hremoved _ hp (List.prefix_refl _) fun hcontra => absurd hcontra hlast
  · have hplain := ht.plain_of_mem_names hn
    obtain ⟨entry, hin, hbelow⟩ := FileTree.mem_names.mp hn
    rw [← resolve_concat_of_ne r hplain.2.2.2] at hbelow
    refine hremoved entry hin hbelow fun hcontra => absurd hcontra ?_
    rw [List.getLast?_concat]
    exact fun heq => hplain.2.2.2 (Option.some.inj heq)
  · have hparent : resolve (r ++ [dotDot]) = (resolve r).dropLast := resolve_concat_dotDot r
    rcases FileTree.isDir_iff.mp hr with hnil | ⟨entry, hin, hentry⟩
    · refine hremoved _ hp ?_ fun _ hcontra => ?_
      · rw [hparent, hnil]
        exact List.nil_prefix
      · rw [hparent, hnil] at hcontra
        exact hne hcontra
    · have hbelow : resolve r <+: entry.1 := by
        rcases hentry with rfl | hentry
        · exact List.prefix_refl _
        · exact hentry.1
      by_cases hnil : resolve r = []
      · refine hremoved _ hp ?_ fun _ hcontra => ?_
        · rw [hparent, hnil]
          exact List.nil_prefix
        · rw [hparent, hnil] at hcontra
          exact hne hcontra
      · refine hremoved entry hin ?_ fun _ hcontra => ?_
        · rw [hparent]
          exact (List.dropLast_prefix _).trans hbelow
        · have hlength := hbelow.length_le
          rw [hcontra, hparent, List.length_dropLast] at hlength
          have hpos := List.length_pos_iff.mpr hnil
          omega

theorem wellFormed_chain {base : FilePath} (hbase : ∀ c ∈ base, IsPlain c) {segs : List Segment}
    {name : List Char → FileName} (hname : NamesEntries name segs) :
    (chain base (pathOf name segs) : FileTree α).WellFormed := by
  intro entry hin c hc
  obtain ⟨ds, hds, rfl⟩ := mem_chain.mp hin
  obtain ⟨hmem, hdots⟩ := mem_of_mem_resolve hc
  rcases List.mem_append.mp hmem with hmem | hmem
  · exact hbase c hmem
  · rcases mem_pathOf (hds.subset hmem) with hcontra | ⟨pattern, hpattern, rfl⟩
    · exact absurd hcontra hdots
    · exact (hname pattern hpattern).1

/-- Where its components match names, a pattern selects among some directories a path that takes
one of them away. -/
theorem exists_chain_removed {base : FilePath} (hbase : ∀ c ∈ base, IsPlain c) (hne : base ≠ [])
    {pattern : List Char} {segs : List Segment} (hsegs : segments pattern = some segs)
    {name : List Char → FileName} (hname : NamesEntries name segs) :
    ∃ q qs, glob (chain base (pathOf name segs) : FileTree α) base pattern = some (q :: qs) ∧
      ((chain base (pathOf name segs) : FileTree α).isDir q ||
        (chain base (pathOf name segs) : FileTree α).isFile q) = true ∧
      ∃ ds, ds <+: pathOf name segs ∧
        (resolve (base ++ ds), .dir) ∉ (chain base (pathOf name segs) : FileTree α).remove q := by
  let t : FileTree α := chain base (pathOf name segs)
  have hdir : ∀ ds, ds <+: pathOf name segs → t.isDir (base ++ ds) = true :=
    fun ds hds => isDir_chain hds
  have hroot : t.isDir base = true := by simpa using hdir [] List.nil_prefix
  have hglob : glob t base pattern = some (select t base segs) := by
    rw [glob, hsegs, Option.map_some, if_pos hroot]
  have hself : resolve base = base := resolve_of_forall fun c hc => (hbase c hc).2.2.2
  have hmem : (resolve base, .dir) ∈ t :=
    mem_chain.mpr ⟨[], List.nil_prefix, by rw [List.append_nil]⟩
  have hselected := mem_select_pathOf hname hdir
  cases hselect : select t base segs with
  | nil =>
    rw [hselect] at hselected
    cases hselected
  | cons q qs =>
    have hq : q ∈ select t base segs := by
      rw [hselect]
      exact List.mem_cons_self
    have hlast : base.getLast? ≠ some dotDot := by
      intro hcontra
      exact (hbase _ (List.mem_of_getLast? hcontra)).2.2.2 rfl
    obtain ⟨hthere, entry, hin, hgone⟩ :=
      exists_not_mem_remove (wellFormed_chain hbase hname) hmem (by rwa [hself]) hlast hq
    obtain ⟨ds, hds, rfl⟩ := mem_chain.mp hin
    exact ⟨q, qs, hglob.trans (by rw [hselect]), hthere, ds, hds, hgone⟩

/-- Patterns that match the components one by one select a path with something at it or below. -/
theorem mem_select_of_below {t : FileTree α} (patterns : List (List Char)) {cs : List (List Char)}
    (h : List.Forall₂ (fun c n => fnmatch c n = true) patterns cs) {base : FilePath}
    (hplain : ∀ c ∈ base ++ cs, c ≠ dotDot) {entry : FilePath × FileNode α} (hin : entry ∈ t)
    (hbelow : base ++ cs <+: entry.1) : base ++ cs ∈ select t base (patterns.map .entry) := by
  induction h generalizing base with
  | nil => simp [select]
  | @cons c n patterns cs hmatch hrest ih =>
    have hsplit : base ++ n :: cs = base ++ [n] ++ cs := by simp
    rw [hsplit] at hplain hbelow ⊢
    have hself : resolve base = base := resolve_of_forall fun c hc =>
      hplain c (by simp [hc])
    have hself' : resolve (base ++ [n]) = base ++ [n] := resolve_of_forall fun c hc =>
      hplain c (List.mem_append_left _ hc)
    have hlisted : n ∈ t.names base := by
      refine FileTree.mem_names.mpr ⟨entry, hin, ?_⟩
      rw [hself]
      exact (List.prefix_append _ _).trans hbelow
    have hdir : (patterns.map Segment.entry).isEmpty = true ∨ t.isDir (base ++ [n]) = true := by
      cases hrest with
      | nil => exact Or.inl rfl
      | cons =>
        refine Or.inr (FileTree.isDir_iff.mpr (.inr ⟨entry, hin, .inr ⟨?_, ?_⟩⟩))
        · rw [hself']
          exact (List.prefix_append _ _).trans hbelow
        · rw [hself']
          intro heq
          have hle := hbelow.length_le
          rw [heq] at hle
          simp at hle
    rw [List.map_cons, select, List.mem_flatMap]
    exact ⟨n, List.mem_filter.mpr ⟨hlisted, by simpa [hmatch] using hdir⟩, ih hplain hbelow⟩

/-- What patterns for names select has something at it or below. -/
theorem exists_below_of_mem_glob {t : FileTree α} (ht : t.WellFormed) {base : FilePath}
    (hbase : ∀ c ∈ base, IsPlain c) (hne : base ≠ []) (hroot : (base, .dir) ∈ t)
    {pattern : List Char} {paths : List FilePath} (h : glob t base pattern = some paths)
    {q : FilePath} (hq : q ∈ paths) :
    (t.isDir q || t.isFile q) = true ∧ ∃ entry ∈ t, resolve q <+: entry.1 := by
  obtain ⟨segs, -, rfl⟩ := Option.map_eq_some_iff.mp h
  split_ifs at hq
  · have hself : resolve base = base := resolve_of_forall fun c hc => (hbase c hc).2.2.2
    have hlast : base.getLast? ≠ some dotDot := fun hlast =>
      (hbase _ (List.mem_of_getLast? hlast)).2.2.2 rfl
    obtain ⟨hthere, entry, hin, hgone⟩ :=
      exists_not_mem_remove ht (by rwa [hself]) (by rwa [hself]) hlast hq
    exact ⟨hthere, entry, hin, FileTree.below_of_not_mem_remove hin hgone⟩
  · cases hq

theorem Walk.of_entries {patterns : List (List Char)} {cs : List FileName}
    (h : Walk (patterns.map .entry) cs) :
    cs.length = patterns.length ∧ ∀ c ∈ cs, IsPlain c := by
  induction patterns generalizing cs with
  | nil =>
    cases h
    exact ⟨rfl, by simp⟩
  | cons c patterns ih =>
    cases h with
    | entry hn _ hwalk =>
      obtain ⟨hlength, hplain⟩ := ih hwalk
      exact ⟨congrArg Nat.succ hlength, List.forall_mem_cons.mpr ⟨hn, hplain⟩⟩

section FileAt

variable {base cs : FilePath} (hbase : ∀ c ∈ base, IsPlain c) (hcs : ∀ c ∈ cs, IsPlain c)

def fileAt (base cs : FilePath) (content : α) : FileTree α :=
  [(base, .dir), (base ++ cs, .file content)]

theorem mem_fileAt {content : α} {entry : FilePath × FileNode α} :
    entry ∈ fileAt base cs content ↔
      entry = (base, .dir) ∨ entry = (base ++ cs, .file content) := by simp [fileAt]

include hbase hcs

theorem wellFormed_fileAt (content : α) : (fileAt base cs content).WellFormed := by
  intro entry hin c hc
  rcases mem_fileAt.mp hin with rfl | rfl
  · exact hbase c hc
  · exact (List.mem_append.mp hc).elim (hbase c) (hcs c)

theorem resolve_append_of_plain : resolve (base ++ cs) = base ++ cs :=
  resolve_of_forall fun c hc => ((List.mem_append.mp hc).elim (hbase c) (hcs c)).2.2.2

theorem isFile_fileAt (content : α) (hne : base ++ cs ≠ base) :
    (fileAt base cs content).isFile (base ++ cs) = true := by
  have hself := resolve_append_of_plain hbase hcs
  unfold FileTree.isFile FileTree.node
  rw [hself, fileAt, Dict.lookup_cons, if_neg hne, Dict.lookup_cons, if_pos rfl]

/-- Patterns that match its components one by one select the file and nothing else. -/
theorem exists_glob_fileAt (content : α) (hne : base ≠ []) (hne' : cs ≠ []) {pattern : List Char}
    {patterns : List (List Char)} (hsegs : segments pattern = some (patterns.map .entry))
    (hmatch : List.Forall₂ (fun c n => fnmatch c n = true) patterns cs) :
    ∃ q qs, glob (fileAt base cs content) base pattern = some (q :: qs) ∧
      ∀ l ∈ q :: qs, l = base ++ cs := by
  have hwf := wellFormed_fileAt hbase hcs content
  have hroot : (base, .dir) ∈ fileAt base cs content := mem_fileAt.mpr (.inl rfl)
  have hin : (base ++ cs, .file content) ∈ fileAt base cs content := mem_fileAt.mpr (.inr rfl)
  have hself : resolve base = base := resolve_of_forall fun c hc => (hbase c hc).2.2.2
  have hdir : (fileAt base cs content).isDir base = true :=
    FileTree.isDir_iff.mpr (.inr ⟨_, hroot, .inl (by rw [hself])⟩)
  have hglob : glob (fileAt base cs content) base pattern =
      some (select (fileAt base cs content) base (patterns.map .entry)) := by
    rw [glob, hsegs, Option.map_some, if_pos hdir]
  have hselected : base ++ cs ∈ select (fileAt base cs content) base (patterns.map .entry) :=
    mem_select_of_below _ hmatch (fun c hc => (hwf _ hin c hc).2.2.2) hin (List.prefix_refl _)
  have hall : ∀ l ∈ select (fileAt base cs content) base (patterns.map .entry),
      l = base ++ cs := by
    intro l hl
    obtain ⟨cs', hwalk, rfl⟩ := walk_of_mem_select hwf hl
    obtain ⟨hlength, hplain⟩ := hwalk.of_entries
    obtain ⟨-, entry, hentry, hbelow⟩ := exists_below_of_mem_glob hwf hbase hne hroot hglob hl
    rw [resolve_append_of_plain hbase hplain] at hbelow
    have hpos := List.length_pos_iff.mpr hne'
    have hsame := hmatch.length_eq
    have hle := hbelow.length_le
    rcases mem_fileAt.mp hentry with rfl | rfl
    · rw [List.length_append] at hle
      dsimp only at hle
      omega
    · refine hbelow.eq_of_length ?_
      rw [List.length_append, List.length_append]
      omega
  cases hselect : select (fileAt base cs content) base (patterns.map .entry) with
  | nil =>
    rw [hselect] at hselected
    cases hselected
  | cons q qs =>
    rw [hselect] at hglob hall
    exact ⟨q, qs, hglob, hall⟩

end FileAt

section Files

theorem head?_dedup_append {β : Type} [DecidableEq β] {f : β} {l l' : List β}
    (h : ∀ n ∈ l, n = f ∨ n ∈ l') (hf : f ∈ l) (hf' : f ∉ l') :
    (l ++ l').dedup.head? = some f := by
  induction l with
  | nil => cases hf
  | cons n l ih =>
    have hrest : ∀ n ∈ l, n = f ∨ n ∈ l' := fun m hm => h m (List.mem_cons_of_mem n hm)
    by_cases hin : n ∈ l ++ l'
    · rw [List.cons_append, List.dedup_cons_of_mem hin]
      rcases List.mem_cons.mp hf with rfl | hf
      · exact ih hrest ((List.mem_append.mp hin).resolve_right hf')
      · exact ih hrest hf
    · rw [List.cons_append, List.dedup_cons_of_notMem hin, List.head?_cons]
      rcases h n List.mem_cons_self with rfl | hcontra
      · rfl
      · exact absurd (List.mem_append_right l hcontra) hin

/-- Directories with a file of the same name in each of them. -/
def filesIn (dirs : List FilePath) (f : FileName) (content : α) : FileTree α :=
  (dirs.map fun d => (d ++ [f], .file content)) ++ dirs.map fun d => (d, .dir)

theorem mem_filesIn {dirs : List FilePath} {f : FileName} {content : α}
    {entry : FilePath × FileNode α} : entry ∈ filesIn dirs f content ↔
      ∃ d ∈ dirs, entry = (d ++ [f], .file content) ∨ entry = (d, .dir) := by
  rw [filesIn, List.mem_append, List.mem_map, List.mem_map]
  constructor
  · rintro (⟨d, hd, rfl⟩ | ⟨d, hd, rfl⟩)
    · exact ⟨d, hd, .inl rfl⟩
    · exact ⟨d, hd, .inr rfl⟩
  · rintro ⟨d, hd, rfl | rfl⟩
    · exact .inl ⟨d, hd, rfl⟩
    · exact .inr ⟨d, hd, rfl⟩

variable {dirs : List FilePath} {f : FileName} {content : α}
  (hclosed : ∀ d ∈ dirs, ∀ d', d' <+: d → d' ∈ dirs) (hfresh : ∀ d ∈ dirs, f ∉ d)

include hclosed

theorem resolve_mem_of_names {r : FilePath} {n : FileName}
    (h : n ∈ (filesIn dirs f content).names r) : resolve r ∈ dirs := by
  obtain ⟨entry, hin, hbelow⟩ := FileTree.mem_names.mp h
  obtain ⟨d, hd, rfl | rfl⟩ := mem_filesIn.mp hin
  · refine hclosed d hd _ (List.prefix_of_prefix_length_le
      ((List.prefix_append _ _).trans hbelow) (List.prefix_append _ _) ?_)
    have hlength := hbelow.length_le
    simp only [List.length_append, List.length_singleton] at hlength
    omega
  · exact hclosed d hd _ ((List.prefix_append _ _).trans hbelow)

include hfresh

/-- In each directory the file is listed first. -/
theorem head?_names_filesIn {r : FilePath} (h : (filesIn dirs f content).names r ≠ []) :
    ((filesIn dirs f content).names r).head? = some f := by
  obtain ⟨n, hn⟩ := List.exists_mem_of_ne_nil _ h
  have hr := resolve_mem_of_names hclosed hn
  let files : FileTree α := dirs.map fun d => (d ++ [f], .file content)
  let subs : FileTree α := dirs.map fun d => (d, .dir)
  have hfiles : ∀ n, n ∈ files.names r ↔ ∃ d ∈ dirs, resolve r ++ [n] <+: d ++ [f] := by
    intro n
    rw [FileTree.mem_names]
    simp [files]
  have hsubs : ∀ n, n ∈ subs.names r ↔ ∃ d ∈ dirs, resolve r ++ [n] <+: d := by
    intro n
    rw [FileTree.mem_names]
    simp [subs]
  unfold FileTree.names filesIn
  rw [List.filterMap_append]
  apply head?_dedup_append
  · intro n hn
    obtain ⟨d, hd, hbelow⟩ := (hfiles n).mp (List.mem_dedup.mpr hn)
    rcases List.prefix_concat_iff.mp hbelow with heq | hbelow
    · left
      exact (List.append_inj' heq rfl).2 |> List.singleton_inj.mp
    · exact .inr (List.mem_dedup.mp ((hsubs n).mpr ⟨d, hd, hbelow⟩))
  · exact List.mem_dedup.mp ((hfiles f).mpr ⟨resolve r, hr, List.prefix_refl _⟩)
  · intro hcontra
    obtain ⟨d, hd, hbelow⟩ := (hsubs f).mp (List.mem_dedup.mpr hcontra)
    exact hfresh d hd (hbelow.subset (by simp))

omit hclosed in
theorem isFile_filesIn (hf : f ≠ dotDot) {r : FilePath} (hr : resolve r ∈ dirs) :
    (filesIn dirs f content).isFile (r ++ [f]) = true := by
  have hpath : resolve (r ++ [f]) = resolve r ++ [f] := resolve_concat_of_ne r hf
  have hin : (resolve r ++ [f], .file content) ∈ filesIn dirs f content :=
    mem_filesIn.mpr ⟨_, hr, .inl rfl⟩
  have hbelow : ∀ d ∈ dirs, ¬ resolve r ++ [f] <+: d :=
    fun d hd hcontra => hfresh d hd (hcontra.subset (by simp))
  rcases FileTree.isDir_or_isFile hin (by rw [hpath]) with hdir | ⟨-, hfile⟩
  · rw [FileTree.isDir_iff, hpath] at hdir
    rcases hdir with hcontra | ⟨entry, hentry, hcase⟩
    · simp at hcontra
    · obtain ⟨d, hd, rfl | rfl⟩ := mem_filesIn.mp hentry
      · rcases hcase with hcontra | ⟨hcontra, hne⟩
        · simp at hcontra
        · rcases List.prefix_concat_iff.mp hcontra with heq | hcontra
          · exact absurd heq.symm hne
          · exact absurd hcontra (hbelow d hd)
      · rcases hcase with hcontra | ⟨hcontra, -⟩
        · cases hcontra
          exact absurd (List.prefix_refl _) (hbelow _ hd)
        · exact absurd hcontra (hbelow d hd)
  · exact hfile

omit hclosed hfresh in
theorem mem_select_concat {t : FileTree α} {segs : List Segment} {p q : FilePath}
    (h : q ∈ select t p segs) (hq : t.isDir q = true) {c n : List Char} (hn : n ∈ t.names q)
    (hmatch : fnmatch c n = true) : q ++ [n] ∈ select t p (segs ++ [.entry c]) := by
  induction segs generalizing p with
  | nil =>
    cases List.mem_singleton.mp h
    rw [List.nil_append, select, List.mem_flatMap]
    exact ⟨n, List.mem_filter.mpr ⟨hn, by simp [hmatch]⟩, by simp [select]⟩
  | cons seg segs ih =>
    cases seg with
    | parent =>
      rw [select] at h
      split_ifs at h with hp
      · rw [List.cons_append, select, if_pos hp]
        exact ih h
      · cases h
    | descend =>
      rw [select, List.mem_flatMap] at h
      obtain ⟨r, hr, h⟩ := h
      rw [List.cons_append, select, List.mem_flatMap]
      exact ⟨r, hr, ih h⟩
    | entry d =>
      rw [select, List.mem_flatMap] at h
      obtain ⟨m, hm, h⟩ := h
      obtain ⟨hlisted, hd⟩ := List.mem_filter.mp hm
      rw [Bool.and_eq_true, Bool.or_eq_true] at hd
      have hdir : t.isDir (p ++ [m]) = true := by
        rcases hd.2 with hnil | hdir
        · cases List.isEmpty_iff.mp hnil
          cases List.mem_singleton.mp h
          exact hq
        · exact hdir
      rw [List.cons_append, select, List.mem_flatMap]
      exact ⟨m, List.mem_filter.mpr ⟨hlisted, by simp [hd.1, hdir]⟩, ih h⟩
    | here =>
      rw [select] at h
      rw [List.cons_append, select]
      exact ih h

/-- What is selected first is one of the files. -/
theorem exists_of_head?_select {c : List Char} (hc : fnmatch c f = true) {segs : List Segment}
    {p q : FilePath}
    (h : (select (filesIn dirs f content) p (segs ++ [.entry c])).head? = some q) :
    ∃ r, q = r ++ [f] ∧ resolve r ∈ dirs := by
  have hflatMap : ∀ {β : Type} {l : List β} {g : β → List FilePath},
      (l.flatMap g).head? = some q → ∃ b ∈ l, (g b).head? = some q := by
    intro β l g h
    rw [List.head?_flatMap] at h
    exact List.exists_of_findSome?_eq_some h
  induction segs generalizing p with
  | nil =>
    rw [List.nil_append, select] at h
    obtain ⟨n, hn, -⟩ := hflatMap h
    have hhead := head?_names_filesIn hclosed hfresh
      (List.ne_nil_of_mem (List.mem_filter.mp hn).1)
    obtain ⟨names, hnames⟩ := List.head?_eq_some_iff.mp hhead
    have hdir := resolve_mem_of_names hclosed (List.mem_filter.mp hn).1
    rw [hnames, List.filter_cons_of_pos (by simp [hc]), List.flatMap_cons, select,
      List.singleton_append, List.head?_cons] at h
    cases h
    exact ⟨p, rfl, hdir⟩
  | cons seg segs ih =>
    rw [List.cons_append] at h
    cases seg with
    | parent =>
      rw [select] at h
      split_ifs at h
      · exact ih h
      · cases h
    | descend =>
      rw [select] at h
      obtain ⟨r, -, h⟩ := hflatMap h
      exact ih h
    | entry d =>
      rw [select] at h
      obtain ⟨n, -, h⟩ := hflatMap h
      exact ih h
    | here =>
      rw [select] at h
      exact ih h

omit hclosed hfresh in
/-- Where its components match names and the last one a fresh name, a pattern selects a file of
that name first. -/
theorem exists_filesIn_selected {base : FilePath} (hbase : ∀ c ∈ base, IsPlain c)
    {pattern c : List Char} {segs : List Segment}
    (hsegs : segments pattern = some (segs ++ [.entry c])) {name : List Char → FileName}
    (hname : NamesEntries name segs) (hf : IsPlain f) (hc : fnmatch c f = true)
    (hfresh : f ∉ base ++ pathOf name segs) (content : α) :
    ∃ t : FileTree α, t.WellFormed ∧
      (∀ entry ∈ t, entry.2 = .dir ∨ ∃ d, entry = (d ++ [f], .file content)) ∧
      ∃ q qs d, glob t base pattern = some (q :: qs) ∧ t.isFile q = true ∧
        resolve q = d ++ [f] ∧ (d ++ [f], .file content) ∈ t := by
  let dirs : List FilePath :=
    (pathOf name segs).inits.flatMap fun ds => (resolve (base ++ ds)).inits
  have hdirs : ∀ d, d ∈ dirs ↔ ∃ ds, ds <+: pathOf name segs ∧ d <+: resolve (base ++ ds) := by
    intro d
    simp only [dirs, List.mem_flatMap, List.mem_inits]
  have hclosed : ∀ d ∈ dirs, ∀ d', d' <+: d → d' ∈ dirs := by
    intro d hd d' hbelow
    obtain ⟨ds, hds, hd⟩ := (hdirs d).mp hd
    exact (hdirs d').mpr ⟨ds, hds, hbelow.trans hd⟩
  have hmem : ∀ d ∈ dirs, ∀ c ∈ d, c ∈ base ++ pathOf name segs ∧ c ≠ dotDot := by
    intro d hd c hin
    obtain ⟨ds, hds, hd⟩ := (hdirs d).mp hd
    obtain ⟨hin, hdots⟩ := mem_of_mem_resolve (hd.subset hin)
    refine ⟨?_, hdots⟩
    rcases List.mem_append.mp hin with hin | hin
    · exact List.mem_append_left _ hin
    · exact List.mem_append_right _ (hds.subset hin)
  have hnot : ∀ d ∈ dirs, f ∉ d := fun d hd hin => hfresh (hmem d hd f hin).1
  have hplain : ∀ d ∈ dirs, ∀ c ∈ d, IsPlain c := by
    intro d hd c hin
    obtain ⟨hin, hdots⟩ := hmem d hd c hin
    rcases List.mem_append.mp hin with hin | hin
    · exact hbase c hin
    · rcases mem_pathOf hin with hcontra | ⟨pattern, hpattern, rfl⟩
      · exact absurd hcontra hdots
      · exact (hname pattern hpattern).1
  have hdir : ∀ ds, ds <+: pathOf name segs →
      (filesIn dirs f content).isDir (base ++ ds) = true := by
    intro ds hds
    refine FileTree.isDir_iff.mpr (.inr ⟨_, mem_filesIn.mpr ⟨resolve (base ++ ds), ?_, .inr rfl⟩,
      .inl rfl⟩)
    exact (hdirs _).mpr ⟨ds, hds, List.prefix_refl _⟩
  have hlast : resolve (base ++ pathOf name segs) ∈ dirs :=
    (hdirs _).mpr ⟨_, List.prefix_refl _, List.prefix_refl _⟩
  have hroot : (filesIn dirs f content).isDir base = true := by simpa using hdir [] List.nil_prefix
  have hglob : glob (filesIn dirs f content) base pattern =
      some (select (filesIn dirs f content) base (segs ++ [.entry c])) := by
    rw [glob, hsegs, Option.map_some, if_pos hroot]
  have hselected : base ++ pathOf name segs ++ [f] ∈
      select (filesIn dirs f content) base (segs ++ [.entry c]) := by
    refine mem_select_concat (mem_select_pathOf hname hdir) (hdir _ (List.prefix_refl _)) ?_ hc
    exact FileTree.mem_names.mpr
      ⟨_, mem_filesIn.mpr ⟨_, hlast, .inl rfl⟩, List.prefix_refl _⟩
  refine ⟨filesIn dirs f content, ?_, ?_, ?_⟩
  · intro entry hin c hc
    obtain ⟨d, hd, rfl | rfl⟩ := mem_filesIn.mp hin
    · rcases List.mem_append.mp hc with hc | hc
      · exact hplain d hd c hc
      · rw [List.mem_singleton.mp hc]
        exact hf
    · exact hplain d hd c hc
  · intro entry hin
    obtain ⟨d, -, rfl | rfl⟩ := mem_filesIn.mp hin
    · exact .inr ⟨d, rfl⟩
    · exact .inl rfl
  · cases hselect : select (filesIn dirs f content) base (segs ++ [.entry c]) with
    | nil =>
      rw [hselect] at hselected
      cases hselected
    | cons q qs =>
      have hhead : (select (filesIn dirs f content) base (segs ++ [.entry c])).head? = some q := by
        rw [hselect, List.head?_cons]
      obtain ⟨r, rfl, hr⟩ := exists_of_head?_select hclosed hnot hc hhead
      exact ⟨_, qs, resolve r, hglob.trans (by rw [hselect]),
        isFile_filesIn hnot hf.2.2.2 hr, resolve_concat_of_ne r hf.2.2.2,
        mem_filesIn.mpr ⟨_, hr, .inl rfl⟩⟩

end Files

end FileGlob
