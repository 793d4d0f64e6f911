import Mathlib.Data.List.Induction

/-!
# Paths of a POSIX file system as `pathlib` reads them

A path is an anchor and the components between its slashes; empty components and
single dots are dropped where the text is read, double dots are kept. An absolute
operand of `/` replaces what stands before it. `resolve` follows the double dots.
-/

/-- `PurePosixPath`. Two leading slashes are an anchor of their own. -/
@[ext] structure PosixPath where
  anchor : List Char
  parts : List (List Char)
deriving DecidableEq

namespace PosixPath

def dot : List Char := ['.']

def dotDot : List Char := ['.', '.']

def anchorOf : List Char → List Char
  | '/' :: '/' :: '/' :: _ => ['/']
  | '/' :: '/' :: _ => ['/', '/']
  | '/' :: _ => ['/']
  | _ => []

/-- `Path(text)`. -/
def ofText (t : List Char) : PosixPath :=
  ⟨anchorOf t, (t.splitOn '/').filter fun c => c ≠ [] && c ≠ dot⟩

def toText (p : PosixPath) : List Char :=
  if p.anchor = [] ∧ p.parts = [] then dot else p.anchor ++ ['/'].intercalate p.parts

/-- `p / q`. -/
def join (p q : PosixPath) : PosixPath :=
  if q.anchor = [] then ⟨p.anchor, p.parts ++ q.parts⟩ else q

def child (p : PosixPath) (name : List Char) : PosixPath := ⟨p.anchor, p.parts ++ [name]⟩

def name (p : PosixPath) : List Char := (p.parts.getLast?).getD []

/-- `stem`: the name up to its last dot, where that dot is neither its first character nor its
last one. -/
def stem (p : PosixPath) : List Char :=
  let suffix := p.name.reverse.takeWhile (· ≠ '.')
  let before := (p.name.reverse.drop suffix.length).drop 1
  if suffix = [] ∨ before = [] ∨ suffix.length = p.name.length then p.name else before.reverse

/-- The component is taken as it stands by `ofText`, and names an entry of a directory. -/
def IsPlain (c : List Char) : Prop := c ≠ [] ∧ '/' ∉ c ∧ c ≠ dot ∧ c ≠ dotDot

instance (c : List Char) : Decidable (IsPlain c) := inferInstanceAs (Decidable (_ ∧ _))

def resolveStep (path : List (List Char)) (c : List Char) : List (List Char) :=
  if c = dotDot then path.dropLast else path ++ [c]

/-- The components of an absolute path behind its double dots. -/
def resolve (parts : List (List Char)) : List (List Char) := parts.foldl resolveStep []

theorem resolve_append (ps qs : List (List Char)) :
    resolve (ps ++ qs) = qs.foldl resolveStep (resolve ps) :=
  List.foldl_append

theorem resolve_append_of_forall (ps : List (List Char)) {qs : List (List Char)}
    (hqs : ∀ c ∈ qs, c ≠ dotDot) : resolve (ps ++ qs) = resolve ps ++ qs := by
  rw [resolve_append]
  generalize resolve ps = path
  induction qs generalizing path with
  | nil => simp
  | cons c qs ih =>
    rw [List.foldl_cons, resolveStep, if_neg (hqs c List.mem_cons_self),
      ih fun d hd => hqs d (List.mem_cons_of_mem c hd), List.append_assoc, List.singleton_append]

theorem resolve_of_forall {ps : List (List Char)} (hps : ∀ c ∈ ps, c ≠ dotDot) :
    resolve ps = ps := by
  simpa [resolve] using resolve_append_of_forall [] hps

/-- Resolving leaves no double dots, and no component that was not there. -/
theorem mem_of_mem_resolve {ps : List (List Char)} {c : List Char} (h : c ∈ resolve ps) :
    c ∈ ps ∧ c ≠ dotDot := by
  induction ps using List.reverseRecOn with
  | nil => cases h
  | append_singleton ps d ih =>
    rw [resolve_append, List.foldl_cons, List.foldl_nil, resolveStep] at h
    split_ifs at h with hd
    · obtain ⟨hin, hne⟩ := ih (List.dropLast_subset _ h)
      exact ⟨List.mem_append_left _ hin, hne⟩
    · rcases List.mem_append.mp h with hin | hin
      · obtain ⟨hin, hne⟩ := ih hin
        exact ⟨List.mem_append_left _ hin, hne⟩
      · rw [List.mem_singleton.mp hin]
        exact ⟨by simp, hd⟩

theorem length_resolve_le (ps : List (List Char)) : (resolve ps).length ≤ ps.length := by
  induction ps using List.reverseRecOn with
  | nil => exact Nat.le_refl 0
  | append_singleton ps d ih =>
    rw [resolve_append, List.foldl_cons, List.foldl_nil, resolveStep]
    split_ifs
    · simp only [List.length_dropLast, List.length_append, List.length_cons, List.length_nil]
      omega
    · simp only [List.length_append, List.length_cons, List.length_nil]
      omega

/-- A path that resolving does not shorten is resolved. -/
theorem resolve_eq_of_length_le {ps : List (List Char)} (h : ps.length ≤ (resolve ps).length) :
    resolve ps = ps := by
  induction ps using List.reverseRecOn with
  | nil => rfl
  | append_singleton ps d ih =>
    rw [resolve_append, List.foldl_cons, List.foldl_nil, resolveStep] at h ⊢
    have hle := length_resolve_le ps
    split_ifs at h ⊢ with hd
    · simp only [List.length_dropLast, List.length_append, List.length_cons,
        List.length_nil] at h
      omega
    · simp only [List.length_append, List.length_cons, List.length_nil] at h
      rw [ih (by omega)]

theorem resolve_concat_dotDot (ps : List (List Char)) :
    resolve (ps ++ [dotDot]) = (resolve ps).dropLast := by
  rw [resolve_append, List.foldl_cons, List.foldl_nil, resolveStep, if_pos rfl]

theorem resolve_concat_of_ne (ps : List (List Char)) {c : List Char} (hc : c ≠ dotDot) :
    resolve (ps ++ [c]) = resolve ps ++ [c] :=
  resolve_append_of_forall ps fun d hd => by rwa [List.mem_singleton.mp hd]

/-- A name in a directory is read off the resolved path. -/
theorem resolve_concat_injective (ps : List (List Char)) {c d : List Char}
    (h : resolve (ps ++ [c]) = resolve (ps ++ [d])) : c = d := by
  by_cases hc : c = dotDot
  · by_cases hd : d = dotDot
    · rw [hc, hd]
    · subst hc
      rw [resolve_concat_of_ne ps hd, resolve_concat_dotDot] at h
      have hlength := congrArg List.length h
      simp only [List.length_dropLast, List.length_append, List.length_cons,
        List.length_nil] at hlength
      omega
  · by_cases hd : d = dotDot
    · subst hd
      rw [resolve_concat_of_ne ps hc, resolve_concat_dotDot] at h
      have hlength := congrArg List.length h
      simp only [List.length_dropLast, List.length_append, List.length_cons,
        List.length_nil] at hlength
      omega
    · rw [resolve_concat_of_ne ps hc, resolve_concat_of_ne ps hd] at h
      simpa using h

theorem anchorOf_cons_of_ne {c : Char} {t : List Char} (hc : c ≠ '/') :
    anchorOf (c :: t) = [] := by
  unfold anchorOf
  split <;> simp_all

theorem anchorOf_of_not_mem {t : List Char} (h : '/' ∉ t) : anchorOf t = [] := by
  cases t with
  | nil => rfl
  | cons c t => exact anchorOf_cons_of_ne fun heq => h (heq ▸ List.mem_cons_self)

def front (p : PosixPath) : List Char := p.anchor ++ p.parts.flatMap fun c => c ++ ['/']

theorem intercalate_concat (ps : List (List Char)) (c : List Char) :
    ['/'].intercalate (ps ++ [c]) = (ps.flatMap fun c => c ++ ['/']) ++ c := by
  induction ps with
  | nil => simp
  | cons d ps ih =>
    cases ps with
    | nil => simp
    | cons e ps =>
      rw [List.cons_append, List.cons_append, List.intercalate_cons_cons, ← List.cons_append, ih]
      simp

theorem toText_child (p : PosixPath) (name : List Char) :
    (p.child name).toText = p.front ++ name := by
  rw [toText, if_neg (by simp [child]), child, front, intercalate_concat, List.append_assoc]

/-- Only the working directory has no slash in its front. -/
theorem slash_mem_front {t : List Char} (h : ofText t ≠ ⟨[], []⟩) : '/' ∈ (ofText t).front := by
  rw [front, List.mem_append]
  by_cases hanchor : (ofText t).anchor = []
  · right
    cases hparts : (ofText t).parts with
    | nil => exact absurd (PosixPath.ext hanchor hparts) h
    | cons c ps => simp
  · left
    have hform : ∀ t, anchorOf t = [] ∨ '/' ∈ anchorOf t := by
      intro t
      unfold anchorOf
      split <;> simp
    exact (hform t).resolve_left hanchor

/-- The parts of a text are those before and behind one of its slashes. -/
theorem parts_ofText_slash (a b : List Char) :
    (ofText (a ++ '/' :: b)).parts = (ofText a).parts ++ (ofText b).parts := by
  rw [ofText, List.splitOn_append_cons_self, List.filter_append]
  rfl

/-- A plain component is one part. -/
theorem ofText_of_isPlain {c : List Char} (h : IsPlain c) : ofText c = ⟨[], [c]⟩ := by
  obtain ⟨hne, hslash, hdot, _⟩ := h
  rw [ofText, anchorOf_of_not_mem hslash, List.splitOn_eq_singleton hslash]
  simp [hne, hdot]

example : (ofText "/tmp//p/./a.thy".toList).toText = "/tmp/p/a.thy".toList := by decide

example : (ofText "/tmp/p/a.b.thy".toList).stem = "a.b".toList := by decide

end PosixPath
