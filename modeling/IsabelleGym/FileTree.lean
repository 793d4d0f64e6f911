import IsabelleGym.Dict
import IsabelleGym.PosixPath
import Mathlib.Data.List.Dedup
import Mathlib.Data.List.Infix
import Mathlib.Tactic.Tauto

/-!
# File trees

A file tree lists its directories and files under resolved paths. A directory is
there as well where something is listed below it. Paths are given as they are
written, with their double dots.
-/

inductive FileNode (α : Type)
  | dir
  | file (content : α)
deriving DecidableEq

abbrev FileName := List Char

abbrev FilePath := List FileName

abbrev FileTree (α : Type) := Dict FilePath (FileNode α)

namespace FileTree

open PosixPath

variable {α : Type} (t : FileTree α)

def node (p : FilePath) : Option (FileNode α) := t.lookup (resolve p)

/-- A path is a directory where it is listed as one or something is listed below it. -/
def isDir (p : FilePath) : Bool :=
  resolve p = [] || t.any fun entry =>
    (entry.1 = resolve p && match entry.2 with
      | .dir => true
      | .file _ => false) ||
    ((resolve p).isPrefixOf entry.1 && entry.1 ≠ resolve p)

def isFile (p : FilePath) : Bool :=
  match t.node p with
  | some (.file _) => true
  | _ => false

def names (p : FilePath) : List FileName :=
  (t.filterMap fun entry =>
    if (resolve p).isPrefixOf entry.1 then entry.1[(resolve p).length]? else none).dedup

def WellFormed : Prop := ∀ entry ∈ t, ∀ c ∈ entry.1, IsPlain c

def unlink (p : FilePath) : FileTree α := Dict.del t (resolve p)

/-- `shutil.rmtree`, which cannot remove a directory under a name that ends in double dots. -/
def rmtree (p : FilePath) : FileTree α :=
  t.filter fun entry =>
    !(resolve p).isPrefixOf entry.1 || (p.getLast? = some dotDot && entry.1 = resolve p)

def remove (p : FilePath) : FileTree α :=
  if t.isDir p then t.rmtree p else if t.isFile p then t.unlink p else t

def write (p : FilePath) (content : α) : FileTree α := Dict.put t (resolve p) (.file content)

theorem node_write_of_eq {p q : FilePath} (content : α) (h : resolve q = resolve p) :
    (t.write p content).node q = some (.file content) := by
  rw [node, h, write, Dict.lookup_put_self]

theorem node_write_of_ne {p q : FilePath} (content : α) (h : resolve q ≠ resolve p) :
    (t.write p content).node q = t.node q := by
  rw [node, write, Dict.lookup_put_of_ne h, node]

variable {t}

theorem mem_names {p : FilePath} {n : FileName} :
    n ∈ t.names p ↔ ∃ entry ∈ t, resolve p ++ [n] <+: entry.1 := by
  rw [names, List.mem_dedup, List.mem_filterMap]
  refine exists_congr fun entry => and_congr_right fun _ => ?_
  constructor
  · intro h
    split_ifs at h with hbelow
    obtain ⟨rest, hrest⟩ := List.isPrefixOf_iff_prefix.mp hbelow
    rw [← hrest, List.getElem?_append_right (Nat.le_refl _), Nat.sub_self] at h
    cases rest with
    | nil => cases h
    | cons c rest =>
      cases h
      exact ⟨rest, by rw [← hrest]; simp⟩
  · rintro ⟨rest, hrest⟩
    have hbelow : (resolve p).isPrefixOf entry.1 = true :=
      List.isPrefixOf_iff_prefix.mpr ⟨n :: rest, by rw [← hrest]; simp⟩
    rw [if_pos hbelow, ← hrest]
    simp

theorem isDir_iff {p : FilePath} :
    t.isDir p = true ↔ resolve p = [] ∨
      ∃ entry ∈ t, entry = (resolve p, .dir) ∨ resolve p <+: entry.1 ∧ entry.1 ≠ resolve p := by
  rw [isDir, Bool.or_eq_true, List.any_eq_true, decide_eq_true_eq]
  refine or_congr Iff.rfl (exists_congr fun entry => and_congr_right fun _ => ?_)
  rw [Bool.or_eq_true, Bool.and_eq_true, Bool.and_eq_true, List.isPrefixOf_iff_prefix,
    decide_eq_true_eq, decide_eq_true_eq]
  refine or_congr ?_ Iff.rfl
  obtain ⟨q, node⟩ := entry
  cases node with
  | dir => simp
  | file content => simp

theorem mem_unlink {p : FilePath} {entry : FilePath × FileNode α} :
    entry ∈ t.unlink p ↔ entry ∈ t ∧ entry.1 ≠ resolve p := Dict.mem_del

theorem mem_rmtree {p : FilePath} {entry : FilePath × FileNode α} :
    entry ∈ t.rmtree p ↔ entry ∈ t ∧
      (resolve p <+: entry.1 → p.getLast? = some dotDot ∧ entry.1 = resolve p) := by
  rw [rmtree, List.mem_filter]
  refine and_congr_right fun _ => ?_
  rw [Bool.or_eq_true, Bool.not_eq_true', Bool.and_eq_true, decide_eq_true_eq, decide_eq_true_eq,
    ← Bool.not_eq_true, List.isPrefixOf_iff_prefix]
  tauto

theorem mem_of_mem_remove {p : FilePath} {entry : FilePath × FileNode α}
    (h : entry ∈ t.remove p) : entry ∈ t := by
  unfold remove at h
  split_ifs at h
  · exact (mem_rmtree.mp h).1
  · exact (mem_unlink.mp h).1
  · exact h

/-- Only what is at the path or below it is removed. -/
theorem below_of_not_mem_remove {p : FilePath} {entry : FilePath × FileNode α} (hin : entry ∈ t)
    (h : entry ∉ t.remove p) : resolve p <+: entry.1 := by
  unfold remove at h
  split_ifs at h
  · by_contra hnot
    exact h (mem_rmtree.mpr ⟨hin, fun hbelow => absurd hbelow hnot⟩)
  · by_contra hnot
    refine h (mem_unlink.mpr ⟨hin, fun heq => hnot ?_⟩)
    rw [heq]
  · exact absurd hin h

/-- What stands at the path is a directory or a file. -/
theorem isDir_or_isFile {p : FilePath} {entry : FilePath × FileNode α} (hin : entry ∈ t)
    (h : resolve p <+: entry.1) : t.isDir p = true ∨ entry.1 = resolve p ∧ t.isFile p = true := by
  by_cases hdir : t.isDir p = true
  · exact .inl hdir
  · have hnot : ∀ e ∈ t, resolve p <+: e.1 → e.1 = resolve p ∧ e ≠ (resolve p, .dir) := by
      intro e he hbelow
      refine ⟨?_, ?_⟩
      · by_contra hne
        exact hdir (isDir_iff.mpr (.inr ⟨e, he, .inr ⟨hbelow, hne⟩⟩))
      · rintro rfl
        exact hdir (isDir_iff.mpr (.inr ⟨_, he, .inl rfl⟩))
    obtain ⟨heq, -⟩ := hnot entry hin h
    refine .inr ⟨heq, ?_⟩
    unfold isFile node
    cases hlookup : t.lookup (resolve p) with
    | none => exact absurd heq (Dict.lookup_eq_none.mp hlookup entry hin)
    | some found =>
      cases found with
      | dir => exact absurd rfl (hnot _ (Dict.mem_of_lookup hlookup) (List.prefix_refl _)).2
      | file content => rfl

theorem exists_of_isFile {p : FilePath} (h : t.isFile p = true) :
    ∃ content, (resolve p, .file content) ∈ t := by
  unfold isFile node at h
  cases hlookup : t.lookup (resolve p) with
  | none =>
    rw [hlookup] at h
    cases h
  | some found =>
    cases found with
    | dir =>
      rw [hlookup] at h
      cases h
    | file content => exact ⟨content, Dict.mem_of_lookup hlookup⟩

/-- A path that does not end in double dots is removed with all that is below. -/
theorem not_mem_remove {p : FilePath} {entry : FilePath × FileNode α} (hin : entry ∈ t)
    (h : resolve p <+: entry.1) (hlast : p.getLast? = some dotDot → entry.1 ≠ resolve p) :
    entry ∉ t.remove p := by
  unfold remove
  rcases isDir_or_isFile hin h with hdir | ⟨heq, hfile⟩
  · rw [if_pos hdir, mem_rmtree]
    rintro ⟨-, hrest⟩
    exact hlast (hrest h).1 (hrest h).2
  · by_cases hdir : t.isDir p = true
    · rw [if_pos hdir, mem_rmtree]
      rintro ⟨-, hrest⟩
      exact hlast (hrest h).1 (hrest h).2
    · rw [if_neg hdir, if_pos hfile, mem_unlink]
      exact fun hcontra => hcontra.2 heq

theorem WellFormed.plain_of_mem_names (ht : t.WellFormed) {p : FilePath} {n : FileName}
    (h : n ∈ t.names p) : IsPlain n := by
  obtain ⟨entry, hin, hbelow⟩ := mem_names.mp h
  exact ht entry hin n (hbelow.subset (by simp))

end FileTree
