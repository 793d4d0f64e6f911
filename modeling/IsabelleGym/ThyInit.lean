import Mathlib.Data.Finset.Erase
import Mathlib.Data.Finset.Insert
import IsabelleGym.Dict
import IsabelleGym.ThyStatus

/-!
# Wrapper theories

The wrapper of some theories is a file made from a template. Its name is tracked
until it is cleaned up. Writing a file and deleting it can each fail, and a failed
write may leave something in the file.
-/

namespace IsabelleGym

def initThy : Text :=
  ("theory [filename]\n  imports \"HOL.Sledgehammer\" [thys]\nbegin\n" ++
    "ML_file \\<open>../src/ml/REPL.ML\\<close>\nend").toList

def thysPool : List Text := ["Analysis_init", "Complex_Main_init", "Pure_init"].map String.toList

instance (filename : Text) : Decidable (filename ∈ thysPool) :=
  decidable_of_iff (thysPool.contains filename = true) List.contains_iff_mem

/-- `replace`, with the characters of a match that are still to be skipped. -/
def replaceFrom (old new : Text) : ℕ → Text → Text
  | _, [] => []
  | n + 1, _ :: t => replaceFrom old new n t
  | 0, c :: t =>
    if old.isPrefixOf (c :: t) then new ++ replaceFrom old new (old.length - 1) t
    else c :: replaceFrom old new 0 t

/-- The template and the files that are tracked, beside the files of the directory. -/
structure ThyInit where
  template : Text
  createdFiles : Finset Text := ∅
  files : Dict Text Text

/-- How writing a file ends. One that fails may leave something in it. -/
inductive FileWrite
  | done
  | failed (left : Option Text)

def FileWrite.written (content : Text) : FileWrite → Option Text
  | done => some content
  | failed left => left

namespace ThyInit

variable (T : ThyInit)

def formatThys (thys : List Text) : Text :=
  [' '].intercalate (thys.map fun theory => '"' :: theory ++ ['"'])

def generateThyFile (thys : List Text) (filename : Text) : Text :=
  replaceFrom "[filename]".toList filename 0
    (replaceFrom "[thys]".toList (formatThys thys) 0 T.template)

/-- The name of the theory, none for a failure. -/
def genFile (filename : Text) (thys : List Text) (write : FileWrite) : Option Text × ThyInit :=
  if filename ∈ thysPool then (some filename, T)
  else
    match write with
    | .done => (some filename, { T with
        createdFiles := insert filename T.createdFiles
        files := Dict.put T.files filename (T.generateThyFile thys filename) })
    | .failed none => (none, T)
    | .failed (some left) => (none, { T with files := Dict.put T.files filename left })

/-- Whether the clean-up succeeds, for an attempt to delete the file that does or does not. -/
def cleanup (filename : Text) (unlinked : Bool) : Bool × ThyInit :=
  if filename ∉ T.createdFiles then (false, T)
  else if filename ∈ thysPool then (true, T)
  else if (T.files.lookup filename).isSome && !unlinked then (false, T)
  else (true, { T with
    createdFiles := T.createdFiles.erase filename
    files := Dict.del T.files filename })

variable {filename w : Text} (thys : List Text) (write : FileWrite)

@[simp] theorem template_genFile : (T.genFile filename thys write).2.template = T.template := by
  unfold genFile
  split_ifs
  · rfl
  · split <;> rfl

@[simp] theorem template_cleanup (unlinked : Bool) :
    (T.cleanup filename unlinked).2.template = T.template := by
  unfold cleanup
  split_ifs <;> rfl

theorem genFile_of_ne (h : w ≠ filename) :
    (w ∈ (T.genFile filename thys write).2.createdFiles ↔ w ∈ T.createdFiles) ∧
      (T.genFile filename thys write).2.files.lookup w = T.files.lookup w := by
  unfold genFile
  split_ifs
  · exact ⟨Iff.rfl, rfl⟩
  · split
    · exact ⟨by simp [h], Dict.lookup_put_of_ne h⟩
    · exact ⟨Iff.rfl, rfl⟩
    · exact ⟨Iff.rfl, Dict.lookup_put_of_ne h⟩

theorem cleanup_of_ne (unlinked : Bool) (h : w ≠ filename) :
    (w ∈ (T.cleanup filename unlinked).2.createdFiles ↔ w ∈ T.createdFiles) ∧
      (T.cleanup filename unlinked).2.files.lookup w = T.files.lookup w := by
  unfold cleanup
  split_ifs
  · exact ⟨Iff.rfl, rfl⟩
  · exact ⟨Iff.rfl, rfl⟩
  · exact ⟨by simp [h], Dict.lookup_del_of_ne h⟩
  · exact ⟨Iff.rfl, rfl⟩

/-- A tracked file that exists goes with the attempt to delete it. -/
theorem cleanup_cases (w : Text) (unlinked : Bool) :
    (T.cleanup w unlinked).2 = T ∧
        (w ∈ T.createdFiles → w ∉ thysPool → unlinked = false) ∨
      w ∈ T.createdFiles ∧ w ∉ (T.cleanup w unlinked).2.createdFiles ∧
        ((T.files.lookup w).isSome → unlinked = true) := by
  unfold cleanup
  split_ifs with htracked hpool hfile
  · exact Or.inl ⟨rfl, fun _ hnot => absurd hpool hnot⟩
  · exact Or.inl ⟨rfl, fun _ _ => by simpa using ((Bool.and_eq_true _ _).mp hfile).2⟩
  · refine Or.inr ⟨htracked, Finset.notMem_erase w _, ?_⟩
    intro hexists
    simpa [hexists] using hfile
  · exact Or.inl ⟨rfl, fun hcreated => absurd hcreated htracked⟩

/-- Among the clean-ups of other names, one does to its name what it does alone. -/
theorem foldl_cleanup_of_notMem (unlinked : Text → Bool) {names : List Text} (T : ThyInit)
    (h : w ∉ names) :
    (w ∈ (names.foldl (fun T name => (T.cleanup name (unlinked name)).2) T).createdFiles ↔
        w ∈ T.createdFiles) ∧
      (names.foldl (fun T name => (T.cleanup name (unlinked name)).2) T).files.lookup w =
        T.files.lookup w := by
  induction names generalizing T with
  | nil => exact ⟨Iff.rfl, rfl⟩
  | cons name names ih =>
    have hne : w ≠ name := fun heq => h (heq ▸ List.mem_cons_self)
    obtain ⟨hcreated, hfile⟩ := ih (T.cleanup name (unlinked name)).2
      fun hin => h (List.mem_cons_of_mem name hin)
    obtain ⟨hcreated', hfile'⟩ := T.cleanup_of_ne (unlinked name) hne
    exact ⟨hcreated.trans hcreated', hfile.trans hfile'⟩

theorem exists_cleanup {T : ThyInit} {unlinked : Bool} (htracked : w ∈ T.createdFiles)
    (hpool : w ∉ thysPool) (hexists : (T.files.lookup w).isSome) :
    ((T.cleanup w unlinked).2.files.lookup w).isSome ↔ unlinked = false := by
  unfold cleanup
  cases unlinked <;> simp [htracked, hpool, hexists]

/-- A tracked file outlives the clean-up of all names exactly when it cannot be deleted. -/
theorem exists_foldl_cleanup {unlinked : Text → Bool} {names : List Text} (hnodup : names.Nodup)
    (h : w ∈ names) {T : ThyInit} (htracked : w ∈ T.createdFiles) (hpool : w ∉ thysPool)
    (hexists : (T.files.lookup w).isSome) :
    ((names.foldl (fun T name => (T.cleanup name (unlinked name)).2) T).files.lookup w).isSome ↔
      unlinked w = false := by
  induction names generalizing T with
  | nil => cases h
  | cons name names ih =>
    obtain ⟨hnot, hnodup⟩ := List.nodup_cons.mp hnodup
    rw [List.foldl_cons]
    by_cases hw : w = name
    · subst hw
      rw [(foldl_cleanup_of_notMem unlinked _ hnot).2]
      exact exists_cleanup htracked hpool hexists
    · obtain ⟨hcreated, hfile⟩ := T.cleanup_of_ne (unlinked name) hw
      exact ih hnodup ((List.mem_cons.mp h).resolve_left hw) (hcreated.mpr htracked)
        (hfile ▸ hexists)

theorem generateThyFile_congr {T T' : ThyInit} (h : T'.template = T.template) :
    T'.generateThyFile = T.generateThyFile := by
  funext thys filename
  rw [ThyInit.generateThyFile, h, ThyInit.generateThyFile]

end ThyInit

end IsabelleGym
