import Mathlib.Data.Char
import Mathlib.Data.Finset.Sort
import Mathlib.Data.List.Lex
import IsabelleGym.PoolKeys
import IsabelleGym.Runs
import IsabelleGym.ThyInit

/-!
# The wrapper theories of the server

Sessions with the same theories and field share a wrapper, which is written anew
for each of them and deleted at shutdown. When a dead gateway is recovered the
tracked names go with it, while the files stay.
-/

namespace IsabelleGym
namespace ServerWrappers

variable (cfg : SessionConfig)

def wrapperName (theories : List Text) (field : Option Text) : Text :=
  "wrap_".toList ++ (cfg.sha256 (cfg.keyText theories field none)).hex.take 16

structure State where
  files : Dict Text Text
  tracking : Option (Text × Finset Text) := none

/-- What reaches the wrappers, with what the file system does. No template stands for one that
cannot be read. -/
inductive Event
  | createSession (initialThys : List Text) (field : Option Text) (template : Option Text)
    (write : FileWrite)
  | recoverGateway
  | shutdown (unlinked : Text → Bool)

namespace State

variable (s : State)

def thyInit (template : Option Text) : Option ThyInit :=
  match s.tracking with
  | some (template, createdFiles) => some { template, createdFiles, files := s.files }
  | none => template.map fun template => { template, files := s.files }

def load (T : ThyInit) : State :=
  { files := T.files, tracking := some (T.template, T.createdFiles) }

/-- The part of `_create_session` that prepares the theories. -/
def createSession (initialThys : List Text) (field : Option Text) (template : Option Text)
    (write : FileWrite) : State :=
  match s.thyInit template with
  | none => s
  | some T =>
    let dependencyTheories := normalizeTheories initialThys
    if dependencyTheories.isEmpty then load T
    else load (T.genFile (wrapperName cfg dependencyTheories (some (cfg.normalizeField field)))
      dependencyTheories write).2

def shutdown (unlinked : Text → Bool) : State :=
  match s.tracking with
  | none => s
  | some (template, createdFiles) =>
    { files := (createdFiles.sort.foldl (fun T name => (T.cleanup name (unlinked name)).2)
        { template, createdFiles, files := s.files : ThyInit }).files }

def step : Event → State
  | .createSession initialThys field template write =>
    s.createSession cfg initialThys field template write
  | .recoverGateway => { s with tracking := none }
  | .shutdown unlinked => s.shutdown unlinked

def run (events : List Event) : State := events.foldl (step cfg) s

def Tracks (w : Text) : Prop := ∃ template createdFiles,
  s.tracking = some (template, createdFiles) ∧ w ∈ createdFiles

/-- Tracked files exist, and no theory of the pool is tracked. -/
def Valid : Prop := ∀ w, s.Tracks w → w ∉ thysPool ∧ (s.files.lookup w).isSome

/-- A file that is there and not tracked. -/
def Lost (w : Text) (s : State) : Prop := (s.files.lookup w).isSome ∧ ¬s.Tracks w

/-- The write of a wrapper by a session with theories. -/
def Writes (w : Text) (s : State) (initialThys : List Text) (field template : Option Text) : Prop :=
  (s.thyInit template).isSome ∧ normalizeTheories initialThys ≠ [] ∧
    w = wrapperName cfg (normalizeTheories initialThys) (some (cfg.normalizeField field))

/-- The steps that lose a wrapper: the recovery of the gateway, a deletion that fails at shutdown,
and a write that breaks off in a new file. -/
def Loses (w : Text) (s : State) : Event → Prop
  | .createSession initialThys field template write =>
    Writes cfg w s initialThys field template ∧ (∃ left, write = .failed (some left)) ∧ ¬s.Tracks w
  | .recoverGateway => s.Tracks w
  | .shutdown unlinked => s.Tracks w ∧ unlinked w = false

/-- A session with the same theories and field tracks its wrapper again. -/
def Finds (w : Text) (s : State) : Event → Prop
  | .createSession initialThys field template write =>
    Writes cfg w s initialThys field template ∧ write = .done
  | _ => False

variable {cfg} {s : State}

theorem wrapperName_notMem (theories : List Text) (field : Option Text) :
    wrapperName cfg theories field ∉ thysPool := by
  simp [wrapperName, thysPool]

theorem thyInit_tracks {template : Option Text} {T : ThyInit} (h : s.thyInit template = some T)
    (w : Text) : w ∈ T.createdFiles ↔ s.Tracks w := by
  unfold thyInit at h
  cases htracking : s.tracking with
  | none =>
    rw [htracking] at h
    obtain ⟨_, _, rfl⟩ := Option.map_eq_some_iff.mp h
    simp [Tracks, htracking]
  | some tracking =>
    obtain ⟨_, createdFiles⟩ := tracking
    rw [htracking] at h
    cases h
    simp [Tracks, htracking]

theorem thyInit_files {template : Option Text} {T : ThyInit} (h : s.thyInit template = some T) :
    T.files = s.files := by
  unfold thyInit at h
  split at h
  · cases h
    rfl
  · obtain ⟨_, _, rfl⟩ := Option.map_eq_some_iff.mp h
    rfl

theorem tracks_load (T : ThyInit) (w : Text) : (load T).Tracks w ↔ w ∈ T.createdFiles := by
  simp [Tracks, load]

variable (cfg s) in
/-- What the preparation of a session does at a name. -/
theorem createSession_cases (initialThys : List Text) (field template : Option Text)
    (write : FileWrite) (w : Text) :
    let s' := s.createSession cfg initialThys field template write
    (Writes cfg w s initialThys field template ∧ write = .done ∧ w ∉ thysPool ∧
        s'.Tracks w ∧ (s'.files.lookup w).isSome) ∨
      (Writes cfg w s initialThys field template ∧ (∃ left, write = .failed (some left)) ∧
        (s'.Tracks w ↔ s.Tracks w) ∧ (s'.files.lookup w).isSome) ∨
      ((Writes cfg w s initialThys field template → write = .failed none) ∧
        (s'.Tracks w ↔ s.Tracks w) ∧ s'.files.lookup w = s.files.lookup w) := by
  unfold createSession Writes
  cases hT : s.thyInit template with
  | none =>
    dsimp only
    exact Or.inr (Or.inr ⟨fun hwrites => absurd hwrites.1 (by decide), Iff.rfl, rfl⟩)
  | some T =>
    dsimp only
    have htracks := thyInit_tracks hT w
    have hfiles := thyInit_files hT
    split_ifs with hempty
    · refine Or.inr (Or.inr ⟨fun hwrites => ?_, (tracks_load T w).trans htracks, ?_⟩)
      · exact absurd (List.isEmpty_iff.mp hempty) hwrites.2.1
      · exact congrArg (List.lookup w) hfiles
    · have hne : normalizeTheories initialThys ≠ [] := fun hnil =>
        hempty (List.isEmpty_iff.mpr hnil)
      have hpool : wrapperName cfg (normalizeTheories initialThys)
        (some (cfg.normalizeField field)) ∉ thysPool := wrapperName_notMem _ _
      generalize hname : wrapperName cfg (normalizeTheories initialThys)
        (some (cfg.normalizeField field)) = name at *
      by_cases hw : w = name
      · subst hw
        unfold ThyInit.genFile
        rw [tracks_load, if_neg hpool]
        match write with
        | .done =>
          refine Or.inl ⟨⟨rfl, hne, rfl⟩, rfl, hpool, Finset.mem_insert_self _ _, ?_⟩
          exact Option.isSome_of_eq_some Dict.lookup_put_self
        | .failed none =>
          exact Or.inr (Or.inr ⟨fun _ => rfl, htracks, congrArg (List.lookup w) hfiles⟩)
        | .failed (some left) =>
          refine Or.inr (Or.inl ⟨⟨rfl, hne, rfl⟩, ⟨left, rfl⟩, htracks, ?_⟩)
          exact Option.isSome_of_eq_some Dict.lookup_put_self
      · obtain ⟨hcreated, hfile⟩ := T.genFile_of_ne (normalizeTheories initialThys) write hw
        refine Or.inr (Or.inr ⟨fun hwrites => absurd hwrites.2.2 hw, ?_, ?_⟩)
        · rw [tracks_load, hcreated, htracks]
        · rw [load, hfile, hfiles]

theorem shutdown_cases (h : s.Valid) (unlinked : Text → Bool) (w : Text) :
    ¬(s.shutdown unlinked).Tracks w ∧
      (((s.shutdown unlinked).files.lookup w).isSome ↔
        (s.files.lookup w).isSome ∧ (s.Tracks w → unlinked w = false)) := by
  unfold shutdown
  cases htracking : s.tracking with
  | none =>
    have hnot : ¬s.Tracks w := by simp [Tracks, htracking]
    simp [hnot]
  | some tracking =>
    obtain ⟨template, createdFiles⟩ := tracking
    have htracks : s.Tracks w ↔ w ∈ createdFiles := by simp [Tracks, htracking]
    refine ⟨by simp [Tracks], ?_⟩
    by_cases hw : w ∈ createdFiles
    · obtain ⟨hpool, hexists⟩ := h w (htracks.mpr hw)
      rw [ThyInit.exists_foldl_cleanup (Finset.sort_nodup _ _) ((Finset.mem_sort _).mpr hw) hw hpool
        hexists]
      simp [htracks, hw, hexists]
    · rw [(ThyInit.foldl_cleanup_of_notMem unlinked _ fun hin =>
        hw ((Finset.mem_sort _).mp hin)).2]
      simp [htracks, hw]

theorem step_valid (h : s.Valid) (event : Event) : (s.step cfg event).Valid := by
  intro w hw
  cases event with
  | createSession initialThys field template write =>
    obtain ⟨_, _, hpool, _, hexists⟩ | ⟨_, _, htracks, hexists⟩ | ⟨_, htracks, hfile⟩ :=
      createSession_cases cfg s initialThys field template write w
    · exact ⟨hpool, hexists⟩
    · exact ⟨(h w (htracks.mp hw)).1, hexists⟩
    · rw [step, hfile]
      exact h w (htracks.mp hw)
  | recoverGateway =>
    obtain ⟨_, _, hnone, _⟩ := hw
    cases hnone
  | shutdown unlinked => exact absurd hw (shutdown_cases h unlinked w).1

theorem step_lost_iff (h : s.Valid) (event : Event) (w : Text) :
    Lost w (s.step cfg event) ↔ Loses cfg w s event ∨ Lost w s ∧ ¬Finds cfg w s event := by
  cases event with
  | createSession initialThys field template write =>
    have hexists := h w
    obtain ⟨hwrites, rfl, _, htracks, _⟩ | ⟨hwrites, ⟨left, rfl⟩, htracks, hfile⟩ |
      ⟨hwrites, htracks, hfile⟩ :=
      createSession_cases cfg s initialThys field template write w
    · simp [Lost, Loses, Finds, step, htracks, hwrites]
    · simp [Lost, Loses, Finds, step, htracks, hwrites, hfile]
    · have hnot : ∀ left, ¬(Writes cfg w s initialThys field template ∧
          write = .failed (some left)) := by
        rintro left ⟨hw, rfl⟩
        cases hwrites hw
      have hdone : ¬(Writes cfg w s initialThys field template ∧ write = .done) := by
        rintro ⟨hw, rfl⟩
        cases hwrites hw
      rw [Lost, step, hfile, htracks]
      simp only [Lost, Loses, Finds, hdone, not_false_iff, and_true]
      constructor
      · exact Or.inr
      · rintro (⟨hw, ⟨left, hleft⟩, _⟩ | hlost)
        · exact absurd ⟨hw, hleft⟩ (hnot left)
        · exact hlost
  | recoverGateway =>
    have hnot : ¬(s.step cfg .recoverGateway).Tracks w := by simp [Tracks, step]
    have hexists := h w
    have hfiles : (s.step cfg .recoverGateway).files = s.files := rfl
    simp only [Lost, Loses, Finds, hnot, hfiles]
    tauto
  | shutdown unlinked =>
    obtain ⟨hnot, hfile⟩ := shutdown_cases h unlinked w
    have hexists := h w
    simp only [Lost, Loses, Finds, step, hnot, hfile]
    tauto

/-- In every run of a server, a file is there that nobody will delete exactly when a step has lost
it and no session has found it since, or it was there before and no session has found it. -/
theorem run_lost_iff (cfg : SessionConfig) (files : Dict Text Text) (events : List Event)
    (w : Text) :
    Lost w (run cfg { files } events) ↔
      (files.lookup w).isSome ∧
        Runs.EveryStep (step cfg) (fun s event => ¬Finds cfg w s event) { files } events ∨
      Runs.Since (step cfg) (Loses cfg w) (Finds cfg w) { files } events := by
  have hnone : ∀ w, ¬({ files } : State).Tracks w := by simp [Tracks]
  have hvalid : ({ files } : State).Valid := fun w hw => absurd hw (hnone w)
  have hstart : Lost w { files } ↔ (files.lookup w).isSome := by simp [Lost, hnone]
  rw [run, Runs.iff_since (fun s event hs => step_valid hs event)
    (fun s event hs => step_lost_iff hs event w) hvalid events, hstart]

end State

end ServerWrappers
end IsabelleGym
