import IsabelleGym.Concatenation
import IsabelleGym.HeapManifests

/-!
# The gate for heaps

Beside the registry stands what each build has read of its sources: the text of
its ROOT, its theory files with their contents, and how the build has ended. What
the gate lets through is compared with that. The gate hashes the theory files
again, and takes the ROOT from the entry.
-/

namespace IsabelleGym

structure BuildRecord where
  rootText : Text
  files : List (Text × Text)
  succeeded : Bool

namespace HeapPool

variable (cfg : HeapConfig) (s : HeapPool)

/-- The theory files of a project with their contents, as they are on disk. -/
def sources (project : PosixPath) : List (Text × Text) :=
  (s.theoryFiles project).map fun f => ((project.child f.name).toText, f.content)

def rootOnDisk (entry : HeapEntry) : Option Text :=
  if entry.rootDir = (PosixPath.ofText entry.project).toText then
    (s.projectDir (PosixPath.ofText entry.project)).bind ProjectDir.root
  else s.roots.lookup (cfg.absolute (PosixPath.ofText entry.rootDir))

section Records

abbrev Records := Dict HeapKey BuildRecord

def recordRegister (log : Records) (c : BuildCall) : Records :=
  match c.stage with
  | .queued =>
    if s.admitted < cfg.maxConcurrentBuilds then
      match (s.newEntry cfg c.key c.sessionName c.builtBy).2 with
      | .ok entry =>
        Dict.put log c.key ⟨entry.rootText, s.sources (PosixPath.ofText c.key.2), false⟩
      | .error _ => log
    else log
  | _ => log

def recordFinish (log : Records) (c : BuildCall) : Records :=
  match c.stage with
  | .running _ p =>
    match (s.processes[p]?).bind BuildProcess.exit, log.lookup c.key with
    | some true, some record => Dict.put log c.key { record with succeeded := true }
    | _, _ => log
  | _ => log

def recordEvent (log : Records) : RegistryEvent → Records
  | .pool (.register i) => ((s.builds[i]?).map (s.recordRegister cfg log)).getD log
  | .pool (.finish i _ _) => ((s.builds[i]?).map (s.recordFinish log)).getD log
  | _ => log

end Records

def gateStep (x : HeapPool × Records) (e : RegistryEvent) : HeapPool × Records :=
  (x.1.registryStep cfg e, x.1.recordEvent cfg x.2 e)

/-- What `resolve_for_session` returns is in the group and is what the selectors say, its last
build has succeeded, and the ROOT and the theory files are those of that build. -/
def ResolvesRecorded (x : HeapPool × Records) (e : RegistryEvent) : Prop :=
  match e with
  | .pool (.resolveForSession taskGroup heapSession project) => ∀ entry,
    (x.1.resolveForSession cfg taskGroup heapSession project).2 = .ok entry →
      entry.taskGroup = taskGroup ∧ (∀ p ∈ project, entry.project = p) ∧
        (∀ n ∈ heapSession, entry.sessionName = n) ∧
        ∃ record, x.2.lookup entry.key = some record ∧ record.succeeded = true ∧
          x.1.rootOnDisk cfg entry = some record.rootText ∧
          x.1.sources (PosixPath.ofText entry.project) = record.files
  | _ => True

/-- Where the gate lets an entry through: a project and a session that are both given are one heap
of the group, the ROOT on disk is the one that the entry has, and for the working directory as the
project the names of the theory files have kept their lengths. -/
def GateInputs (s : HeapPool) (e : RegistryEvent) : Prop :=
  match e with
  | .pool (.resolveForSession taskGroup heapSession project) => ∀ entry,
    s.selectEntry taskGroup heapSession project = some entry → entry.status = .ready →
      s.isFresh cfg entry = true →
      (∀ p ∈ project, ∀ n ∈ heapSession,
        (s.entries.lookup (taskGroup, p)).map HeapEntry.sessionName = some n) ∧
      s.rootOnDisk cfg entry = some entry.rootText ∧
      (PosixPath.ofText entry.project = ⟨[], []⟩ →
        (s.sources (PosixPath.ofText entry.project)).map (fun f => f.1.length) =
          entry.theoryFiles.map fun f => f.path.length)
  | _ => True

section Hashes

/-- What is hashed of a theory file, once its content is. -/
def sourcePiece (f : Text × Text) : Text := f.1 ++ (cfg.sha256 f.2).hex

def hashed (rootText : Text) (files : List (Text × Text)) : List Text :=
  (rootText ++ files.flatMap (sourcePiece cfg)) :: files.map Prod.snd

/-- SHA-256 has no collision among the texts of a gate: those that were hashed at the last build of
an entry, and those that are hashed now. -/
def NoCollision (x : HeapPool × Records) (e : RegistryEvent) : Prop :=
  match e with
  | .pool (.resolveForSession ..) => ∀ entry ∈ x.1.entries, ∀ record ∈ x.2.lookup entry.1,
    ∀ t ∈ hashed cfg record.rootText record.files ++
        hashed cfg record.rootText (x.1.sources (PosixPath.ofText entry.1.2)),
      ∀ u ∈ hashed cfg record.rootText record.files ++
        hashed cfg record.rootText (x.1.sources (PosixPath.ofText entry.1.2)),
        cfg.sha256 t = cfg.sha256 u → t = u
  | _ => True

instance (x : HeapPool × Records) : (e : RegistryEvent) → Decidable (NoCollision cfg x e)
  | .pool (.resolveForSession ..) => inferInstanceAs (Decidable (∀ entry ∈ x.1.entries, _))
  | .pool (.build ..) | .pool (.register _) | .pool (.spawn _) | .pool (.spawnFails ..)
  | .pool (.processEnds ..) | .pool (.finish ..) | .pool (.timeOut ..) | .pool (.cancel _)
  | .pool (.changeProject ..) | .pool (.changeRoot ..) | .delete _ | .deleteGroup _ =>
    inferInstanceAs (Decidable True)

end Hashes

/-- The entry has been made of what the record says. -/
structure MadeOf (cfg : HeapConfig) (entry : HeapEntry) (record : BuildRecord) : Prop where
  root : entry.rootText = record.rootText
  files : entry.theoryFiles.map (fun f => (f.path, f.sha256)) =
    record.files.map fun f => (f.1, cfg.sha256 f.2)
  fingerprint : entry.fingerprint = cfg.fingerprint entry.rootText entry.theoryFiles
  names : ∀ f ∈ record.files, ∃ name, '/' ∉ name ∧
    f.1 = ((PosixPath.ofText entry.project).child name).toText

structure Recorded (cfg : HeapConfig) (s : HeapPool) (log : Records) : Prop where
  nodup : (s.entries.map Prod.fst).Nodup
  entry {key : HeapKey} {entry : HeapEntry} : s.entries.lookup key = some entry →
    entry.key = key ∧ ∃ record, log.lookup key = some record ∧ MadeOf cfg entry record ∧
      (entry.status = .ready → record.succeeded = true)
  owner {key : HeapKey} {entry : HeapEntry} : s.Owns key entry →
    entry.key = key ∧ ∃ record, log.lookup key = some record ∧ MadeOf cfg entry record

variable {cfg s}

section Sources

theorem names_sources (project : PosixPath) :
    ∀ f ∈ s.sources project, ∃ name, '/' ∉ name ∧ f.1 = (project.child name).toText := by
  intro f hf
  obtain ⟨file, -, rfl⟩ := List.mem_map.mp hf
  exact ⟨file.name, file.noSlash, rfl⟩

theorem slash_not_mem_hex (d : Digest) : '/' ∉ d.hex := by
  intro hin
  have hdigit := d.isHex _ hin
  revert hdigit
  decide

/-- Pieces of equal texts are pieces of one file. -/
theorem eq_of_sourcePiece_eq {f g : Text × Text}
    (hinj : cfg.sha256 f.2 = cfg.sha256 g.2 → f.2 = g.2)
    (h : sourcePiece cfg f = sourcePiece cfg g) : f = g := by
  have hlength : (cfg.sha256 f.2).hex.length = (cfg.sha256 g.2).hex.length := by
    rw [(cfg.sha256 f.2).length_hex, (cfg.sha256 g.2).length_hex]
  obtain ⟨hpath, hhex⟩ := List.append_inj' h hlength
  exact Prod.ext hpath (hinj (Digest.ext hhex))

/-- The pieces of a project can be cut apart at the slashes of its path. In the working directory
they have none, and are cut by their lengths. -/
theorem map_sourcePiece_eq {t : Text} {files files' : List (Text × Text)}
    (hnames : ∀ f ∈ files, ∃ name, '/' ∉ name ∧ f.1 = ((PosixPath.ofText t).child name).toText)
    (hnames' : ∀ f ∈ files', ∃ name, '/' ∉ name ∧ f.1 = ((PosixPath.ofText t).child name).toText)
    (hlengths : PosixPath.ofText t = ⟨[], []⟩ →
      files.map (fun f => f.1.length) = files'.map fun f => f.1.length)
    (h : files.flatMap (sourcePiece cfg) = files'.flatMap (sourcePiece cfg)) :
    files.map (sourcePiece cfg) = files'.map (sourcePiece cfg) := by
  by_cases hhere : PosixPath.ofText t = ⟨[], []⟩
  · refine List.eq_iff_flatten_eq.mpr ⟨by simpa only [List.flatMap_def] using h, ?_⟩
    have hpiece : ∀ l : List (Text × Text),
        (l.map (sourcePiece cfg)).map List.length = (l.map fun f => f.1.length).map (· + 64) := by
      intro l
      simp [sourcePiece, Digest.length_hex]
    rw [hpiece, hpiece, hlengths hhere]
  · -- behind the front of the project stands a piece without slashes
    have hcut : ∀ l : List (Text × Text),
        (∀ f ∈ l, ∃ name, '/' ∉ name ∧ f.1 = ((PosixPath.ofText t).child name).toText) →
        ∃ l' : List Text, (∀ x ∈ l', '/' ∉ x) ∧
          l.map (sourcePiece cfg) = l'.map fun x => (PosixPath.ofText t).front ++ x := by
      intro l hl
      induction l with
      | nil => exact ⟨[], by simp, rfl⟩
      | cons f l ih =>
        obtain ⟨l', hslash, heq⟩ := ih fun g hg => hl g (List.mem_cons_of_mem f hg)
        obtain ⟨name, hname, hpath⟩ := hl f List.mem_cons_self
        refine ⟨(name ++ (cfg.sha256 f.2).hex) :: l', ?_, ?_⟩
        · intro x hx
          rcases List.mem_cons.mp hx with rfl | hx
          · rw [List.mem_append]
            exact fun hin => hin.elim hname (slash_not_mem_hex _)
          · exact hslash x hx
        · rw [List.map_cons, List.map_cons, heq, sourcePiece, hpath, PosixPath.toText_child,
            List.append_assoc]
    obtain ⟨l, hl, heq⟩ := hcut files hnames
    obtain ⟨l', hl', heq'⟩ := hcut files' hnames'
    rw [List.flatMap_def, List.flatMap_def, heq, heq', ← List.flatMap_def, ← List.flatMap_def] at h
    rw [heq, heq', Concatenation.flatMap_injective (PosixPath.slash_mem_front hhere) hl hl' h]

theorem fingerprintText_eq {rootText : Text} {theoryFiles : List TheoryFile}
    {files : List (Text × Text)} (h : theoryFiles.map (fun f => (f.path, f.sha256)) =
      files.map fun f => (f.1, cfg.sha256 f.2)) :
    HeapConfig.fingerprintText rootText theoryFiles =
      rootText ++ files.flatMap (sourcePiece cfg) := by
  have hflat := congrArg (List.flatMap fun x : Text × Digest => x.1 ++ x.2.hex) h
  rw [List.flatMap_map, List.flatMap_map] at hflat
  rw [HeapConfig.fingerprintText, hflat]
  rfl

theorem map_scanSources {project : PosixPath} {files : List TheoryFile}
    (h : s.scanSources cfg project = .ok files) :
    files.map (fun f => (f.path, f.sha256)) =
      (s.sources project).map fun f => (f.1, cfg.sha256 f.2) := by
  unfold scanSources at h
  split_ifs at h
  cases h
  rw [sources, List.map_map, List.map_map]
  rfl

theorem MadeOf.lengths {entry : HeapEntry} {record : BuildRecord} (h : MadeOf cfg entry record) :
    entry.theoryFiles.map (fun f => f.path.length) = record.files.map fun f => f.1.length := by
  have hpaths := congrArg (List.map fun x : Text × Digest => x.1.length) h.files
  rw [List.map_map, List.map_map] at hpaths
  exact hpaths

/-- A fresh entry has the theory files of its record, where no hashes collide. -/
theorem sources_eq_of_isFresh {entry : HeapEntry} {record : BuildRecord}
    (hmade : MadeOf cfg entry record) (hfresh : s.isFresh cfg entry = true)
    (hfree : ∀ t ∈ hashed cfg record.rootText record.files ++
        hashed cfg record.rootText (s.sources (PosixPath.ofText entry.project)),
      ∀ u ∈ hashed cfg record.rootText record.files ++
        hashed cfg record.rootText (s.sources (PosixPath.ofText entry.project)),
        cfg.sha256 t = cfg.sha256 u → t = u)
    (hlengths : PosixPath.ofText entry.project = ⟨[], []⟩ →
      (s.sources (PosixPath.ofText entry.project)).map (fun f => f.1.length) =
        entry.theoryFiles.map fun f => f.path.length) :
    s.sources (PosixPath.ofText entry.project) = record.files := by
  unfold isFresh at hfresh
  split at hfresh
  case h_2 => cases hfresh
  case h_1 files hscan =>
    have hdigest := of_decide_eq_true hfresh
    rw [hmade.fingerprint, HeapConfig.fingerprint, HeapConfig.fingerprint,
      fingerprintText_eq (map_scanSources hscan), fingerprintText_eq hmade.files,
      hmade.root] at hdigest
    have htext := List.append_cancel_left (hfree _ (by simp [hashed]) _ (by simp [hashed]) hdigest)
    have hpieces := map_sourcePiece_eq (names_sources _) hmade.names
      (fun hhere => (hlengths hhere).trans hmade.lengths) htext
    refine Concatenation.eq_of_map_eq hpieces fun f hf g hg =>
      eq_of_sourcePiece_eq (hfree _ ?_ _ ?_)
    · have hin := List.mem_map_of_mem (f := Prod.snd) hf
      simp [hashed, hin]
    · have hin := List.mem_map_of_mem (f := Prod.snd) hg
      simp [hashed, hin]

end Sources

namespace Recorded

variable {log : Records} {s' : HeapPool}

theorem of_nil (hentries : s.entries = []) (hbuilds : s.builds = []) : Recorded cfg s log where
  nodup := by rw [hentries]; exact List.nodup_nil
  entry h := by rw [hentries] at h; cases h
  owner h := by
    obtain ⟨i, c, hc, -⟩ := h
    rw [hbuilds] at hc
    cases hc

theorem frame (h : Recorded cfg s log) (hnodup : (s'.entries.map Prod.fst).Nodup)
    (hentries : ∀ key entry, s'.entries.lookup key = some entry →
      s.entries.lookup key = some entry)
    (howns : ∀ key entry, s'.Owns key entry → s.Owns key entry) : Recorded cfg s' log where
  nodup := hnodup
  entry hlookup := h.entry (hentries _ _ hlookup)
  owner hown := h.owner (howns _ _ hown)

theorem same (h : Recorded cfg s log) (hentries : s'.entries = s.entries)
    (howns : ∀ key entry, s'.Owns key entry → s.Owns key entry) : Recorded cfg s' log :=
  h.frame (by rw [hentries]; exact h.nodup) (fun _ _ hlookup => by rwa [hentries] at hlookup) howns

/-- One key gets a record, and what the registry has for it is made of that. -/
theorem put (h : Recorded cfg s log) {key : HeapKey} {record : BuildRecord} {log' : Records}
    (hnodup : (s'.entries.map Prod.fst).Nodup)
    (hentries : ∀ k, k ≠ key → s'.entries.lookup k = s.entries.lookup k)
    (hlog : ∀ k, k ≠ key → log'.lookup k = log.lookup k) (hrecord : log'.lookup key = some record)
    (hself : ∀ entry, s'.entries.lookup key = some entry → entry.key = key ∧
      MadeOf cfg entry record ∧ (entry.status = .ready → record.succeeded = true))
    (howns : ∀ k entry, s'.Owns k entry → k ≠ key ∧ s.Owns k entry ∨
      k = key ∧ entry.key = key ∧ MadeOf cfg entry record) : Recorded cfg s' log' where
  nodup := hnodup
  entry {k e} hlookup := by
    by_cases hk : k = key
    · subst hk
      obtain ⟨hkey, hmade, hready⟩ := hself e hlookup
      exact ⟨hkey, record, hrecord, hmade, hready⟩
    · rw [hentries k hk] at hlookup
      rw [hlog k hk]
      exact h.entry hlookup
  owner {k e} hown := by
    rcases howns k e hown with ⟨hk, hown⟩ | ⟨rfl, hkey, hmade⟩
    · rw [hlog k hk]
      exact h.owner hown
    · exact ⟨hkey, record, hrecord, hmade⟩

theorem leave (h : Recorded cfg s log) (hflight : InFlight cfg s) {i : ℕ} {c : BuildCall}
    (hc : s.builds[i]? = some c) (hentries : s'.entries = s.entries)
    (hbuilds : s'.builds = s.builds.set i { c with stage := .ended }) : Recorded cfg s' log := by
  refine h.same hentries fun k e hown => ?_
  by_cases hin : c.inFlight = true
  · rcases (owns_set hflight hc hin .ended hbuilds).mp hown with ⟨-, hown⟩ | ⟨-, hcontra⟩
    · exact hown
    · cases hcontra
  · obtain ⟨j, d, hd, hkey, hentry⟩ := hown
    rw [hbuilds] at hd
    rcases List.mem_or_eq_of_mem_set (List.mem_of_getElem? hd) with hmem | rfl
    · obtain ⟨k, hk⟩ := List.mem_iff_getElem?.mp hmem
      exact ⟨k, d, hk, hkey, hentry⟩
    · cases hentry

/-- What a build has just read makes its entry. -/
theorem madeOf_newEntry {c : BuildCall} {entry : HeapEntry}
    (h : s.newEntry cfg c.key c.sessionName c.builtBy = (s', .ok entry)) (succeeded : Bool) :
    MadeOf cfg entry
      ⟨entry.rootText, s.sources (PosixPath.ofText c.key.2), succeeded⟩ := by
  obtain ⟨roots, hnew⟩ := newEntry_frame cfg s c.key c.sessionName c.builtBy
  obtain ⟨rootDir, name, rootText, files, -, -, hscan, hentry⟩ := newEntry_ok cfg s h
  rw [h] at hnew
  cases hnew
  rw [hentry]
  exact
    { root := rfl
      files := map_scanSources hscan
      fingerprint := rfl
      names := names_sources _ }

theorem register (h : Recorded cfg s log) (hflight : InFlight cfg s) {i : ℕ} {c : BuildCall}
    (hc : s.builds[i]? = some c) :
    Recorded cfg (s.register cfg i c) (s.recordRegister cfg log c) := by
  unfold HeapPool.register recordRegister
  cases hstage : c.stage with
  | queued =>
    dsimp only
    by_cases hroom : s.admitted < cfg.maxConcurrentBuilds
    · rw [if_pos hroom, if_pos hroom]
      have hin : c.inFlight = true := by rw [BuildCall.inFlight, hstage]
      obtain ⟨roots, hnew⟩ := newEntry_frame cfg s c.key c.sessionName c.builtBy
      cases hresult : s.newEntry cfg c.key c.sessionName c.builtBy with
      | mk s' result =>
        rw [hresult] at hnew
        cases hnew
        cases result with
        | error e => exact h.leave hflight hc rfl rfl
        | ok entry =>
          have hmade := madeOf_newEntry hresult false
          obtain ⟨rootDir, name, rootText, files, -, -, -, hentry⟩ := newEntry_ok cfg s hresult
          have hkey : entry.key = c.key := by rw [hentry]; rfl
          have hbuilding : entry.status = .building := by rw [hentry]
          have hself : ∀ e, (Dict.put s.entries c.key entry).lookup c.key = some e → e.key = c.key ∧
              MadeOf cfg e
                ⟨entry.rootText, s.sources (PosixPath.ofText c.key.2), false⟩ ∧
              (e.status = .ready → false = true) := by
            intro e he
            rw [Dict.lookup_put_self] at he
            cases he
            exact ⟨hkey, hmade, fun hready => by rw [hbuilding] at hready; cases hready⟩
          dsimp only
          split_ifs
          · refine h.put (Dict.nodup_put h.nodup) (fun k hk => Dict.lookup_put_of_ne hk)
              (fun k hk => Dict.lookup_put_of_ne hk) Dict.lookup_put_self hself fun k e hown => ?_
            refine ((owns_set hflight hc hin (.registered entry) rfl).mp hown).imp id ?_
            rintro ⟨rfl, heq⟩
            cases heq
            exact ⟨rfl, hkey, hmade⟩
          · refine h.put (Dict.nodup_put h.nodup) (fun k hk => Dict.lookup_put_of_ne hk)
              (fun k hk => Dict.lookup_put_of_ne hk) Dict.lookup_put_self hself fun k e hown => ?_
            refine ((owns_set hflight hc hin .ended rfl).mp hown).imp id ?_
            rintro ⟨-, hcontra⟩
            cases hcontra
    · rw [if_neg hroom, if_neg hroom]
      exact h
  | _ => exact h

theorem record (h : Recorded cfg s log) (hflight : InFlight cfg s) {i : ℕ} {c : BuildCall}
    (hc : s.builds[i]? = some c) {entry : HeapEntry} (hentry : c.entry = some entry) (ok : Bool)
    (text : Text) (time : ℕ) {record : BuildRecord} {log' : Records}
    (hlog : ∀ k, k ≠ c.key → log'.lookup k = log.lookup k)
    (hrecord : log'.lookup c.key = some record) (hmade : MadeOf cfg entry record)
    (hok : ok = true → record.succeeded = true) :
    Recorded cfg (s.record cfg i c entry ok text time) log' := by
  obtain ⟨hkey, -⟩ := h.owner ⟨i, c, hc, rfl, hentry⟩
  unfold HeapPool.record
  dsimp only
  generalize hrecorded : HeapEntry.mk _ _ _ _ _ _ _ _ _ _ _ = recorded
  have hself : recorded.key = c.key ∧ MadeOf cfg recorded record ∧
      (recorded.status = .ready → record.succeeded = true) := by
    rw [← hrecorded]
    refine ⟨hkey, ⟨hmade.root, hmade.files, hmade.fingerprint, hmade.names⟩, fun hready => ?_⟩
    cases ok with
    | true => exact hok rfl
    | false => cases hready
  have howns : ∀ s'' : HeapPool, s''.builds = s.builds.set i { c with stage := .ended } →
      ∀ k e, s''.Owns k e →
        k ≠ c.key ∧ s.Owns k e ∨ k = c.key ∧ e.key = c.key ∧ MadeOf cfg e record := by
    intro s'' hbuilds k e hown
    refine ((owns_set hflight hc (BuildCall.inFlight_of_entry hentry) .ended hbuilds).mp hown).imp
      id ?_
    rintro ⟨-, hcontra⟩
    cases hcontra
  by_cases hin : (s.entries.lookup c.key).isSome = true
  · rw [if_pos hin]
    refine h.put (Dict.nodup_put h.nodup) (fun k hk => Dict.lookup_put_of_ne hk) hlog hrecord
      (fun e he => ?_) (howns _ rfl)
    change (Dict.put s.entries c.key recorded).lookup c.key = some e at he
    rw [Dict.lookup_put_self] at he
    cases he
    exact hself
  · rw [if_neg hin]
    refine h.put h.nodup (fun _ _ => rfl) hlog hrecord (fun e he => ?_) (howns _ rfl)
    change s.entries.lookup c.key = some e at he
    rw [he] at hin
    exact absurd rfl hin

theorem fails (h : Recorded cfg s log) (hflight : InFlight cfg s) {i : ℕ} {c : BuildCall}
    (hc : s.builds[i]? = some c) {entry : HeapEntry} (hentry : c.entry = some entry) (text : Text)
    (time : ℕ) : Recorded cfg (s.record cfg i c entry false text time) log := by
  obtain ⟨-, record, hrecord, hmade⟩ := h.owner ⟨i, c, hc, rfl, hentry⟩
  exact h.record hflight hc hentry false text time (fun _ _ => rfl) hrecord hmade
    fun hcontra => by cases hcontra

theorem finish (h : Recorded cfg s log) (hflight : InFlight cfg s) {i : ℕ} {c : BuildCall}
    (hc : s.builds[i]? = some c) (text : Text) (time : ℕ) :
    Recorded cfg (s.finish cfg i c text time) (s.recordFinish log c) := by
  unfold HeapPool.finish recordFinish
  cases hstage : c.stage with
  | running entry p =>
    have hentry : c.entry = some entry := by rw [BuildCall.entry, hstage]
    obtain ⟨-, record, hrecord, hmade⟩ := h.owner ⟨i, c, hc, rfl, hentry⟩
    dsimp only
    cases hexit : (s.processes[p]?).bind BuildProcess.exit with
    | none => exact h
    | some ok =>
      rw [hrecord]
      cases ok with
      | false => exact h.fails hflight hc hentry text time
      | true =>
        exact h.record hflight hc hentry true text time
          (fun k hk => Dict.lookup_put_of_ne hk) Dict.lookup_put_self
          ⟨hmade.root, hmade.files, hmade.fingerprint, hmade.names⟩ fun _ => rfl
  | _ => exact h

theorem delete (h : Recorded cfg s log) (key : HeapKey) :
    Recorded cfg (s.delete cfg key).1 log := by
  rcases delete_cases cfg s key with heq | ⟨entry, -, roots, heaps, heq⟩
  · rwa [heq]
  · rw [heq]
    refine h.frame (Dict.nodup_del h.nodup) (fun k e hlookup => ?_) fun _ _ hown => hown
    by_cases hk : k = key
    · subst hk
      rw [Dict.lookup_del_self] at hlookup
      cases hlookup
    · rwa [Dict.lookup_del_of_ne hk] at hlookup

theorem step (h : Recorded cfg s log) (hflight : InFlight cfg s) (e : RegistryEvent) :
    Recorded cfg (s.registryStep cfg e) (s.recordEvent cfg log e) := by
  have hwith : ∀ {i : ℕ} {f : BuildCall → HeapPool},
      (∀ c, s.builds[i]? = some c → Recorded cfg (f c) log) →
      Recorded cfg (s.withBuild i f) log :=
    fun hf => withBuild_of (P := fun s' => Recorded cfg s' log) h hf
  cases e with
  | delete key => exact h.delete key
  | deleteGroup taskGroup =>
    exact deleteKeys_of (P := fun s' => Recorded cfg s' log) cfg _ h
      fun s' key _ h' => h'.delete key
  | pool e =>
    cases e with
    | build key sessionName builtBy =>
      simp only [registryStep, HeapPool.step, build]
      split_ifs
      · exact h
      · exact h.same rfl fun k e hown => (owns_append rfl rfl).mp hown
    | register i =>
      simp only [registryStep, HeapPool.step, recordEvent, withBuild]
      cases hc : s.builds[i]? with
      | none => exact h
      | some c => exact h.register hflight hc
    | spawn i =>
      refine hwith fun c hc => ?_
      unfold HeapPool.spawn
      split
      case h_1 entry hstage =>
        have hentry : c.entry = some entry := by rw [BuildCall.entry, hstage]
        refine h.same rfl fun k e hown => ?_
        rcases (owns_set hflight hc (BuildCall.inFlight_of_entry hentry) _ rfl).mp hown with
          ⟨-, hown⟩ | ⟨rfl, heq⟩
        · exact hown
        · exact ⟨i, c, hc, rfl, hentry.trans heq⟩
      case h_2 => exact h
    | spawnFails i error =>
      refine hwith fun c hc => ?_
      unfold HeapPool.spawnFails
      split
      case h_1 entry hstage => exact h.fails hflight hc (by rw [BuildCall.entry, hstage]) ..
      case h_2 => exact h
    | finish i text time =>
      simp only [registryStep, HeapPool.step, recordEvent, withBuild]
      cases hc : s.builds[i]? with
      | none => exact h
      | some c => exact h.finish hflight hc text time
    | timeOut i message =>
      refine hwith fun c hc => ?_
      unfold HeapPool.timeOut
      split
      case h_1 entry p hstage => exact h.fails hflight hc (by rw [BuildCall.entry, hstage]) ..
      case h_2 => exact h
    | cancel i => exact hwith fun c hc => h.leave hflight hc rfl rfl
    | processEnds p ok =>
      simp only [registryStep, HeapPool.step, processEnds]
      (repeat' split) <;> first | exact h | exact h.same rfl fun _ _ hown => hown
    | resolveForSession taskGroup heapSession project =>
      simp only [registryStep, HeapPool.step, resolveForSession]
      split
      · exact h
      case h_2 found hselect =>
        obtain ⟨key, hin, -⟩ := mem_of_selectEntry s hselect
        have hlookup := Dict.lookup_of_mem h.nodup hin
        obtain ⟨hkey, record, hrecord, hmade, -⟩ := h.entry hlookup
        split
        case h_4 =>
          split
          · exact h
          · subst hkey
            refine h.put (Dict.nodup_put h.nodup) (fun k hk => Dict.lookup_put_of_ne hk)
              (fun _ _ => rfl) hrecord (fun e he => ?_) fun k e hown => ?_
            · change (Dict.put s.entries found.key _).lookup found.key = some e at he
              rw [Dict.lookup_put_self] at he
              cases he
              exact ⟨rfl, ⟨hmade.root, hmade.files, hmade.fingerprint, hmade.names⟩,
                fun hcontra => by cases hcontra⟩
            · by_cases hk : k = found.key
              · subst hk
                obtain ⟨hekey, record', hrecord', hmade'⟩ := h.owner hown
                rw [hrecord] at hrecord'
                cases hrecord'
                exact .inr ⟨rfl, hekey, hmade'⟩
              · exact .inl ⟨hk, hown⟩
        all_goals exact h
    | changeProject project dir => exact h.same rfl fun _ _ hown => hown
    | changeRoot dir rootText => exact h.same rfl fun _ _ hown => hown

end Recorded

theorem resolvesRecorded_iff {log : Records} (h : Recorded cfg s log) {e : RegistryEvent}
    (hfree : NoCollision cfg (s, log) e) :
    ResolvesRecorded cfg (s, log) e ↔ GateInputs cfg s e := by
  unfold ResolvesRecorded GateInputs
  split
  case h_2 => exact Iff.rfl
  case h_1 taskGroup heapSession project =>
    refine forall_congr' fun entry => ?_
    rw [resolveForSession_eq_ok]
    constructor
    · intro hrecorded hselect hready hfresh
      obtain ⟨hgroup, hproject, hsession, record, hrecord, -, hroot, hsources⟩ :=
        hrecorded ⟨hselect, hready, hfresh⟩
      obtain ⟨key, hin, -⟩ := mem_of_selectEntry s hselect
      have hlookup := Dict.lookup_of_mem h.nodup hin
      obtain ⟨hkey, record', hrecord', hmade, -⟩ := h.entry hlookup
      subst hkey
      rw [hrecord] at hrecord'
      cases hrecord'
      refine ⟨fun p hp n hn => ?_, by rw [hmade.root]; exact hroot, fun _ => ?_⟩
      · have hkey : entry.key = (taskGroup, p) := Prod.ext hgroup (hproject p hp)
        rw [← hkey, hlookup, Option.map_some, hsession n hn]
      · rw [hsources, hmade.lengths]
    · rintro hgate ⟨hselect, hready, hfresh⟩
      obtain ⟨hselectors, hroot, hlengths⟩ := hgate hselect hready hfresh
      obtain ⟨key, hin, hgroup, hmatch⟩ := mem_of_selectEntry s hselect
      have hlookup := Dict.lookup_of_mem h.nodup hin
      obtain ⟨hkey, record, hrecord, hmade, hsucceeded⟩ := h.entry hlookup
      subst hkey
      refine ⟨hgroup, ?_, ?_, record, hrecord, hsucceeded hready, by rw [← hmade.root]; exact hroot,
        sources_eq_of_isFresh hmade hfresh (hfree _ hin record hrecord) hlengths⟩
      · intro p hp
        rcases hmatch with hp' | ⟨hn, hnone⟩
        · rw [hp'] at hp
          cases hp
          rfl
        · -- the session was looked up, so no heap of the project is there to have its name
          have hname := hselectors p hp _ hn
          rw [hnone p hp] at hname
          cases hname
      · intro n hn
        rcases hmatch with hp | ⟨hn', -⟩
        · have hname := hselectors _ hp n hn
          have hpair : (taskGroup, entry.key.2) = entry.key := Prod.ext hgroup.symm rfl
          rw [hpair, hlookup] at hname
          exact Option.some.inj hname
        · rw [hn'] at hn
          exact Option.some.inj hn

/-- Without collisions the gate lets through what the last builds have recorded, as long as what it
does not look at is as it should be. -/
theorem everyStep_resolvesRecorded_iff (cfg : HeapConfig) {s : HeapPool} (hentries : s.entries = [])
    (hbuilds : s.builds = []) (es : List RegistryEvent)
    (hfree : Runs.EveryStep (gateStep cfg) (NoCollision cfg) (s, []) es) :
    Runs.EveryStep (gateStep cfg) (ResolvesRecorded cfg) (s, []) es ↔
      Runs.EveryStep (gateStep cfg) (fun x e => GateInputs cfg x.1 e) (s, []) es := by
  have hstep : ∀ (x : HeapPool × Records) (e : RegistryEvent),
      Recorded cfg x.1 x.2 ∧ InFlight cfg x.1 →
      Recorded cfg (gateStep cfg x e).1 (gateStep cfg x e).2 ∧ InFlight cfg (gateStep cfg x e).1 :=
    fun x e h => ⟨h.1.step h.2 e, h.2.of_step (builds_step cfg x.1 e)⟩
  have hstart : Recorded cfg s [] ∧ InFlight cfg s := ⟨.of_nil hentries hbuilds, .of_nil hbuilds⟩
  constructor
  · intro hrecorded
    have hboth := (Runs.everyStep_and _ _ _ _ _).mpr ⟨hfree, hrecorded⟩
    exact Runs.everyStep_of_invariant (fun x e h _ => hstep x e h)
      (fun x e h hx => (resolvesRecorded_iff h.1 hx.1).mp hx.2) hstart hboth
  · intro hgate
    have hboth := (Runs.everyStep_and _ _ _ _ _).mpr ⟨hfree, hgate⟩
    exact Runs.everyStep_of_invariant (fun x e h _ => hstep x e h)
      (fun x e h hx => (resolvesRecorded_iff h.1 hx.1).mpr hx.2) hstart hboth

/-- A project with a ROOT of its own is built, and its directory is as told when its heap is asked
for. -/
def buildAndAsk (before after : ProjectDir) : List RegistryEvent :=
  [.pool (.changeProject "/p".toList (some before)),
    .pool (.build ("g".toList, "/p".toList) none none), .pool (.register 0), .pool (.spawn 0),
    .pool (.processEnds 0 true), .pool (.finish 0 [] 0),
    .pool (.changeProject "/p".toList (some after)),
    .pool (.resolveForSession "g".toList (some "S".toList) (some "/p".toList))]

def projectDirOf (rootText content : Text) : ProjectDir where
  root := some rootText
  files := [⟨"a.thy".toList, content, 0, noSlash_sample⟩]

set_option maxRecDepth 20000 in
theorem gate_after_edit :
    Runs.EveryStep (gateStep .sample) (ResolvesRecorded .sample) (.sample [], [])
        (buildAndAsk (projectDirOf "session S = HOL".toList "A".toList)
          (projectDirOf "session S = HOL".toList "B".toList)) ↔
      Runs.EveryStep (gateStep .sample) (fun x e => GateInputs .sample x.1 e) (.sample [], [])
        (buildAndAsk (projectDirOf "session S = HOL".toList "A".toList)
          (projectDirOf "session S = HOL".toList "B".toList)) :=
  everyStep_resolvesRecorded_iff .sample rfl rfl _ (by decide)

set_option maxRecDepth 20000 in
/-- The gate does not see that the ROOT has changed. -/
theorem gate_after_root_change :
    ¬ ∀ (cfg : HeapConfig) (s : HeapPool), s.entries = [] → s.builds = [] →
      ∀ es : List RegistryEvent, Runs.EveryStep (gateStep cfg) (NoCollision cfg) (s, []) es →
        Runs.EveryStep (gateStep cfg) (ResolvesRecorded cfg) (s, []) es := by
  intro h
  have hrun := h .sample (.sample []) rfl rfl
    (buildAndAsk (projectDirOf "session S = HOL".toList "A".toList)
      (projectDirOf "session S = ZF".toList "A".toList)) (by decide)
  obtain ⟨-, -, -, -, -, -, -, hgate, -⟩ := hrun
  generalize hx : gateStep _ _ _ = x at hgate
  have hok : (x.1.resolveForSession .sample "g".toList (some "S".toList)
      (some "/p".toList)).2.toOption.map (fun e => (e.key, x.1.rootOnDisk .sample e)) =
        some (("g".toList, "/p".toList), some "session S = ZF".toList) := by rw [← hx]; decide
  have hlog : (x.2.lookup ("g".toList, "/p".toList)).map BuildRecord.rootText =
      some "session S = HOL".toList := by rw [← hx]; decide
  cases hresult : (x.1.resolveForSession .sample "g".toList (some "S".toList)
      (some "/p".toList)).2 with
  | error e =>
    rw [hresult] at hok
    cases hok
  | ok entry =>
    rw [hresult] at hok
    simp only [Except.toOption, Option.map_some, Option.some.injEq, Prod.mk.injEq] at hok
    obtain ⟨-, -, -, record, hrecord, -, hroot, -⟩ := hgate entry hresult
    rw [hok.1] at hrecord
    rw [hrecord, Option.map_some, Option.some.injEq] at hlog
    rw [hok.2, hlog] at hroot
    revert hroot
    decide

end HeapPool
end IsabelleGym
