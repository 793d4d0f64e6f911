import IsabelleGym.HeapImageDeletion
import IsabelleGym.HeapImages

/-!
# Deleting heap records

A deletion drops the entry with its manifest and its scratch ROOT, and collects
the image where no other entry has the session name. What it leaves alone depends
on the paths and the names that the entries were recorded with.
-/

namespace IsabelleGym

open PosixPath FileGlob

/-- As the images are listed, where the directory of the logs is none of them. -/
def IsImage (cfg : HeapConfig) (n : FileName) (q : FilePath) : Prop :=
  n ≠ "log".toList ∧ ∃ platform, cfg.heapsDir ++ [platform, n] <+: q

/-- A name with a further dot is that of another session. -/
def IsLog (cfg : HeapConfig) (n : FileName) (q : FilePath) : Prop :=
  ∃ platform ext, '.' ∉ ext ∧ q = cfg.heapsDir ++ [platform, "log".toList, n ++ '.' :: ext]

/-- The names of the images that no build of the pool wrote are among these. -/
def OnlyBase (cfg : HeapConfig) (base : FileName → Prop) (heaps : FileTree (Option ℕ)) : Prop :=
  ∀ file ∈ heaps, file.2 = .file none → ∀ n, IsImage cfg n file.1 → base n

/-- The pool behind the deletion of an entry has all that is not the entry's. -/
structure KeepsRest (cfg : HeapConfig) (s s' : HeapPool) (key : HeapKey) (entry : HeapEntry) :
    Prop where
  entries : s'.entries = Dict.del s.entries key
  projects : s'.projects = s.projects
  builds : s'.builds = s.builds
  processes : s'.processes = s.processes
  manifests : ∀ p, p ≠ cfg.absolute (cfg.manifestPath key) →
    s'.manifests.lookup p = s.manifests.lookup p
  othersManifest : ∀ e ∈ s.entries, e.1 ≠ key →
    s'.manifests.lookup (cfg.absolute (cfg.manifestPath e.1)) =
      s.manifests.lookup (cfg.absolute (cfg.manifestPath e.1))
  roots : ∀ p, (p = cfg.absolute (ofText entry.rootDir) → ofText entry.rootDir = ofText key.2) →
    s'.roots.lookup p = s.roots.lookup p
  othersRoot : ∀ e ∈ s.entries, e.1 ≠ key →
    s'.roots.lookup (cfg.absolute (ofText e.2.rootDir)) =
      s.roots.lookup (cfg.absolute (ofText e.2.rootDir))
  heaps : ∀ file ∈ s'.heaps, file ∈ s.heaps
  collected : ∀ file ∈ s.heaps, file ∉ s'.heaps →
    (∀ e ∈ s.entries, e.1 ≠ key → e.2.sessionName ≠ entry.sessionName) ∧
      (IsImage cfg entry.sessionName file.1 ∨ IsLog cfg entry.sessionName file.1)
  othersImage : ∀ e ∈ s.entries, e.1 ≠ key → ∀ file ∈ s.heaps,
    IsImage cfg e.2.sessionName file.1 → file ∈ s'.heaps
  baseImages : ∀ file ∈ s.heaps, file.2 = .file none → ∀ n, IsImage cfg n file.1 →
    file ∈ s'.heaps

/-- The deletion of a key touches nothing but what its entry has. -/
def DeletesOnlyOwn (cfg : HeapConfig) (s : HeapPool) (key : HeapKey) : Prop :=
  match s.entries.lookup key with
  | none => (s.delete cfg key).1 = s
  | some entry => KeepsRest cfg s (s.delete cfg key).1 key entry

/-- What there is on disk of the names that an entry does not have for itself. -/
structure OnDisk (cfg : HeapConfig) (base others : FileName → Prop)
    (entries : Dict HeapKey HeapEntry) (key : HeapKey) (heaps : FileTree (Option ℕ)) : Prop where
  wellFormed : heaps.WellFormed
  onlyBase : OnlyBase cfg base heaps
  onlyDotted : ∀ entry, entries.lookup key = some entry →
    OnlyDotted (IsLog cfg) others entry.sessionName heaps

/-- No image is collected for the session name, or the name stands for itself only. -/
def CollectsOwn (cfg : HeapConfig) (base others : FileName → Prop)
    (entries : Dict HeapKey HeapEntry) (key : HeapKey) (sessionName : Text) : Prop :=
  cfg.gcImages = false ∨ (∃ e ∈ entries, e.1 ≠ key ∧ e.2.sessionName = sessionName) ∨
    cfg.answersGetenv = false ∨ segments (imagePattern sessionName none) = none ∨
    (Unmatchable (imagePattern sessionName none) ∧
      (segments (logPattern ['*'] sessionName) = none ∨
        Unmatchable (logPattern ['*'] sessionName))) ∨
    NamesItself sessionName ∧ fnmatch sessionName sessionName = true ∧
      sessionName ≠ "log".toList ∧ ¬ base sessionName ∧ Undotted others sessionName

/-- Nothing of the entry is shared with another one, or with an image that is not of the pool. -/
structure Separate (cfg : HeapConfig) (base others : FileName → Prop)
    (entries : Dict HeapKey HeapEntry) (key : HeapKey) (entry : HeapEntry) : Prop where
  manifest : ∀ e ∈ entries, e.1 ≠ key →
    cfg.absolute (cfg.manifestPath e.1) ≠ cfg.absolute (cfg.manifestPath key)
  root : ofText entry.rootDir = ofText key.2 ∨ ∀ e ∈ entries, e.1 ≠ key →
    cfg.absolute (ofText e.2.rootDir) ≠ cfg.absolute (ofText entry.rootDir)
  image : CollectsOwn cfg base others entries key entry.sessionName

namespace HeapPool

variable (cfg : HeapConfig)

def collect (entries : Dict HeapKey HeapEntry) (sessionName : Text)
    (heaps : FileTree (Option ℕ)) : FileTree (Option ℕ) :=
  if !cfg.gcImages || entries.any fun e => e.2.sessionName = sessionName then heaps
  else if cfg.answersGetenv then
    (glob heaps cfg.heapsDir (imagePattern sessionName none)).elim heaps fun images =>
      (glob (removeImages heaps images) cfg.heapsDir (logPattern ['*'] sessionName)).elim
        (removeImages heaps images) (removeLogs (removeImages heaps images))
  else heaps

theorem gcHeapImage_heaps (s : HeapPool) (sessionName : Text) :
    (s.gcHeapImage cfg sessionName).1.heaps = collect cfg s.entries sessionName s.heaps := by
  have himage : imagePattern sessionName none = "*/".toList ++ sessionName := rfl
  have hlog : "*/log/".toList ++ sessionName ++ ".*".toList = logPattern ['*'] sessionName := by
    simp [logPattern]
  unfold gcHeapImage collect HeapConfig.isabelleHomeUser
  rw [hlog, himage, HeapConfig.heapsDir]
  by_cases hkept : (!cfg.gcImages || s.entries.any fun e => e.2.sessionName = sessionName) = true
  · rw [if_pos hkept, if_pos hkept]
  · rw [if_neg hkept, if_neg hkept]
    by_cases hanswers : cfg.answersGetenv = true
    · rw [if_pos hanswers, if_pos hanswers]
      dsimp only
      cases glob s.heaps (cfg.homeUser ++ ["heaps".toList]) ("*/".toList ++ sessionName) with
      | none => rfl
      | some images =>
        dsimp only [Option.elim]
        cases glob (removeImages s.heaps images) (cfg.homeUser ++ ["heaps".toList])
          (logPattern ['*'] sessionName) <;> rfl
    · rw [if_neg hanswers, if_neg hanswers]

/-- What a deletion leaves of the pool. -/
theorem delete_eq {s : HeapPool} {key : HeapKey} {entry : HeapEntry}
    (h : s.entries.lookup key = some entry) : (s.delete cfg key).1 =
      { s with
        entries := Dict.del s.entries key
        manifests := Dict.del s.manifests (cfg.absolute (cfg.manifestPath key))
        roots := if ofText entry.rootDir = ofText key.2 then s.roots
          else Dict.del s.roots (cfg.absolute (ofText entry.rootDir))
        heaps := collect cfg (Dict.del s.entries key) entry.sessionName s.heaps } := by
  unfold delete
  rw [h]
  dsimp only
  generalize hs' : HeapPool.mk _ _ _ _ _ _ _ = s'
  obtain ⟨heaps, himage⟩ := gcHeapImage_frame cfg (s'.dropRoot cfg key entry) entry.sessionName
  have hheaps := gcHeapImage_heaps cfg (s'.dropRoot cfg key entry) entry.sessionName
  rw [himage] at hheaps ⊢
  dsimp only at hheaps
  rw [hheaps, ← hs']
  unfold dropRoot
  split_ifs <;> rfl

section Removed

variable {heaps : FileTree (Option ℕ)} {entry : FilePath × FileNode (Option ℕ)}

theorem mem_of_mem_removeImages {images : List FilePath} (h : entry ∈ removeImages heaps images) :
    entry ∈ heaps := by
  unfold removeImages at h
  induction images generalizing heaps with
  | nil => exact h
  | cons image images ih => exact FileTree.mem_of_mem_remove (ih h)

theorem of_not_mem_removeImages {images : List FilePath} (hin : entry ∈ heaps)
    (h : entry ∉ removeImages heaps images) : ∃ image ∈ images, resolve image <+: entry.1 := by
  unfold removeImages at h
  induction images generalizing heaps with
  | nil => exact absurd hin h
  | cons image images ih =>
    by_cases hfirst : entry ∈ heaps.remove image
    · obtain ⟨image', hmem, hbelow⟩ := ih hfirst h
      exact ⟨image', List.mem_cons_of_mem _ hmem, hbelow⟩
    · exact ⟨image, List.mem_cons_self, FileTree.below_of_not_mem_remove hin hfirst⟩

variable {cfg} {entries : Dict HeapKey HeapEntry} {sessionName : Text}

theorem mem_of_mem_collect (h : entry ∈ collect cfg entries sessionName heaps) : entry ∈ heaps := by
  unfold collect at h
  split_ifs at h
  · exact h
  · cases himages : glob heaps cfg.heapsDir (imagePattern sessionName none) with
    | none =>
      rw [himages] at h
      exact h
    | some images =>
      rw [himages, Option.elim_some] at h
      cases hlogs : glob (removeImages heaps images) cfg.heapsDir
          (logPattern ['*'] sessionName) with
      | none =>
        rw [hlogs] at h
        exact mem_of_mem_removeImages h
      | some logs =>
        rw [hlogs] at h
        exact mem_of_mem_removeImages (mem_of_mem_removeLogs h)
  · exact h

/-- What is collected was selected as an image or as a log. -/
theorem of_not_mem_collect (hwf : heaps.WellFormed) (hin : entry ∈ heaps)
    (h : entry ∉ collect cfg entries sessionName heaps) :
    cfg.gcImages = true ∧ (∀ e ∈ entries, e.2.sessionName ≠ sessionName) ∧
      cfg.answersGetenv = true ∧
      ∃ segs, segments (imagePattern sessionName none) = some segs ∧
        ((∃ cs, Walk segs cs ∧ resolve (cfg.heapsDir ++ cs) <+: entry.1) ∨
          (∃ content, (entry.1, .file content) ∈ heaps) ∧
            ∃ segs' cs, segments (logPattern ['*'] sessionName) = some segs' ∧ Walk segs' cs ∧
              entry.1 = resolve (cfg.heapsDir ++ cs)) := by
  unfold collect at h
  split_ifs at h with hkept hanswers
  · exact absurd hin h
  · simp only [Bool.or_eq_true, Bool.not_eq_true', List.any_eq_true, decide_eq_true_eq, not_or,
      Bool.not_eq_false] at hkept
    refine ⟨hkept.1, fun e he heq => hkept.2 ⟨e, he, heq⟩, hanswers, ?_⟩
    cases himages : glob heaps cfg.heapsDir (imagePattern sessionName none) with
    | none =>
      rw [himages] at h
      exact absurd hin h
    | some images =>
      rw [himages, Option.elim_some] at h
      obtain ⟨segs, hsegs, -⟩ := Option.map_eq_some_iff.mp himages
      refine ⟨segs, hsegs, ?_⟩
      by_cases himage : entry ∈ removeImages heaps images
      · right
        cases hlogs : glob (removeImages heaps images) cfg.heapsDir
            (logPattern ['*'] sessionName) with
        | none =>
          rw [hlogs] at h
          exact absurd himage h
        | some logs =>
          rw [hlogs] at h
          obtain ⟨log, hlog, heq, content, hfile⟩ := of_not_mem_removeLogs himage h
          have hwf' : (removeImages heaps images).WellFormed :=
            fun e he => hwf e (mem_of_mem_removeImages he)
          rw [← heq] at hfile
          obtain ⟨segs', cs, hsegs', hwalk, rfl⟩ := walk_of_mem_glob hwf' hlogs hlog
          exact ⟨⟨content, mem_of_mem_removeImages hfile⟩, segs', cs, hsegs', hwalk, heq⟩
      · obtain ⟨image, hmem, hbelow⟩ := of_not_mem_removeImages hin himage
        obtain ⟨segs', cs, hsegs', hwalk, rfl⟩ := walk_of_mem_glob hwf himages hmem
        cases hsegs.symm.trans hsegs'
        exact .inl ⟨cs, hwalk, hbelow⟩
  · exact absurd hin h

end Removed

end HeapPool

section Sufficient

variable {cfg : HeapConfig} {base others : FileName → Prop} {n m : FileName} {q : FilePath}

/-- A path is that of one image, and no log of a session is an image. -/
theorem IsImage.eq (hn : IsImage cfg n q) (hm : IsImage cfg m q ∨ IsLog cfg m q) : n = m := by
  obtain ⟨hlog, p, hbelow⟩ := hn
  have hat : q[cfg.heapsDir.length + 1]? = some n := by
    obtain ⟨rest, rfl⟩ := hbelow
    simp
  rcases hm with ⟨-, p', hbelow'⟩ | ⟨p', ext, -, rfl⟩
  · obtain ⟨rest, rfl⟩ := hbelow'
    simpa using hat.symm
  · refine absurd ?_ hlog
    simpa using hat.symm

theorem isImage_or_isLog_of_collected {entries : Dict HeapKey HeapEntry} {key : HeapKey}
    {sessionName : Text} (hown : CollectsOwn cfg base others entries key sessionName)
    {heaps : FileTree (Option ℕ)} (hwf : heaps.WellFormed)
    (hdotted : OnlyDotted (IsLog cfg) others sessionName heaps)
    {file : FilePath × FileNode (Option ℕ)} (hin : file ∈ heaps)
    (h : file ∉ HeapPool.collect cfg (Dict.del entries key) sessionName heaps) :
    ¬ base sessionName ∧ (∀ e ∈ entries, e.1 ≠ key → e.2.sessionName ≠ sessionName) ∧
      (IsImage cfg sessionName file.1 ∨ IsLog cfg sessionName file.1) := by
  obtain ⟨hgc, hothers, hanswers, segs, hsegs, hselected⟩ := HeapPool.of_not_mem_collect hwf hin h
  have hfree : ∀ e ∈ entries, e.1 ≠ key → e.2.sessionName ≠ sessionName :=
    fun e he hne => hothers e (Dict.mem_del.mpr ⟨he, hne⟩)
  rcases hown with hoff | ⟨e, he, hne, heq⟩ | hsilent | hrejected | ⟨himage, hlog⟩ |
    ⟨hname, hself, hne, hbase, hundotted⟩
  · rw [hgc] at hoff
    cases hoff
  · exact absurd heq (hfree e he hne)
  · rw [hanswers] at hsilent
    cases hsilent
  · rw [hsegs] at hrejected
    cases hrejected
  · rcases hselected with ⟨cs, hwalk, -⟩ | ⟨-, segs', cs, hsegs', hwalk, -⟩
    · exact absurd hwalk (himage.not_walk hsegs)
    · rcases hlog with hrejected | hlog
      · rw [hsegs'] at hrejected
        cases hrejected
      · exact absurd hwalk (hlog.not_walk hsegs')
  · refine ⟨hbase, hfree, ?_⟩
    rcases hselected with ⟨cs, hwalk, hbelow⟩ | ⟨⟨content, hfile⟩, segs', cs, hsegs', hwalk, heq⟩
    · obtain ⟨p, rfl, hp, -, -⟩ := exists_of_walk_imagePattern hname (by simp) hsegs hwalk
      have hplain : ∀ c ∈ [p, sessionName], IsPlain c := by
        intro c hc
        rcases List.mem_cons.mp hc with rfl | hc
        · exact hp
        · rw [List.mem_singleton.mp hc]
          exact hname.1
      rw [cfg.resolve_heapsDir hplain] at hbelow
      exact .inl ⟨hne, p, hbelow⟩
    · have hall : OfPlatform none [['*']] := by simp [OfPlatform]
      have hnone : ∀ p ∈ (none : Option Text).filter (· ≠ []),
          ∃ c, (ofText p).parts = [c] ∧ NamesItself c := by simp
      obtain ⟨ps, ext, rfl, hplain, -, hlength⟩ :=
        exists_of_walk_logPattern hname hself hnone (by decide) hall hsegs' hwalk
      rcases hlength with hcontra | hlength
      · exact absurd hcontra (by decide)
      · obtain ⟨p, rfl⟩ := List.length_eq_one_iff.mp hlength
        rw [cfg.resolve_heapsDir hplain] at heq
        have hslash : '/' ∉ sessionName ++ '.' :: ext := (hplain _ (by simp)).2.1
        have hext := hdotted.of_selected hundotted hfile hslash fun m ext' hext' hsplit =>
          ⟨p, ext', hext', by rw [heq, ← hsplit]; rfl⟩
        exact .inr ⟨p, ext, hext, heq⟩

theorem Separate.keepsRest {s : HeapPool} {key : HeapKey} {entry : HeapEntry}
    (h : Separate cfg base others s.entries key entry)
    (hlookup : s.entries.lookup key = some entry)
    (hdisk : OnDisk cfg base others s.entries key s.heaps) :
    KeepsRest cfg s (s.delete cfg key).1 key entry := by
  have hcollected : ∀ file ∈ s.heaps, file ∉ (s.delete cfg key).1.heaps →
      ¬ base entry.sessionName ∧
      (∀ e ∈ s.entries, e.1 ≠ key → e.2.sessionName ≠ entry.sessionName) ∧
        (IsImage cfg entry.sessionName file.1 ∨ IsLog cfg entry.sessionName file.1) := by
    intro file hin hgone
    rw [HeapPool.delete_eq cfg hlookup] at hgone
    exact isImage_or_isLog_of_collected h.image hdisk.wellFormed (hdisk.onlyDotted _ hlookup) hin
      hgone
  have heq := HeapPool.delete_eq cfg hlookup
  constructor
  case entries | projects | builds | processes => rw [heq]
  case manifests =>
    intro p hp
    rw [heq]
    exact Dict.lookup_del_of_ne hp
  case othersManifest =>
    intro e he hne
    rw [heq]
    exact Dict.lookup_del_of_ne (h.manifest e he hne)
  case roots =>
    intro p hp
    rw [heq]
    dsimp only
    split_ifs with hroot
    · rfl
    · exact Dict.lookup_del_of_ne fun hcontra => hroot (hp hcontra)
  case othersRoot =>
    intro e he hne
    rw [heq]
    dsimp only
    split_ifs with hroot
    · rfl
    · exact Dict.lookup_del_of_ne (h.root.resolve_left hroot e he hne)
  case heaps =>
    intro file hin
    rw [heq] at hin
    exact HeapPool.mem_of_mem_collect hin
  case collected => exact fun file hin hgone => (hcollected file hin hgone).2
  case othersImage =>
    intro e he hne file hin himage
    by_contra hgone
    obtain ⟨-, hfree, hown⟩ := hcollected file hin hgone
    exact hfree e he hne (himage.eq hown)
  case baseImages =>
    intro file hin hnone n himage
    by_contra hgone
    obtain ⟨hnot, -, hown⟩ := hcollected file hin hgone
    exact hnot (himage.eq hown ▸ hdisk.onlyBase file hin hnone n himage)

end Sufficient

namespace HeapPool

section Collect

variable {cfg : HeapConfig} {entries : Dict HeapKey HeapEntry} {sessionName : Text}
  {heaps : FileTree (Option ℕ)} {file : FilePath × FileNode (Option ℕ)}

structure Collects (cfg : HeapConfig) (entries : Dict HeapKey HeapEntry) (sessionName : Text) :
    Prop where
  gcImages : cfg.gcImages = true
  free : ∀ e ∈ entries, e.2.sessionName ≠ sessionName
  answersGetenv : cfg.answersGetenv = true

theorem Collects.collect_eq (h : Collects cfg entries sessionName) :
    collect cfg entries sessionName heaps =
      (glob heaps cfg.heapsDir (imagePattern sessionName none)).elim heaps fun images =>
        (glob (removeImages heaps images) cfg.heapsDir (logPattern ['*'] sessionName)).elim
          (removeImages heaps images) (removeLogs (removeImages heaps images)) := by
  have hfree : (entries.any fun e => e.2.sessionName = sessionName) = false := by
    simpa using fun _ _ _ he => h.free _ he
  rw [collect, h.gcImages, hfree, if_neg (by decide), if_pos h.answersGetenv]

theorem Collects.not_mem_of_image (h : Collects cfg entries sessionName) {image : FilePath}
    {images : List FilePath}
    (hglob : glob heaps cfg.heapsDir (imagePattern sessionName none) = some (image :: images))
    (hgone : file ∉ heaps.remove image) : file ∉ collect cfg entries sessionName heaps := by
  rw [h.collect_eq, hglob, Option.elim_some]
  intro hcontra
  have hkept : file ∈ removeImages (heaps.remove image) images := by
    cases hlogs : glob (removeImages heaps (image :: images)) cfg.heapsDir
        (logPattern ['*'] sessionName) with
    | none =>
      rw [hlogs] at hcontra
      exact hcontra
    | some logs =>
      rw [hlogs] at hcontra
      exact mem_of_mem_removeLogs hcontra
  exact hgone (mem_of_mem_removeImages hkept)

theorem Collects.not_mem_of_log (h : Collects cfg entries sessionName)
    (file : FilePath × FileNode (Option ℕ)) {log : FilePath} {logs : List FilePath}
    (himages : glob heaps cfg.heapsDir (imagePattern sessionName none) = some [])
    (hglob : glob heaps cfg.heapsDir (logPattern ['*'] sessionName) = some (log :: logs))
    (hlog : heaps.isFile log = true) (hfile : file.1 = resolve log) :
    file ∉ collect cfg entries sessionName heaps := by
  have hnone : removeImages heaps [] = heaps := rfl
  rw [h.collect_eq, himages, Option.elim_some, hnone, hglob, Option.elim_some, removeLogs,
    List.takeWhile_cons_of_pos hlog, List.foldl_cons]
  intro hcontra
  have hkept : ∀ (files : List FilePath) (heaps : FileTree (Option ℕ)),
      file ∈ files.foldl FileTree.unlink heaps → file ∈ heaps := by
    intro files
    induction files with
    | nil => exact fun _ h => h
    | cons q files ih => exact fun heaps h => (FileTree.mem_unlink.mp (ih _ h)).1
  exact (FileTree.mem_unlink.mp (hkept _ _ hcontra)).2 hfile

end Collect

end HeapPool

section Necessary

variable {cfg : HeapConfig} {base others : FileName → Prop} {entries : Dict HeapKey HeapEntry}
  {sessionName : Text}

/-- On every disk the collection takes files of the session name only, and those from builds. -/
def TakesOwn (cfg : HeapConfig) (base others : FileName → Prop)
    (entries : Dict HeapKey HeapEntry) (sessionName : Text) : Prop :=
  ∀ heaps : FileTree (Option ℕ), heaps.WellFormed → OnlyBase cfg base heaps →
    OnlyDotted (IsLog cfg) others sessionName heaps →
    ∀ file ∈ heaps, file ∉ HeapPool.collect cfg entries sessionName heaps →
      (IsImage cfg sessionName file.1 ∨ IsLog cfg sessionName file.1) ∧
        (file.2 = .file none → ∀ n, ¬ IsImage cfg n file.1)

theorem inside_of_own {q : FilePath} (h : IsImage cfg sessionName q ∨ IsLog cfg sessionName q) :
    Inside cfg sessionName none q := by
  have hall : ∀ ps, OfPlatform none ps := by simp [OfPlatform]
  rcases h with ⟨hlog, p, hbelow⟩ | ⟨p, ext, hext, rfl⟩
  · exact .inl ⟨hlog, p, hall _, hbelow⟩
  · exact .inr ⟨[p], ext, hall _, hext, by simp⟩

theorem slash_not_mem_of_own {q : FilePath} (hq : ∀ c ∈ q, IsPlain c)
    (h : IsImage cfg sessionName q ∨ IsLog cfg sessionName q) : '/' ∉ sessionName := by
  rcases h with ⟨-, p, hbelow⟩ | ⟨p, ext, -, rfl⟩
  · exact (hq _ (hbelow.subset (by simp))).2.1
  · exact fun hin => (hq (sessionName ++ '.' :: ext) (by simp)).2.1 (List.mem_append_left _ hin)

theorem length_of_own {q : FilePath} (h : IsImage cfg sessionName q ∨ IsLog cfg sessionName q) :
    cfg.heapsDir.length + 2 ≤ q.length := by
  rcases h with ⟨-, p, hbelow⟩ | ⟨p, ext, -, rfl⟩
  · have hle := hbelow.length_le
    rw [List.length_append] at hle
    exact hle
  · rw [List.length_append, List.length_cons, List.length_cons, List.length_singleton]
    omega

/-- Where the images can match names, there are directories of which one is taken. -/
theorem TakesOwn.exists_own (h : TakesOwn cfg base others entries sessionName)
    (hcollects : HeapPool.Collects cfg entries sessionName) {segs : List Segment}
    (hsegs : segments (imagePattern sessionName none) = some segs) {name : Text → FileName}
    (hname : NamesEntries name segs) :
    ∃ ds, ds <+: pathOf name segs ∧ (∀ c ∈ resolve (cfg.heapsDir ++ ds), IsPlain c) ∧
      (IsImage cfg sessionName (resolve (cfg.heapsDir ++ ds)) ∨
        IsLog cfg sessionName (resolve (cfg.heapsDir ++ ds))) := by
  obtain ⟨image, images, hglob, -, ds, hds, hgone⟩ :=
    exists_chain_removed cfg.plain_heapsDir (by simp [HeapConfig.heapsDir]) hsegs hname
  have hwf : (chain cfg.heapsDir (pathOf name segs) : FileTree (Option ℕ)).WellFormed :=
    wellFormed_chain cfg.plain_heapsDir hname
  have hmem : (resolve (cfg.heapsDir ++ ds), .dir) ∈
      (chain cfg.heapsDir (pathOf name segs) : FileTree (Option ℕ)) := mem_chain.mpr ⟨ds, hds, rfl⟩
  refine ⟨ds, hds, hwf _ hmem, (h _ hwf ?_ ?_ _ hmem (hcollects.not_mem_of_image hglob hgone)).1⟩
  · intro file hin hnone
    obtain ⟨ds', -, rfl⟩ := mem_chain.mp hin
    cases hnone
  · intro file hin hnot
    obtain ⟨ds', -, rfl⟩ := mem_chain.mp hin
    exact absurd rfl hnot

theorem TakesOwn.namesItself (h : TakesOwn cfg base others entries sessionName)
    (hcollects : HeapPool.Collects cfg entries sessionName) {segs : List Segment}
    (hsegs : segments (imagePattern sessionName none) = some segs)
    (hmatch : ¬ Unmatchable (imagePattern sessionName none)) :
    NamesItself sessionName ∧ fnmatch sessionName sessionName = true ∧
      sessionName ≠ "log".toList := by
  obtain ⟨name, hname⟩ := exists_namesEntries_of_segments hsegs hmatch
  obtain ⟨ds, hds, hplain, hown⟩ := h.exists_own hcollects hsegs hname
  have hslash := slash_not_mem_of_own hplain hown
  have hlong := length_of_own hown
  have hresolve := length_resolve_le (cfg.heapsDir ++ ds)
  rw [List.length_append] at hresolve
  have hshort := hds.length_le
  have hne : sessionName ≠ [] := by
    rintro rfl
    have hstar : segments (imagePattern [] none) = some [.entry ['*'], .here] := by decide
    cases hsegs.symm.trans hstar
    simp only [pathOf, List.length_singleton] at hshort
    omega
  have hinside : ∀ name, NamesEntries name segs → ∃ ds, ds <+: pathOf name segs ∧
      Inside cfg sessionName none (resolve (cfg.heapsDir ++ ds)) := by
    intro name hname
    obtain ⟨ds, hds, -, hown⟩ := h.exists_own hcollects hsegs hname
    exact ⟨ds, hds, inside_of_own hown⟩
  obtain ⟨hnames, hself, hlog, -⟩ := namesItself_of_inside hne hslash hsegs hmatch hinside
  exact ⟨hnames, hself, hlog⟩

theorem segments_of_namesItself {n : FileName} (hn : NamesItself n) {segs : List Segment}
    (hsegs : segments (imagePattern n none) = some segs) :
    segs = [['*'], n].map .entry ∧ segment n = some (.entry n) := by
  have hforall := forall₂_imagePattern hn.1.1 hn.1.2.1 hsegs
  have hstar : (ofText (((none : Option Text).filter (· ≠ [])).getD ['*'])).parts = [['*']] := by
    decide
  rw [ofText_of_isPlain hn.1, hstar] at hforall
  cases hforall with
  | cons hfirst hrest =>
    cases hrest with
    | cons hsecond hnil =>
      cases hnil
      have hentry : segment ['*'] = some (.entry ['*']) := by decide
      cases hentry.symm.trans hfirst
      cases hn.segment_eq hsecond
      exact ⟨rfl, hsecond⟩

/-- An image on disk that no build wrote is taken like the others. -/
theorem TakesOwn.not_base (h : TakesOwn cfg base others entries sessionName)
    (hcollects : HeapPool.Collects cfg entries sessionName) (hname : NamesItself sessionName)
    (hself : fnmatch sessionName sessionName = true) (hlog : sessionName ≠ "log".toList)
    {segs : List Segment} (hsegs : segments (imagePattern sessionName none) = some segs) :
    ¬ base sessionName := by
  intro hbase
  let disk : FileTree (Option ℕ) := fileAt cfg.heapsDir ["x".toList, sessionName] none
  have himage : IsImage cfg sessionName (cfg.heapsDir ++ ["x".toList, sessionName]) :=
    ⟨hlog, "x".toList, List.prefix_refl _⟩
  have hplain : ∀ c ∈ ["x".toList, sessionName], IsPlain c := by
    simp only [List.forall_mem_cons]
    exact ⟨by decide, hname.1, by simp⟩
  have hwf : disk.WellFormed := wellFormed_fileAt cfg.plain_heapsDir hplain none
  have honly : OnlyBase cfg base disk := by
    intro file hin hnone n hn
    rcases mem_fileAt.mp hin with rfl | rfl
    · cases hnone
    · rw [hn.eq (.inl himage)]
      exact hbase
  have hdotted : OnlyDotted (IsLog cfg) others sessionName disk := by
    intro file hin hnot n hn
    rcases mem_fileAt.mp hin with rfl | rfl
    · exact absurd rfl hnot
    · obtain ⟨p, ext, -, heq⟩ := hn
      simpa using congrArg List.length heq
  obtain ⟨rfl, -⟩ := segments_of_namesItself hname hsegs
  obtain ⟨image, images, hglob, hall⟩ := exists_glob_fileAt cfg.plain_heapsDir hplain none
    (by simp [HeapConfig.heapsDir]) (by simp) hsegs (.cons (by decide) (.cons hself .nil))
  have hin : (cfg.heapsDir ++ ["x".toList, sessionName], .file none) ∈ disk :=
    mem_fileAt.mpr (.inr rfl)
  have hgone : (cfg.heapsDir ++ ["x".toList, sessionName], .file none) ∉ disk.remove image := by
    rw [hall image List.mem_cons_self]
    refine FileTree.not_mem_remove hin (by rw [cfg.resolve_heapsDir hplain]) fun hlast => ?_
    have hdots : (cfg.heapsDir ++ ["x".toList, sessionName]).getLast? = some sessionName := by simp
    exact absurd (Option.some.inj (hdots.symm.trans hlast)) hname.1.2.2.2
  exact (h disk hwf honly hdotted _ hin (hcollects.not_mem_of_image hglob hgone)).2 rfl _ himage

/-- A log of another session is taken where this one's name and a dot stand in front. -/
theorem TakesOwn.undotted (h : TakesOwn cfg base others entries sessionName)
    (hcollects : HeapPool.Collects cfg entries sessionName) (hname : NamesItself sessionName)
    (hself : fnmatch sessionName sessionName = true) (hlog : sessionName ≠ "log".toList)
    {segs : List Segment} (hsegs : segments (imagePattern sessionName none) = some segs) :
    Undotted others sessionName := by
  intro n hn hslash hbelow
  obtain ⟨f, hf, hmatch, hdotted⟩ := exists_dotted_log hself hslash hbelow
  let disk : FileTree (Option ℕ) := fileAt cfg.heapsDir ["x".toList, "log".toList, f] (some 0)
  have hplain : ∀ c ∈ ["x".toList, "log".toList, f], IsPlain c := by
    simp only [List.forall_mem_cons]
    exact ⟨by decide, by decide, hf, by simp⟩
  have hwf : disk.WellFormed := wellFormed_fileAt cfg.plain_heapsDir hplain (some 0)
  have hlogOf : ∀ m, IsLog cfg m (cfg.heapsDir ++ ["x".toList, "log".toList, f]) →
      n = m := by
    rintro m ⟨p, ext, hext, heq⟩
    have hnames := List.append_cancel_left heq
    simp only [List.cons.injEq, and_true, true_and] at hnames
    exact hdotted m ext hext hnames.2
  have honly : OnlyBase cfg base disk := by
    intro file hin hnone
    rcases mem_fileAt.mp hin with rfl | rfl
    · cases hnone
    · cases hnone
  have hothers : OnlyDotted (IsLog cfg) others sessionName disk := by
    intro file hin hnot m hm _
    rcases mem_fileAt.mp hin with rfl | rfl
    · exact absurd rfl hnot
    · exact hlogOf m hm ▸ hn
  obtain ⟨rfl, hentry⟩ := segments_of_namesItself hname hsegs
  have hne : cfg.heapsDir ≠ [] := by simp [HeapConfig.heapsDir]
  have hroot : (cfg.heapsDir, .dir) ∈ disk := mem_fileAt.mpr (.inl rfl)
  have himages : glob disk cfg.heapsDir (imagePattern sessionName none) = some [] := by
    cases hglob : glob disk cfg.heapsDir (imagePattern sessionName none) with
    | none =>
      rw [glob, hsegs] at hglob
      cases hglob
    | some images =>
      rw [Option.some.injEq, List.eq_nil_iff_forall_not_mem]
      intro image hin
      obtain ⟨segs, cs, hsegs', hwalk, rfl⟩ := walk_of_mem_glob hwf hglob hin
      obtain ⟨p, rfl, hp, -, -⟩ := exists_of_walk_imagePattern hname (by simp) hsegs' hwalk
      obtain ⟨-, entry, hentry, himage⟩ :=
        exists_below_of_mem_glob hwf cfg.plain_heapsDir hne hroot hglob hin
      rw [cfg.resolve_heapsDir (by simp [hp, hname.1])] at himage
      exact not_below_log hlog hentry himage
  obtain ⟨log, logs, hlogs, hall⟩ := exists_glob_fileAt cfg.plain_heapsDir hplain (some 0) hne
    (by simp) (segments_logPattern (q := ['*']) (by decide) (by decide) hname.1.2.1 hentry)
    (.cons (by decide) (.cons (by decide) (.cons hmatch .nil)))
  have hfile : disk.isFile log = true := by
    rw [hall log List.mem_cons_self]
    exact isFile_fileAt cfg.plain_heapsDir hplain (some 0) (by simp)
  have hpath : cfg.heapsDir ++ ["x".toList, "log".toList, f] = resolve log := by
    rw [hall log List.mem_cons_self, cfg.resolve_heapsDir hplain]
  have hgone := hcollects.not_mem_of_log (_, .file (some 0)) himages hlogs hfile hpath
  rcases (h disk hwf honly hothers _ (mem_fileAt.mpr (.inr rfl)) hgone).1 with himage | hlog'
  · obtain ⟨-, p, himage⟩ := himage
    exact not_below_log hlog (mem_fileAt.mpr (.inr rfl)) himage
  · have hle := hbelow.length_le
    rw [hlogOf sessionName hlog', List.length_append, List.length_singleton] at hle
    omega

/-- The parts of a text, and those where a dot and a star come behind it. -/
theorem exists_last_part (t : Text) : ∃ ps b, '/' ∉ b ∧
    (ofText t).parts = ps ++ (ofText b).parts ∧
    (ofText (t ++ ".*".toList)).parts = ps ++ [b ++ ".*".toList] ∧
    ('/' ∉ t → ps = [] ∧ b = t) := by
  by_cases hslash : '/' ∈ t
  · obtain ⟨as, bs, hsplit, hfirst⟩ := List.eq_append_cons_of_mem (List.mem_reverse.mpr hslash)
    have ht : t = bs.reverse ++ '/' :: as.reverse := by
      rw [← List.reverse_reverse t, hsplit]
      simp
    have hlast : '/' ∉ as.reverse := by rwa [List.mem_reverse]
    refine ⟨(ofText bs.reverse).parts, as.reverse, hlast, ?_, ?_, fun h => absurd hslash h⟩
    · rw [ht, parts_ofText_slash]
    · rw [ht, List.append_assoc, List.cons_append, parts_ofText_slash,
        ofText_of_isPlain (isPlain_dot_star _ hlast)]
  · refine ⟨[], t, hslash, by simp, ?_, fun _ => ⟨rfl, rfl⟩⟩
    rw [ofText_of_isPlain (isPlain_dot_star _ hslash), List.nil_append]

/-- A pattern that matches no name can still stand before the dot of one. -/
theorem exists_dot_name {b : Text} (hb : ∀ n, IsPlain n → fnmatch b n = false) {g : FileName}
    (hg : IsPlain g) (hmatch : fnmatch (b ++ ".*".toList) g = true) :
    ∃ m, (m = [] ∨ m = dot ∨ m = dotDot) ∧
      ∀ k, fnmatch (b ++ ".*".toList) (m ++ '.' :: List.replicate (k + 1) 'a') = true := by
  rw [fnmatch, tokens_dot_star, tokensMatch_append] at hmatch
  obtain ⟨m, r, rfl, hm, -⟩ := hmatch
  refine ⟨m, ?_, fun k => fnmatch_dot_star hm _⟩
  by_contra hcontra
  simp only [not_or] at hcontra
  have hslash : '/' ∉ m := fun hin => hg.2.1 (List.mem_append_left _ hin)
  have hnone := hb m ⟨hcontra.1, hslash, hcontra.2⟩
  rw [fnmatch, hm] at hnone
  cases hnone

/-- Such a name is not one of the pattern's own. -/
theorem not_own_dot_name {b m ext : Text} (hb : IsPlain b) (hm : m = [] ∨ m = dot ∨ m = dotDot)
    {k : ℕ} : m ++ '.' :: List.replicate (k + 1) 'a' ≠ b ++ '.' :: ext := by
  intro heq
  have hm' : m <+: dotDot := by rcases hm with rfl | rfl | rfl <;> decide
  rcases List.append_eq_append_iff.mp heq with ⟨cs, rfl, hcs⟩ | ⟨cs, rfl, -⟩
  · cases cs with
    | nil =>
      rw [List.append_nil] at hb
      rcases hm with rfl | rfl | rfl
      · exact hb.1 rfl
      · exact hb.2.2.1 rfl
      · exact hb.2.2.2 rfl
    | cons c cs =>
      have hdot : '.' ∈ List.replicate (k + 1) 'a' := by
        rw [List.cons_append] at hcs
        rw [(List.cons.inj hcs).2]
        simp
      exact absurd (List.eq_of_mem_replicate hdot) (by decide)
  · have hbelow : b ∈ dotDot.inits := (List.mem_inits b dotDot).mpr
      ((List.prefix_append b cs).trans hm')
    have hinits : dotDot.inits = [[], dot, dotDot] := rfl
    rw [hinits, List.mem_cons, List.mem_cons, List.mem_singleton] at hbelow
    rcases hbelow with hnil | hdot | hdots
    · exact hb.1 hnil
    · exact hb.2.2.1 hdot
    · exact hb.2.2.2 hdots

/-- The component that matches no image then is the last one, which has a dot behind it in the
pattern of the logs. -/
theorem exists_last_of_unmatchable {t : Text} (himage : Unmatchable (imagePattern t none))
    {segs : List Segment} (hsegs : segments (logPattern ['*'] t) = some segs)
    (hmatch : ¬ Unmatchable (logPattern ['*'] t)) :
    ∃ segs' b, segs = segs' ++ [.entry (b ++ ".*".toList)] ∧ IsPlain b ∧
      (∀ n, IsPlain n → fnmatch b n = false) ∧ ('/' ∉ t → b = t) := by
  obtain ⟨ps, b, hslash, hparts, hparts', hwhole⟩ := exists_last_part t
  have hstar : (ofText ['*']).parts = [['*']] := by decide
  have himages : (ofText (imagePattern t none)).parts = ['*'] :: (ps ++ (ofText b).parts) := by
    have hpattern : imagePattern t none = ['*'] ++ '/' :: t := rfl
    rw [hpattern, parts_ofText_slash, hstar, hparts, List.singleton_append]
  have hlogs : (ofText (logPattern ['*'] t)).parts =
      (['*'] :: "log".toList :: ps) ++ [b ++ ".*".toList] := by
    rw [parts_logPattern, hstar, hparts']
    rfl
  have hforall := segments_eq_some (getLast?_logPattern ['*'] t) hsegs
  rw [hlogs] at hforall
  obtain ⟨segs', seg, rfl, hseg⟩ := exists_concat_of_forall₂ hforall
  cases segment_dot_star hseg
  obtain ⟨isegs, hisegs, c, hin, hnone⟩ := himage
  obtain ⟨hc, hsegment⟩ := (entry_mem_segments hisegs).mp hin
  rw [himages, List.mem_cons, List.mem_append] at hc
  rcases hc with rfl | hc | hc
  · have hx := hnone ['x'] (by decide)
    exact absurd hx (by decide)
  · refine absurd ⟨_, hsegs, c, (entry_mem_segments hsegs).mpr ⟨?_, hsegment⟩, hnone⟩ hmatch
    rw [hlogs]
    simp [hc]
  · have hne : b ≠ [] := by
      rintro rfl
      cases hc
    rw [parts_ofText hne hslash] at hc
    split_ifs at hc with hdot
    · cases hc
    · cases List.mem_singleton.mp hc
      exact ⟨segs', b, rfl, ⟨hne, hslash, hdot, (segment_eq_entry hsegment).2⟩, hnone,
        fun h => (hwhole h).2⟩

/-- Neither is it one of a session whose name goes on behind the pattern with a dot. -/
theorem not_dotted_of_unmatchable {t : Text} (himage : Unmatchable (imagePattern t none))
    {m n : FileName} (hm : m = [] ∨ m = dot ∨ m = dotDot) {k : ℕ} {d : FilePath}
    (hlog : IsLog cfg n (d ++ [m ++ '.' :: List.replicate (k + 1) 'a'])) :
    ¬ t ++ ['.'] <+: n := by
  intro hbelow
  obtain ⟨p, ext, hext, heq⟩ := hlog
  have hsplit : cfg.heapsDir ++ [p, "log".toList, n ++ '.' :: ext] =
      cfg.heapsDir ++ [p, "log".toList] ++ [n ++ '.' :: ext] := by simp
  rw [hsplit] at heq
  have hreplicate : '.' ∉ List.replicate (k + 1) 'a' :=
    fun hin => absurd (List.eq_of_mem_replicate hin) (by decide)
  have hname := List.singleton_inj.mp (List.append_inj' heq rfl).2
  rw [← eq_of_dot_append hreplicate hext hname] at hbelow
  have hmatchable : ∀ {segs}, segments (imagePattern t none) = some segs →
      (∀ c, .entry c ∈ segs → c = ['*']) → False := by
    intro segs hsegs hstar
    obtain ⟨segs', hsegs', c, hin, hnone⟩ := himage
    cases hsegs.symm.trans hsegs'
    rw [hstar c hin] at hnone
    exact absurd (hnone ['x'] (by decide)) (by decide)
  have ht : t = [] ∨ t = dot := by
    have hle := hbelow.length_le
    rcases hm with rfl | rfl | rfl
    · simp at hle
    · left
      simpa [dot] using hle
    · have hprefix : t ∈ dot.inits := by
        refine (List.mem_inits t dot).mpr (List.prefix_of_prefix_length_le
          ((List.prefix_append t ['.']).trans hbelow) (by decide) ?_)
        simp only [List.length_append, dotDot, dot, List.length_cons, List.length_nil] at hle ⊢
        omega
      have hinits : dot.inits = [[], dot] := rfl
      rw [hinits, List.mem_cons, List.mem_singleton] at hprefix
      exact hprefix
  rcases ht with rfl | rfl
  · exact hmatchable (show segments _ = some [.entry ['*'], .here] by decide) (by simp)
  · exact hmatchable (show segments _ = some [.entry ['*']] by decide) (by simp)

theorem exists_of_walk_logs {t : Text} (hslash : '/' ∉ t) {segs : List Segment}
    (hsegs : segments (logPattern ['*'] t) = some segs) {cs : List FileName}
    (hwalk : Walk segs cs) :
    ∃ p f, cs = [p, "log".toList, f] ∧ ∀ c ∈ cs, IsPlain c := by
  have hlog := namesItself_log
  have hstar : (ofText ['*']).parts = [['*']] := by decide
  have hforall := segments_eq_some (getLast?_logPattern ['*'] t) hsegs
  rw [parts_logPattern, hstar, ofText_of_isPlain (isPlain_dot_star t hslash)] at hforall
  cases hforall with
  | cons h₁ hrest =>
    cases hrest with
    | cons h₂ hrest =>
      cases hrest with
      | cons h₃ hnil =>
        cases hnil
        have hentry : segment ['*'] = some (.entry ['*']) := by decide
        cases hentry.symm.trans h₁
        cases hlog.segment_eq h₂
        cases segment_dot_star h₃
        cases hwalk with
        | @entry _ p _ _ hp _ hwalk =>
          cases hwalk with
          | entry hl hmatch hwalk =>
            cases hwalk with
            | @entry _ f _ _ hf _ hwalk =>
              cases hwalk
              cases hlog.2 _ hl hmatch
              refine ⟨p, f, rfl, fun c hc => ?_⟩
              rw [List.mem_cons, List.mem_cons, List.mem_singleton] at hc
              rcases hc with rfl | rfl | rfl
              · exact hp
              · exact hl
              · exact hf

/-- Where only the pattern of the logs matches names, it takes a log that is not of the session. -/
theorem TakesOwn.log (h : TakesOwn cfg base others entries sessionName)
    (hcollects : HeapPool.Collects cfg entries sessionName)
    (himage : Unmatchable (imagePattern sessionName none)) :
    segments (logPattern ['*'] sessionName) = none ∨
      Unmatchable (logPattern ['*'] sessionName) := by
  cases hsegs : segments (logPattern ['*'] sessionName) with
  | none => exact .inl rfl
  | some segs =>
    refine .inr (by_contra fun hmatch => ?_)
    obtain ⟨segs', b, rfl, hb, hnone, hwhole⟩ := exists_last_of_unmatchable himage hsegs hmatch
    obtain ⟨name, hname⟩ := exists_namesEntries_of_segments hsegs hmatch
    obtain ⟨hg, hg'⟩ := hname (b ++ ".*".toList) (by simp)
    obtain ⟨m, hm, hdots⟩ := exists_dot_name hnone hg hg'
    -- a name that is longer than all there is
    let k : ℕ := (cfg.heapsDir ++ pathOf name segs').flatten.length
    let f : FileName := m ++ '.' :: List.replicate (k + 1) 'a'
    have hfresh : f ∉ cfg.heapsDir ++ pathOf name segs' := by
      intro hin
      have hle := (List.sublist_flatten_of_mem hin).length_le
      simp only [f, List.length_append, List.length_cons, List.length_replicate] at hle
      omega
    have hf : IsPlain f := by
      refine isPlain_of_mem (d := 'a') ?_ (by simp [f]) (by decide)
      rcases hm with rfl | rfl | rfl <;> simp [f, dot, dotDot]
    have hname' : NamesEntries name segs' :=
      fun c hin => hname c (List.mem_append_left _ hin)
    obtain ⟨heaps, hwf, hcontent, log, logs, d, hglob, hlog, hpath, hmem⟩ :=
      exists_filesIn_selected cfg.plain_heapsDir hsegs hname' hf (hdots k) hfresh (some 0)
    have honly : OnlyBase cfg base heaps := by
      intro file hin hcontra
      rcases hcontent file hin with heq | ⟨d', rfl⟩
      · rw [heq] at hcontra
        cases hcontra
      · cases hcontra
    have hdotted : OnlyDotted (IsLog cfg) others sessionName heaps := by
      intro file hin hnot n hlog hbelow
      rcases hcontent file hin with heq | ⟨d', rfl⟩
      · exact absurd heq hnot
      · exact absurd hbelow (not_dotted_of_unmatchable himage hm hlog)
    have himages : glob heaps cfg.heapsDir (imagePattern sessionName none) = some [] := by
      obtain ⟨isegs, hisegs, -⟩ := id himage
      rw [glob, hisegs, Option.map_some, Option.some.injEq, List.eq_nil_iff_forall_not_mem]
      intro image hin
      split_ifs at hin
      · obtain ⟨cs, hwalk, -⟩ := walk_of_mem_select hwf hin
        exact himage.not_walk hisegs hwalk
      · cases hin
    obtain ⟨hown, -⟩ := h heaps hwf honly hdotted _ hmem
      (hcollects.not_mem_of_log _ himages hglob hlog hpath.symm)
    have hslash := slash_not_mem_of_own (hwf _ hmem) hown
    cases hwhole hslash
    obtain ⟨segs'', cs, hsegs', hwalk, rfl⟩ := walk_of_mem_glob hwf hglob List.mem_cons_self
    obtain ⟨p, f', rfl, hplain⟩ := exists_of_walk_logs hslash hsegs' hwalk
    have hsplit : cfg.heapsDir ++ [p, "log".toList, f'] =
        cfg.heapsDir ++ [p, "log".toList] ++ [f'] := by simp
    rw [cfg.resolve_heapsDir hplain, hsplit] at hpath
    obtain ⟨rfl, hf'⟩ := List.append_inj' hpath rfl
    cases List.singleton_inj.mp hf'
    rw [← hsplit] at hown
    rcases hown with ⟨hne, p', rest, heq⟩ | ⟨p', ext, -, heq⟩
    · rw [List.append_assoc] at heq
      have hnames := List.append_cancel_left heq
      simp only [List.cons_append, List.cons.injEq] at hnames
      exact hne hnames.2.1
    · have hnames := List.append_cancel_left heq
      simp only [List.cons.injEq, and_true, true_and] at hnames
      exact not_own_dot_name hb hm hnames.2

end Necessary

section Deletion

variable {cfg : HeapConfig} {base others : FileName → Prop} {entries : Dict HeapKey HeapEntry}
  {key : HeapKey} {entry : HeapEntry}

theorem keepsRest_of_deletesOnlyOwn {s : HeapPool} (h : DeletesOnlyOwn cfg s key)
    (hlookup : s.entries.lookup key = some entry) :
    KeepsRest cfg s (s.delete cfg key).1 key entry := by
  rw [DeletesOnlyOwn, hlookup] at h
  exact h

theorem takesOwn_of_deletesOnlyOwn (hlookup : entries.lookup key = some entry)
    (h : ∀ s : HeapPool, s.entries = entries → OnDisk cfg base others entries key s.heaps →
      DeletesOnlyOwn cfg s key) :
    TakesOwn cfg base others (Dict.del entries key) entry.sessionName := by
  intro heaps hwf honly hdotted file hin hgone
  have hdisk : OnDisk cfg base others entries key heaps := by
    refine ⟨hwf, honly, fun entry' hlookup' => ?_⟩
    cases hlookup.symm.trans hlookup'
    exact hdotted
  have hkeeps := keepsRest_of_deletesOnlyOwn (h { entries, heaps } rfl hdisk) hlookup
  have hheaps : (HeapPool.delete cfg { entries, heaps } key).1.heaps =
      HeapPool.collect cfg (Dict.del entries key) entry.sessionName heaps := by
    rw [HeapPool.delete_eq cfg (s := { entries, heaps }) hlookup]
  rw [← hheaps] at hgone
  exact ⟨(hkeeps.collected file hin hgone).2,
    fun hnone n himage => hgone (hkeeps.baseImages file hin hnone n himage)⟩

theorem collectsOwn_of_takesOwn
    (h : TakesOwn cfg base others (Dict.del entries key) entry.sessionName) :
    CollectsOwn cfg base others entries key entry.sessionName := by
  cases hgc : cfg.gcImages with
  | false => exact .inl hgc
  | true =>
    refine .inr ?_
    by_cases hkept : ∃ e ∈ entries, e.1 ≠ key ∧ e.2.sessionName = entry.sessionName
    · exact .inl hkept
    · refine .inr ?_
      cases hanswers : cfg.answersGetenv with
      | false => exact .inl rfl
      | true =>
        refine .inr ?_
        cases hsegs : segments (imagePattern entry.sessionName none) with
        | none => exact .inl rfl
        | some segs =>
          refine .inr ?_
          have hcollects : HeapPool.Collects cfg (Dict.del entries key) entry.sessionName := by
            refine ⟨hgc, fun e he heq => hkept ⟨e, ?_, (Dict.mem_del.mp he).2, heq⟩, hanswers⟩
            exact (Dict.mem_del.mp he).1
          by_cases hmatch : Unmatchable (imagePattern entry.sessionName none)
          · exact .inl ⟨hmatch, h.log hcollects hmatch⟩
          · obtain ⟨hname, hself, hlog⟩ := h.namesItself hcollects hsegs hmatch
            exact .inr ⟨hname, hself, hlog, h.not_base hcollects hname hself hlog hsegs,
              h.undotted hcollects hname hself hlog hsegs⟩

/-- On every disk, where only these names are those of base images and of dotted sessions, a
deletion touches nothing else exactly when its entry shares no path and no name with the rest. -/
theorem deletesOnlyOwn_iff (cfg : HeapConfig) (base others : FileName → Prop)
    (entries : Dict HeapKey HeapEntry) (key : HeapKey) :
    (∀ s : HeapPool, s.entries = entries → OnDisk cfg base others entries key s.heaps →
      DeletesOnlyOwn cfg s key) ↔
      ∀ entry, entries.lookup key = some entry → Separate cfg base others entries key entry := by
  have hempty : OnDisk cfg base others entries key [] := by
    constructor
    case wellFormed =>
      intro file hin
      cases hin
    case onlyBase =>
      intro file hin
      cases hin
    case onlyDotted =>
      intro _ _ file hin
      cases hin
  constructor
  · intro h entry hlookup
    constructor
    case manifest =>
      intro e he hne heq
      let path := cfg.absolute (cfg.manifestPath key)
      have hkeeps := keepsRest_of_deletesOnlyOwn
        (h { entries, manifests := [(path, entry)] } rfl hempty) hlookup
      have hlost := hkeeps.othersManifest e he hne
      rw [heq, HeapPool.delete_eq cfg (s := { entries, manifests := [(path, entry)] }) hlookup,
        Dict.lookup_del_self, Dict.lookup_cons, if_pos rfl] at hlost
      cases hlost
    case root =>
      by_cases hroot : ofText entry.rootDir = ofText key.2
      · exact .inl hroot
      · refine .inr fun e he hne heq => ?_
        let path := cfg.absolute (ofText entry.rootDir)
        have hkeeps := keepsRest_of_deletesOnlyOwn
          (h { entries, roots := [(path, [])] } rfl hempty) hlookup
        have hlost := hkeeps.othersRoot e he hne
        rw [heq, HeapPool.delete_eq cfg (s := { entries, roots := [(path, [])] }) hlookup] at hlost
        dsimp only at hlost
        rw [if_neg hroot, Dict.lookup_del_self, Dict.lookup_cons, if_pos rfl] at hlost
        cases hlost
    case image => exact collectsOwn_of_takesOwn (takesOwn_of_deletesOnlyOwn hlookup h)
  · rintro h s rfl hdisk
    unfold DeletesOnlyOwn
    cases hlookup : s.entries.lookup key with
    | none =>
      unfold HeapPool.delete
      rw [hlookup]
    | some entry => exact (h entry hlookup).keepsRest hlookup hdisk

end Deletion

section Shared

def alphaKey : HeapKey := ("alpha".toList, "/p".toList)

def alphaSlashKey : HeapKey := ("alpha".toList, "/p/".toList)

/-- A request has named its session like a base image, and its build has failed. -/
def failedBuild : HeapPool :=
  [HeapEvent.build alphaKey (some "HOL".toList) none, .register 0, .spawn 0, .processEnds 0 false,
    .finish 0 [] 0].foldl (HeapPool.step .sample)
      { HeapPool.sample ["/p".toList] with
        heaps := [(["u".toList, "heaps".toList, "x".toList, "HOL".toList], .file none)] }

/-- Two entries of a group have one project directory, written with a slash and without. -/
def sharedRoot : HeapPool :=
  (HeapPool.builtAt 0 alphaKey "A".toList ++ HeapPool.builtAt 1 alphaSlashKey "B".toList).foldl
    (HeapPool.step .sample) (HeapPool.sample ["/p".toList])

set_option maxRecDepth 20000 in
/-- The deletion of the failed build takes the base image, and the one of the first of the two
entries the scratch ROOT of the second. -/
theorem failedBuild_sharedRoot :
    ¬ DeletesOnlyOwn .sample failedBuild alphaKey ∧
      ¬ DeletesOnlyOwn .sample sharedRoot alphaKey := by
  constructor
  · intro h
    have hheaps : (failedBuild.delete .sample alphaKey).1.heaps = [] := by decide
    cases hlookup : failedBuild.entries.lookup alphaKey with
    | none =>
      have hsome : (failedBuild.entries.lookup alphaKey).isSome = true := by decide
      rw [hlookup] at hsome
      cases hsome
    | some entry =>
      have hkept := (keepsRest_of_deletesOnlyOwn h hlookup).baseImages
        (["u".toList, "heaps".toList, "x".toList, "HOL".toList], .file none) (by decide) rfl
        "HOL".toList ⟨by decide, "x".toList, List.prefix_refl _⟩
      rw [hheaps] at hkept
      cases hkept
  · intro h
    have hbefore : (sharedRoot.entries.lookup alphaSlashKey).any fun e =>
        (sharedRoot.roots.lookup (HeapConfig.sample.absolute (ofText e.rootDir))).isSome &&
          ((sharedRoot.delete .sample alphaKey).1.roots.lookup
            (HeapConfig.sample.absolute (ofText e.rootDir))).isNone := by decide
    cases hsecond : sharedRoot.entries.lookup alphaSlashKey with
    | none =>
      rw [hsecond] at hbefore
      cases hbefore
    | some second =>
      rw [hsecond, Option.any_some, Bool.and_eq_true] at hbefore
      cases hlookup : sharedRoot.entries.lookup alphaKey with
      | none =>
        have hsome : (sharedRoot.entries.lookup alphaKey).isSome = true := by decide
        rw [hlookup] at hsome
        cases hsome
      | some entry =>
        have hkept := (keepsRest_of_deletesOnlyOwn h hlookup).othersRoot _
          (Dict.mem_of_lookup hsecond) (show alphaSlashKey ≠ alphaKey by decide)
        dsimp only at hkept
        rw [hkept, ← Option.not_isSome, hbefore.1] at hbefore
        cases hbefore.2

end Shared

end IsabelleGym
