import IsabelleGym.HeapPool

/-!
# Deleting heap images by name

`delete_heap_image` puts the session and the platform of the request into a glob
pattern, and removes what the pattern selects below the heaps directory.
-/

namespace IsabelleGym

open PosixPath FileGlob

/-- The pattern of the images; an empty platform is none. -/
def imagePattern (session : Text) (platform : Option Text) : Text :=
  (platform.filter (· ≠ [])).getD ['*'] ++ '/' :: session

def logPattern (platform : FileName) (session : Text) : Text :=
  platform ++ '/' :: ("log".toList ++ '/' :: (session ++ ".*".toList))

def parentName (image : FilePath) : FileName := (image.dropLast.getLast?).getD []

namespace HeapPool

variable (cfg : HeapConfig)

/-- The loop over the images below `base`, with the platform of the last one that was there. -/
def deleteImages (base : FilePath) (session : Text) :
    List FilePath → Option FileName → FileTree (Option ℕ) →
      FileTree (Option ℕ) × Except HeapError (Option FileName)
  | [], hit, heaps => (heaps, .ok hit)
  | image :: images, hit, heaps =>
    if heaps.isFile image || heaps.isDir image then
      let heaps := heaps.remove image
      match glob heaps base (logPattern (parentName image) session) with
      | none => (heaps, .error .badPattern)
      | some logs =>
        if logs.all heaps.isFile then
          deleteImages base session images (some (parentName image)) (removeLogs heaps logs)
        else (removeLogs heaps logs, .error .osError)
    else deleteImages base session images hit heaps

def deleteHeapImage (s : HeapPool) (session : Text) (platform : Option Text) :
    HeapPool × Except HeapError FileName :=
  match cfg.isabelleHomeUser with
  | none => (s, .error .heapNotFound)
  | some home =>
    let base := home ++ ["heaps".toList]
    match glob s.heaps base (imagePattern session platform) with
    | none => (s, .error .badPattern)
    | some images =>
      match deleteImages base session images none s.heaps with
      | (heaps, .error e) => ({ s with heaps }, .error e)
      | (heaps, .ok none) => ({ s with heaps }, .error .heapNotFound)
      | (heaps, .ok (some platform)) => ({ s with heaps }, .ok platform)

end HeapPool

/-- The directories of the platform in the request; without one they are all of them. -/
def OfPlatform (platform : Option Text) (ps : List FileName) : Prop :=
  ∀ p ∈ platform.filter (· ≠ []), ps = (ofText p).parts ∧ ps.length = 1

/-- A log of a session: its name, a dot and an extension. A name with a further dot is that of
another session. -/
def LogOf (cfg : HeapConfig) (platform : Option Text) (session : Text) (q : FilePath) : Prop :=
  ∃ ps ext, OfPlatform platform ps ∧ '.' ∉ ext ∧
    q = cfg.heapsDir ++ ps ++ ["log".toList, session ++ '.' :: ext]

/-- The image of the session on the platform with what is below it, where the directory of the
logs is none, and the logs of the session. -/
def Inside (cfg : HeapConfig) (session : Text) (platform : Option Text) (q : FilePath) : Prop :=
  (session ≠ "log".toList ∧ ∃ n, OfPlatform platform [n] ∧ cfg.heapsDir ++ [n, session] <+: q) ∨
    LogOf cfg platform session q

/-- The sessions with logs on disk whose names go on behind the given one with a dot are among
these. -/
def OnlyDotted (isLog : FileName → FilePath → Prop) (others : FileName → Prop) (session : Text)
    (heaps : FileTree (Option ℕ)) : Prop :=
  ∀ file ∈ heaps, file.2 ≠ .dir → ∀ n, isLog n file.1 → session ++ ['.'] <+: n → others n

/-- None of the other names goes on behind the given one with a dot. -/
def Undotted (others : FileName → Prop) (session : Text) : Prop :=
  ∀ n, others n → '/' ∉ n → ¬ session ++ ['.'] <+: n

/-- Whatever there is on disk, with these for other sessions, the request removes nothing but the
image and its logs. -/
def StaysInside (cfg : HeapConfig) (others : FileName → Prop) (session : Text)
    (platform : Option Text) : Prop :=
  ∀ s : HeapPool, s.heaps.WellFormed → OnlyDotted (LogOf cfg platform) others session s.heaps →
    ∀ entry ∈ s.heaps, entry ∉ (s.deleteHeapImage cfg session platform).1.heaps →
      Inside cfg session platform entry.1

section DottedNames

/-- The last dot of a name splits off its extension. -/
theorem exists_ext (session r : Text) : '.' ∉ r ∨
    ∃ n ext, '.' ∉ ext ∧ session ++ ['.'] <+: n ∧ session ++ '.' :: r = n ++ '.' :: ext := by
  by_cases hdot : '.' ∈ r
  · obtain ⟨as, bs, hsplit, hfirst⟩ := List.eq_append_cons_of_mem (List.mem_reverse.mpr hdot)
    have hr : r = bs.reverse ++ '.' :: as.reverse := by
      rw [← List.reverse_reverse r, hsplit]
      simp
    refine .inr ⟨session ++ '.' :: bs.reverse, as.reverse, by rwa [List.mem_reverse], ?_, ?_⟩
    · exact ⟨bs.reverse, by simp⟩
    · rw [hr]
      simp
  · exact .inl hdot

theorem eq_of_dot_append {n m ext ext' : Text} (h : '.' ∉ ext) (h' : '.' ∉ ext')
    (heq : n ++ '.' :: ext = m ++ '.' :: ext') : n = m := by
  have hlonger : ∀ {n m cs ext ext' : Text}, '.' ∉ ext → m = n ++ cs →
      '.' :: ext = cs ++ '.' :: ext' → n = m := by
    intro n m cs ext ext' hext hm hcs
    cases cs with
    | nil => rw [hm, List.append_nil]
    | cons c cs =>
      rw [List.cons_append] at hcs
      rw [(List.cons.inj hcs).2] at hext
      exact absurd (List.mem_append_right cs List.mem_cons_self) hext
  rcases List.append_eq_append_iff.mp heq with ⟨cs, hm, hcs⟩ | ⟨cs, hn, hcs⟩
  · exact hlonger h hm hcs
  · exact (hlonger h' hn hcs).symm

end DottedNames

namespace HeapPool

section Removed

variable {heaps : FileTree (Option ℕ)} {entry : FilePath × FileNode (Option ℕ)}

theorem mem_of_mem_removeLogs {logs : List FilePath} (h : entry ∈ removeLogs heaps logs) :
    entry ∈ heaps := by
  unfold removeLogs at h
  generalize logs.takeWhile heaps.isFile = files at h
  induction files generalizing heaps with
  | nil => exact h
  | cons file files ih => exact (FileTree.mem_unlink.mp (ih h)).1

/-- A log that is removed is a file. -/
theorem of_not_mem_removeLogs {logs : List FilePath} (hin : entry ∈ heaps)
    (h : entry ∉ removeLogs heaps logs) :
    ∃ log ∈ logs, entry.1 = resolve log ∧ ∃ content, (resolve log, .file content) ∈ heaps := by
  have hfiles : ∀ (files : List FilePath) (heaps : FileTree (Option ℕ)), entry ∈ heaps →
      entry ∉ files.foldl FileTree.unlink heaps → ∃ log ∈ files, entry.1 = resolve log := by
    intro files
    induction files with
    | nil => exact fun _ hin h => absurd hin h
    | cons file files ih =>
      intro heaps hin h
      by_cases hfile : entry.1 = resolve file
      · exact ⟨file, List.mem_cons_self, hfile⟩
      · obtain ⟨log, hlog, heq⟩ := ih _ (FileTree.mem_unlink.mpr ⟨hin, hfile⟩) h
        exact ⟨log, List.mem_cons_of_mem _ hlog, heq⟩
  obtain ⟨log, hlog, heq⟩ := hfiles _ heaps hin h
  exact ⟨log, List.takeWhile_subset _ hlog, heq,
    FileTree.exists_of_isFile (List.mem_takeWhile_imp hlog)⟩

/-- Logs that are all files are all removed. -/
theorem not_mem_removeLogs {logs : List FilePath} (hfiles : ∀ log ∈ logs, heaps.isFile log = true)
    {log : FilePath} (hlog : log ∈ logs) (heq : entry.1 = resolve log) :
    entry ∉ removeLogs heaps logs := by
  have hkept : ∀ (files : List FilePath) (heaps : FileTree (Option ℕ)), log ∈ files →
      entry ∉ files.foldl FileTree.unlink heaps := by
    intro files
    induction files with
    | nil => exact fun _ hin => absurd hin (by simp)
    | cons file files ih =>
      intro heaps hin
      rcases List.mem_cons.mp hin with rfl | hin
      · intro hcontra
        have hback : ∀ (files : List FilePath) (heaps : FileTree (Option ℕ)),
            entry ∈ files.foldl FileTree.unlink heaps → entry ∈ heaps := by
          intro files
          induction files with
          | nil => exact fun _ h => h
          | cons q files ih => exact fun heaps h => (FileTree.mem_unlink.mp (ih _ h)).1
        exact (FileTree.mem_unlink.mp (hback _ _ hcontra)).2 heq
      · exact ih _ hin
  rw [removeLogs, List.takeWhile_eq_self_iff.mpr hfiles]
  exact hkept logs heaps hlog

variable {base : FilePath} {session : Text}

theorem mem_of_mem_deleteImages {images : List FilePath} {hit : Option FileName}
    (h : entry ∈ (deleteImages base session images hit heaps).1) : entry ∈ heaps := by
  induction images generalizing hit heaps with
  | nil => exact h
  | cons image images ih =>
    unfold deleteImages at h
    split_ifs at h with hthere
    · dsimp only at h
      split at h
      · exact FileTree.mem_of_mem_remove h
      · split_ifs at h
        · exact FileTree.mem_of_mem_remove (mem_of_mem_removeLogs (ih h))
        · exact FileTree.mem_of_mem_remove (mem_of_mem_removeLogs h)
    · exact ih h

/-- What goes is an image with what is below it, or a log that is selected for an image. -/
theorem of_not_mem_deleteImages {images : List FilePath} {hit : Option FileName}
    (hwf : heaps.WellFormed) (hin : entry ∈ heaps)
    (h : entry ∉ (deleteImages base session images hit heaps).1) :
    ∃ image ∈ images, resolve image <+: entry.1 ∨
      (∃ content, (entry.1, .file content) ∈ heaps) ∧
        ∃ heaps' : FileTree (Option ℕ), heaps'.WellFormed ∧
          ∃ logs, glob heaps' base (logPattern (parentName image) session) = some logs ∧
            ∃ log ∈ logs, entry.1 = resolve log := by
  induction images generalizing hit heaps with
  | nil => exact absurd hin h
  | cons image images ih =>
    unfold deleteImages at h
    split_ifs at h with hthere
    · by_cases himage : entry ∈ heaps.remove image
      · have hwf' : (heaps.remove image).WellFormed :=
          fun e he => hwf e (FileTree.mem_of_mem_remove he)
        have hlog : ∀ logs, glob (heaps.remove image) base (logPattern (parentName image) session) =
            some logs → entry ∉ removeLogs (heaps.remove image) logs →
            ∃ image' ∈ image :: images, resolve image' <+: entry.1 ∨
              (∃ content, (entry.1, .file content) ∈ heaps) ∧
                ∃ heaps' : FileTree (Option ℕ), heaps'.WellFormed ∧
                  ∃ logs, glob heaps' base (logPattern (parentName image') session) = some logs ∧
                    ∃ log ∈ logs, entry.1 = resolve log := by
          intro logs hlogs hgone
          obtain ⟨log, hlog, heq, content, hfile⟩ := of_not_mem_removeLogs himage hgone
          exact ⟨image, List.mem_cons_self, .inr ⟨⟨content,
            FileTree.mem_of_mem_remove (heq ▸ hfile)⟩, _, hwf', logs, hlogs, log, hlog, heq⟩⟩
        dsimp only at h
        split at h
        · exact absurd himage h
        case h_2 logs hlogs =>
          by_cases hgone : entry ∈ removeLogs (heaps.remove image) logs
          · split_ifs at h
            · obtain ⟨image', hmem, hcase⟩ :=
                ih (fun e he => hwf' e (mem_of_mem_removeLogs he)) hgone h
              refine ⟨image', List.mem_cons_of_mem _ hmem, hcase.imp_right ?_⟩
              rintro ⟨⟨content, hfile⟩, hrest⟩
              exact ⟨⟨content, FileTree.mem_of_mem_remove (mem_of_mem_removeLogs hfile)⟩, hrest⟩
            · exact absurd hgone h
          · exact hlog logs hlogs hgone
      · exact ⟨image, List.mem_cons_self, .inl (FileTree.below_of_not_mem_remove hin himage)⟩
    · obtain ⟨image', hmem, hcase⟩ := ih hwf hin h
      exact ⟨image', List.mem_cons_of_mem _ hmem, hcase⟩

/-- The first image goes, with whatever the rest of the loop does. -/
theorem not_mem_deleteImages {image : FilePath} {images : List FilePath} {hit : Option FileName}
    (hthere : (heaps.isDir image || heaps.isFile image) = true) (h : entry ∉ heaps.remove image) :
    entry ∉ (deleteImages base session (image :: images) hit heaps).1 := by
  intro hcontra
  rw [Bool.or_comm] at hthere
  rw [deleteImages, if_pos hthere] at hcontra
  dsimp only at hcontra
  split at hcontra
  · exact h hcontra
  · split_ifs at hcontra
    · exact h (mem_of_mem_removeLogs (mem_of_mem_deleteImages hcontra))
    · exact h (mem_of_mem_removeLogs hcontra)

end Removed

/-- The request fails before it removes anything, or goes on to the images of its pattern. -/
theorem deleteHeapImage_heaps (cfg : HeapConfig) (s : HeapPool) (session : Text)
    (platform : Option Text) :
    (s.deleteHeapImage cfg session platform).1.heaps =
      if cfg.answersGetenv then
        (glob s.heaps cfg.heapsDir (imagePattern session platform)).elim s.heaps fun images =>
          (deleteImages cfg.heapsDir session images none s.heaps).1
      else s.heaps := by
  unfold deleteHeapImage HeapConfig.isabelleHomeUser
  split_ifs
  · dsimp only
    rw [HeapConfig.heapsDir]
    cases glob s.heaps (cfg.homeUser ++ ["heaps".toList]) (imagePattern session platform) with
    | none => rfl
    | some images =>
      dsimp only [Option.elim]
      split <;> simp_all
  · rfl

end HeapPool

section Patterns

variable {session : Text} {platform : Option Text}

theorem parts_ofText {c : Text} (hne : c ≠ []) (hslash : '/' ∉ c) :
    (ofText c).parts = if c = dot then [] else [c] := by
  rw [ofText, List.splitOn_eq_singleton hslash]
  split_ifs with hdot
  · simp [hdot]
  · simp [hne, hdot]

theorem forall₂_imagePattern (hne : session ≠ []) (hslash : '/' ∉ session) {segs : List Segment}
    (h : segments (imagePattern session platform) = some segs) :
    List.Forall₂ (fun c seg => segment c = some seg)
      ((ofText ((platform.filter (· ≠ [])).getD ['*'])).parts ++ (ofText session).parts) segs := by
  have hlast : (imagePattern session platform).getLast? ≠ some '/' := by
    rw [imagePattern, List.getLast?_append, List.getLast?_cons_of_ne_nil hne]
    obtain ⟨c, hc⟩ := List.getLast?_isSome.mpr hne |> Option.isSome_iff_exists.mp
    rw [hc]
    rintro heq
    cases heq
    exact hslash (List.mem_of_getLast? hc)
  have hforall := segments_eq_some hlast h
  rw [imagePattern, parts_ofText_slash] at hforall
  exact hforall

theorem exists_names
    (hplatform : ∀ p ∈ platform.filter (· ≠ []), ∃ c, (ofText p).parts = [c] ∧ NamesItself c) :
    ∃ c, (ofText ((platform.filter (· ≠ [])).getD ['*'])).parts = [c] ∧
      (∀ seg, segment c = some seg → seg = .entry c) ∧
      ∀ n, IsPlain n → fnmatch c n = true → OfPlatform platform [n] := by
  cases hp : platform.filter (· ≠ []) with
  | none =>
    refine ⟨['*'], by decide, fun seg hseg => ?_, fun n _ _ => ?_⟩
    · rw [show segment ['*'] = some (.entry ['*']) by decide] at hseg
      exact (Option.some.inj hseg).symm
    · rw [OfPlatform, hp]
      simp
  | some p =>
    obtain ⟨c, hparts, hc⟩ := hplatform p hp
    refine ⟨c, hparts, fun seg hseg => hc.segment_eq hseg, fun n hn hmatch => ?_⟩
    intro p' hp'
    rw [hp] at hp'
    cases hp'
    rw [hparts, hc.2 n hn hmatch]
    exact ⟨rfl, rfl⟩

/-- What the pattern selects is the session on a platform. -/
theorem exists_of_walk_imagePattern (hsession : NamesItself session)
    (hplatform : ∀ p ∈ platform.filter (· ≠ []), ∃ c, (ofText p).parts = [c] ∧ NamesItself c)
    {segs : List Segment} (hsegs : segments (imagePattern session platform) = some segs)
    {cs : List FileName} (hwalk : Walk segs cs) :
    ∃ n, cs = [n, session] ∧ IsPlain n ∧ OfPlatform platform [n] ∧
      fnmatch session session = true := by
  obtain ⟨c, hparts, hsegment, hnames⟩ := exists_names hplatform
  have hforall := forall₂_imagePattern hsession.1.1 hsession.1.2.1 hsegs
  rw [hparts, ofText_of_isPlain hsession.1] at hforall
  cases hforall with
  | cons hc hrest =>
    cases hrest with
    | cons hs hnil =>
      cases hnil
      cases hsegment _ hc
      cases hsession.segment_eq hs
      cases hwalk with
      | entry hn hmatch hwalk =>
        cases hwalk with
        | entry hm hmatch' hwalk =>
          cases hwalk
          have hself := hsession.2 _ hm hmatch'
          subst hself
          exact ⟨_, rfl, hn, hnames _ hn hmatch, hmatch'⟩

theorem isPlain_dot_star (session : Text) (hslash : '/' ∉ session) :
    IsPlain (session ++ ".*".toList) := by
  refine isPlain_of_mem (d := '*') ?_ (by simp) (by decide)
  rw [List.mem_append]
  exact fun hin => hin.elim hslash (by decide)

theorem parts_logPattern (n : FileName) (t : Text) : (ofText (logPattern n t)).parts =
    (ofText n).parts ++ ("log".toList :: (ofText (t ++ ".*".toList)).parts) := by
  have hlog : (ofText "log".toList).parts = ["log".toList] := by decide
  rw [logPattern, parts_ofText_slash, parts_ofText_slash, hlog, List.singleton_append]

theorem getLast?_logPattern (n : FileName) (t : Text) :
    (logPattern n t).getLast? ≠ some '/' := by
  have hsplit : logPattern n t =
      n ++ '/' :: ("log".toList ++ '/' :: (t ++ ['.'])) ++ ['*'] := by simp [logPattern]
  rw [hsplit, List.getLast?_concat]
  decide

theorem namesItself_log : NamesItself "log".toList := namesItself_of_forall (by decide) (by simp)

/-- The logs that are selected for an image on the platform are those of the session. -/
theorem exists_of_walk_logPattern (hsession : NamesItself session)
    (hself : fnmatch session session = true)
    (hplatform : ∀ p ∈ platform.filter (· ≠ []), ∃ c, (ofText p).parts = [c] ∧ NamesItself c)
    {n : FileName} (hn : IsPlain n) (hof : OfPlatform platform [n])
    {segs : List Segment} (hsegs : segments (logPattern n session) = some segs)
    {cs : List FileName} (hwalk : Walk segs cs) :
    ∃ ps ext, cs = ps ++ ["log".toList, session ++ '.' :: ext] ∧ (∀ c ∈ cs, IsPlain c) ∧
      OfPlatform platform ps ∧ (n = doubleStar ∨ ps.length = 1) := by
  have hlog := namesItself_log
  have hforall := segments_eq_some (getLast?_logPattern n session) hsegs
  rw [parts_logPattern, ofText_of_isPlain hn,
    ofText_of_isPlain (isPlain_dot_star session hsession.1.2.1)] at hforall
  -- behind the platform come the log directory and a log
  have htail : ∀ {segs : List Segment} {cs : List FileName},
      List.Forall₂ (fun c seg => segment c = some seg)
        ["log".toList, session ++ ".*".toList] segs → Walk segs cs →
      ∃ ext, cs = ["log".toList, session ++ '.' :: ext] ∧ ∀ c ∈ cs, IsPlain c := by
    intro segs cs hforall hwalk
    cases hforall with
    | cons hfirst hrest =>
      cases hrest with
      | cons hsecond hnil =>
        cases hnil
        cases hlog.segment_eq hfirst
        cases segment_dot_star hsecond
        cases hwalk with
        | entry hl hmatch hwalk =>
          cases hwalk with
          | entry hf hmatch' hwalk =>
            cases hwalk
            cases hlog.2 _ hl hmatch
            obtain ⟨ext, rfl⟩ := hsession.eq_of_fnmatch_dot hself hf.2.1 hmatch'
            refine ⟨ext, rfl, fun c hc => ?_⟩
            rcases List.mem_cons.mp hc with rfl | hc
            · exact hl
            · rw [List.mem_singleton.mp hc]
              exact hf
  cases hforall with
  | cons hfirst hrest =>
    rcases segment_eq_some hfirst with ⟨heq, -⟩ | ⟨rfl, rfl⟩ | ⟨-, -, rfl⟩
    · exact absurd heq hn.2.2.2
    · -- a directory of that name, which stands for any number of directories in the pattern
      obtain ⟨ns, cs', hns, hwalk', rfl⟩ := hwalk.of_descend
      obtain ⟨ext, rfl, hplain⟩ := htail hrest hwalk'
      refine ⟨ns, ext, rfl, fun c hc => (List.mem_append.mp hc).elim (hns c) (hplain c), ?_,
        .inl rfl⟩
      intro p hp
      obtain ⟨c, hparts, hc⟩ := hplatform p hp
      have heq : [doubleStar] = [c] := (hof p hp).1.trans hparts
      cases heq
      exact absurd (hc.2 ['a'] (by decide) (by decide)) (by decide)
    · cases hwalk with
      | @entry _ m _ _ hm hmatch hwalk' =>
        obtain ⟨ext, rfl, hplain⟩ := htail hrest hwalk'
        refine ⟨[m], ext, rfl, fun c hc => ?_, fun p hp => ?_, .inr rfl⟩
        · rcases List.mem_cons.mp hc with rfl | hc
          · exact hm
          · exact hplain c hc
        · obtain ⟨c, hparts, hc⟩ := hplatform p hp
          have heq : [n] = [c] := (hof p hp).1.trans hparts
          cases heq
          rw [hc.2 m hm hmatch]
          exact hof p hp

/-- The pattern of the logs has three components. -/
theorem segments_logPattern {q : FileName} (hq : IsPlain q) (hentry : segment q = some (.entry q))
    (hslash : '/' ∉ session) (hsession : segment session = some (.entry session)) :
    segments (logPattern q session) =
      some [.entry q, .entry "log".toList, .entry (session ++ ".*".toList)] := by
  have hlog : segment "log".toList = some (.entry "log".toList) := by decide
  have hanchor : (ofText (logPattern q session)).anchor = [] := by
    cases q with
    | nil => exact absurd rfl hq.1
    | cons c q =>
      exact anchorOf_cons_of_ne fun heq => hq.2.1 (heq ▸ List.mem_cons_self)
  have hparts := parts_logPattern q session
  rw [ofText_of_isPlain hq, ofText_of_isPlain (isPlain_dot_star session hslash)] at hparts
  unfold segments
  dsimp only
  rw [hanchor, hparts, if_neg (by simp)]
  simp only [if_neg (getLast?_logPattern q session), List.cons_append, List.nil_append,
    List.mapM_cons, List.mapM_nil, hentry, hlog, segment_append_dot_star hsession]
  rfl

end Patterns

section Boundary

variable {cfg : HeapConfig} {session : Text} {platform : Option Text}

theorem HeapConfig.plain_heapsDir (cfg : HeapConfig) : ∀ c ∈ cfg.heapsDir, IsPlain c := by
  intro c hc
  rcases List.mem_append.mp hc with hc | hc
  · exact cfg.plainHome c hc
  · rw [List.mem_singleton.mp hc]
    decide

theorem HeapConfig.resolve_heapsDir (cfg : HeapConfig) {cs : List FileName}
    (hcs : ∀ c ∈ cs, IsPlain c) : resolve (cfg.heapsDir ++ cs) = cfg.heapsDir ++ cs := by
  apply resolve_of_forall
  intro c hc
  rcases List.mem_append.mp hc with hc | hc
  · exact (cfg.plain_heapsDir c hc).2.2.2
  · exact (hcs c hc).2.2.2

/-- What is removed was selected by the pattern of the images, or for one of them. -/
theorem exists_image_of_removed {s : HeapPool} (hwf : s.heaps.WellFormed)
    {entry : FilePath × FileNode (Option ℕ)} (hin : entry ∈ s.heaps)
    (h : entry ∉ (s.deleteHeapImage cfg session platform).1.heaps) :
    cfg.answersGetenv = true ∧ ∃ segs cs, segments (imagePattern session platform) = some segs ∧
      Walk segs cs ∧ (resolve (cfg.heapsDir ++ cs) <+: entry.1 ∨
        (∃ content, (entry.1, .file content) ∈ s.heaps) ∧
          ∃ segs' cs', segments (logPattern (parentName (cfg.heapsDir ++ cs)) session) =
            some segs' ∧ Walk segs' cs' ∧ entry.1 = resolve (cfg.heapsDir ++ cs')) := by
  rw [HeapPool.deleteHeapImage_heaps] at h
  split_ifs at h with hanswers
  · refine ⟨hanswers, ?_⟩
    cases hglob : glob s.heaps cfg.heapsDir (imagePattern session platform) with
    | none =>
      rw [hglob] at h
      exact absurd hin h
    | some images =>
      rw [hglob] at h
      obtain ⟨image, himage, hcase⟩ := HeapPool.of_not_mem_deleteImages hwf hin h
      obtain ⟨segs, cs, hsegs, hwalk, rfl⟩ := walk_of_mem_glob hwf hglob himage
      refine ⟨segs, cs, hsegs, hwalk, hcase.imp_right ?_⟩
      rintro ⟨hfile, heaps', hwf', logs, hlogs, log, hlog, heq⟩
      obtain ⟨segs', cs', hsegs', hwalk', rfl⟩ := walk_of_mem_glob hwf' hlogs hlog
      exact ⟨hfile, segs', cs', hsegs', hwalk', heq⟩
  · exact absurd hin h

/-- A log that the pattern of the session selects is the session's, or one of a session whose name
goes on with a dot. -/
theorem OnlyDotted.of_selected {isLog : FileName → FilePath → Prop} {others : FileName → Prop}
    {heaps : FileTree (Option ℕ)} (h : OnlyDotted isLog others session heaps)
    (hundotted : Undotted others session) {q : FilePath} {content : Option ℕ}
    (hfile : (q, .file content) ∈ heaps) {ext : Text} (hslash : '/' ∉ session ++ '.' :: ext)
    (hlog : ∀ n ext', '.' ∉ ext' → session ++ '.' :: ext = n ++ '.' :: ext' → isLog n q) :
    '.' ∉ ext := by
  refine (exists_ext session ext).resolve_right ?_
  rintro ⟨n, ext', hext', hbelow, heq⟩
  refine hundotted n (h _ hfile (by simp) n (hlog n ext' hext' heq) hbelow) ?_ hbelow
  rw [heq] at hslash
  exact fun hin => hslash (List.mem_append_left _ hin)

theorem staysInside_of_namesItself {others : FileName → Prop} (hsession : NamesItself session)
    (hlog : session ≠ "log".toList)
    (hplatform : ∀ p ∈ platform.filter (· ≠ []), ∃ c, (ofText p).parts = [c] ∧ NamesItself c)
    (hundotted : Undotted others session) : StaysInside cfg others session platform := by
  intro s hwf hothers entry hin hgone
  obtain ⟨-, segs, cs, hsegs, hwalk, hcase⟩ := exists_image_of_removed hwf hin hgone
  obtain ⟨n, rfl, hn, hof, hself⟩ := exists_of_walk_imagePattern hsession hplatform hsegs hwalk
  rcases hcase with himage | ⟨⟨content, hfile⟩, segs', cs', hsegs', hwalk', hpath⟩
  · have hplain : ∀ c ∈ [n, session], IsPlain c := by
      intro c hc
      rcases List.mem_cons.mp hc with rfl | hc
      · exact hn
      · rw [List.mem_singleton.mp hc]
        exact hsession.1
    rw [cfg.resolve_heapsDir hplain] at himage
    exact .inl ⟨hlog, n, hof, himage⟩
  · have hparent : parentName (cfg.heapsDir ++ [n, session]) = n := by simp [parentName]
    rw [hparent] at hsegs'
    obtain ⟨ps, ext, rfl, hplain, hps, -⟩ :=
      exists_of_walk_logPattern hsession hself hplatform hn hof hsegs' hwalk'
    rw [cfg.resolve_heapsDir hplain, ← List.append_assoc] at hpath
    have hslash : '/' ∉ session ++ '.' :: ext := (hplain _ (by simp)).2.1
    have hext := hothers.of_selected hundotted hfile hslash fun m ext' hext' heq =>
      ⟨ps, ext', hps, hext', by rw [hpath, heq]⟩
    exact .inr ⟨ps, ext, hps, hext, hpath⟩

/-- Where the pattern can match names, there are directories of which it removes one. -/
theorem exists_inside {others : FileName → Prop} (h : StaysInside cfg others session platform)
    (hanswers : cfg.answersGetenv = true)
    {segs : List Segment} (hsegs : segments (imagePattern session platform) = some segs)
    {name : Text → FileName} (hname : NamesEntries name segs) :
    ∃ ds, ds <+: pathOf name segs ∧ Inside cfg session platform (resolve (cfg.heapsDir ++ ds)) := by
  obtain ⟨image, images, hglob, hthere, ds, hds, hgone⟩ :=
    exists_chain_removed cfg.plain_heapsDir (by simp [HeapConfig.heapsDir]) hsegs hname
  refine ⟨ds, hds, h { heaps := chain cfg.heapsDir (pathOf name segs) }
    (wellFormed_chain cfg.plain_heapsDir hname) ?_ _ (mem_chain.mpr ⟨ds, hds, rfl⟩) ?_⟩
  · intro file hin hnot
    obtain ⟨ds', -, rfl⟩ := mem_chain.mp hin
    exact absurd rfl hnot
  · rw [HeapPool.deleteHeapImage_heaps, if_pos hanswers, hglob]
    exact HeapPool.not_mem_deleteImages hthere hgone

theorem Inside.below_heapsDir {q : FilePath} (h : Inside cfg session platform q) :
    cfg.heapsDir <+: q := by
  rcases h with ⟨-, n, -, hbelow⟩ | ⟨ps, ext, -, -, rfl⟩
  · exact (List.prefix_append _ _).trans hbelow
  · rw [List.append_assoc]
    exact List.prefix_append _ _

/-- An image inside is that of the session, where its directory is not one of logs. -/
theorem of_inside_image {n session' : FileName}
    (h : Inside cfg session platform (cfg.heapsDir ++ [n, session'])) :
    (OfPlatform platform [n] ∧ session' = session ∧ session ≠ "log".toList) ∨
      platform.filter (· ≠ []) = none ∧ n = "log".toList := by
  rcases h with ⟨hlog, m, hof, hbelow⟩ | ⟨ps, ext, hof, -, heq⟩
  · have hnames := List.append_cancel_left (hbelow.eq_of_length (by simp))
    simp only [List.cons.injEq, and_true] at hnames
    obtain ⟨rfl, hself⟩ := hnames
    exact .inl ⟨hof, hself.symm, hlog⟩
  · rw [List.append_assoc] at heq
    have hnames := List.append_cancel_left heq
    cases ps with
    | nil =>
      simp only [List.nil_append, List.cons.injEq] at hnames
      refine .inr ⟨?_, hnames.1⟩
      cases hp : platform.filter (· ≠ []) with
      | none => rfl
      | some p => cases (hof p hp).2
    | cons c ps =>
      have hlength := congrArg List.length hnames
      simp only [List.length_cons, List.length_append, List.length_nil] at hlength
      omega

/-- Only a pattern of a platform and the session can reach an image, with names that match. -/
theorem eq_of_inside (hne : session ≠ []) (hslash : '/' ∉ session) {segs : List Segment}
    (hsegs : segments (imagePattern session platform) = some segs) {name : Text → FileName}
    {ds : FilePath} (hds : ds <+: pathOf name segs)
    (hinside : Inside cfg session platform (resolve (cfg.heapsDir ++ ds))) :
    ∃ c, segs = [.entry c, .entry session] ∧ session ≠ dot ∧ session ≠ dotDot ∧
      (ofText ((platform.filter (· ≠ [])).getD ['*'])).parts = [c] ∧
      ((OfPlatform platform [name c] ∧ name session = session ∧ session ≠ "log".toList) ∨
        platform.filter (· ≠ []) = none ∧ name c = "log".toList) := by
  have hforall := forall₂_imagePattern hne hslash hsegs
  have hlength : (∀ p ∈ platform.filter (· ≠ []), (ofText p).parts.length = 1) ∧
      cfg.heapsDir.length + 2 ≤ (resolve (cfg.heapsDir ++ ds)).length := by
    rcases hinside with ⟨-, n, hof, hbelow⟩ | ⟨ps, ext, hof, -, heq⟩
    · refine ⟨fun p hp => by rw [← (hof p hp).1]; rfl, ?_⟩
      have hle := hbelow.length_le
      rw [List.length_append] at hle
      exact hle
    · refine ⟨fun p hp => (hof p hp).1 ▸ (hof p hp).2, ?_⟩
      rw [heq, List.length_append, List.length_append, List.length_cons, List.length_singleton]
      omega
  obtain ⟨hplatform, hlong⟩ := hlength
  have hfirst : (ofText ((platform.filter (· ≠ [])).getD ['*'])).parts.length = 1 := by
    cases hp : platform.filter (· ≠ []) with
    | none => decide
    | some p => exact hplatform p hp
  obtain ⟨c, hc⟩ := List.length_eq_one_iff.mp hfirst
  rw [hc, parts_ofText hne hslash] at hforall
  have hresolve := length_resolve_le (cfg.heapsDir ++ ds)
  rw [List.length_append] at hresolve
  have hshort := hds.length_le
  have hpath := length_pathOf_le name segs
  have hparts := hforall.length_eq
  split_ifs at hforall hparts with hdot
  · simp only [List.append_nil, List.length_singleton] at hparts
    omega
  · simp only [List.length_append, List.length_singleton] at hparts
    have hlast : ds = pathOf name segs := hds.eq_of_length (by omega)
    have hresolved : resolve (cfg.heapsDir ++ ds) = cfg.heapsDir ++ ds := by
      apply resolve_eq_of_length_le
      rw [List.length_append]
      omega
    have hdots : dotDot ∉ ds := by
      intro hin
      have hmem : dotDot ∈ resolve (cfg.heapsDir ++ ds) := by
        rw [hresolved]
        exact List.mem_append_right _ hin
      exact (mem_of_mem_resolve hmem).2 rfl
    rw [hlast] at hdots
    obtain ⟨patterns, rfl⟩ := eq_map_entry hdots (by omega)
    rw [List.forall₂_map_right_iff] at hforall
    cases hforall with
    | cons hfirst hrest =>
      cases hrest with
      | cons hsecond hnil =>
        cases hnil
        obtain ⟨rfl, -⟩ := segment_eq_entry hfirst
        obtain ⟨rfl, hdotDot⟩ := segment_eq_entry hsecond
        refine ⟨_, rfl, hdot, hdotDot, hc, ?_⟩
        rw [hresolved, hlast] at hinside
        exact of_inside_image hinside

/-- Where every choice of names has a directory inside, the strings are names that match only
themselves. -/
theorem namesItself_of_inside (hne : session ≠ []) (hslash : '/' ∉ session) {segs : List Segment}
    (hsegs : segments (imagePattern session platform) = some segs)
    (hmatch : ¬ Unmatchable (imagePattern session platform))
    (h : ∀ name, NamesEntries name segs → ∃ ds, ds <+: pathOf name segs ∧
      Inside cfg session platform (resolve (cfg.heapsDir ++ ds))) :
    NamesItself session ∧ fnmatch session session = true ∧ session ≠ "log".toList ∧
      ∀ p ∈ platform.filter (· ≠ []), ∃ c, (ofText p).parts = [c] ∧ NamesItself c := by
  obtain ⟨name, hname⟩ := exists_namesEntries_of_segments hsegs hmatch
  obtain ⟨ds, hds, hinside⟩ := h name hname
  obtain ⟨c, rfl, hdot, hdotDot, hc, -⟩ := eq_of_inside hne hslash hsegs hds hinside
  -- every other choice of names comes to the same end
  have hnames : ∀ name : Text → FileName, NamesEntries name [.entry c, .entry session] →
      (OfPlatform platform [name c] ∧ name session = session ∧ session ≠ "log".toList) ∨
        platform.filter (· ≠ []) = none ∧ name c = "log".toList := by
    intro name hname
    obtain ⟨ds, hds, hinside⟩ := h name hname
    obtain ⟨c', heq, -, -, -, hcase⟩ := eq_of_inside hne hslash hsegs hds hinside
    cases heq
    exact hcase
  have hsession : ∀ n, IsPlain n → fnmatch session n = true → n = session := by
    intro n hn hself
    cases hp : platform.filter (· ≠ []) with
    | none =>
      have hstar : c = ['*'] := by
        rw [hp] at hc
        exact (List.singleton_inj.mp hc).symm
      subst hstar
      have hx : NamesEntries (Function.update name ['*'] ['x'])
          [.entry ['*'], .entry session] := hname.update _ (by decide) (by decide)
      by_cases hstar : session = ['*']
      · rcases hnames _ hx with ⟨-, hcontra, -⟩ | ⟨-, hcontra⟩
        · rw [hstar, Function.update_self] at hcontra
          cases hcontra
        · rw [Function.update_self] at hcontra
          cases hcontra
      · rcases hnames _ (hx.update _ hn hself) with ⟨-, heq, -⟩ | ⟨-, hcontra⟩
        · rwa [Function.update_self] at heq
        · rw [Function.update_of_ne (Ne.symm hstar), Function.update_self] at hcontra
          cases hcontra
    | some p =>
      rcases hnames _ (hname.update _ hn hself) with ⟨-, heq, -⟩ | ⟨hcontra, -⟩
      · rwa [Function.update_self] at heq
      · rw [hp] at hcontra
        cases hcontra
  have hself : fnmatch session session = true := by
    have hmem := hname session (List.mem_cons_of_mem _ List.mem_cons_self)
    rw [hsession _ hmem.1 hmem.2] at hmem
    exact hmem.2
  have hlog : session ≠ "log".toList := by
    cases hp : platform.filter (· ≠ []) with
    | none =>
      have hstar : c = ['*'] := by
        rw [hp] at hc
        exact (List.singleton_inj.mp hc).symm
      subst hstar
      rcases hnames _ (hname.update ['*'] (n := ['x']) (by decide) (by decide)) with
        ⟨-, -, hlog⟩ | ⟨-, hcontra⟩
      · exact hlog
      · rw [Function.update_self] at hcontra
        cases hcontra
    | some p =>
      rcases hnames _ hname with ⟨-, -, hlog⟩ | ⟨hcontra, -⟩
      · exact hlog
      · rw [hp] at hcontra
        cases hcontra
  refine ⟨⟨⟨hne, hslash, hdot, hdotDot⟩, hsession⟩, hself, hlog, fun p hp => ?_⟩
  rw [hp, Option.getD_some] at hc
  have hc' : ∀ n, IsPlain n → fnmatch c n = true → n = c := by
    intro n hn hmatch
    rcases hnames _ (hname.update _ hn hmatch) with ⟨hof, -⟩ | ⟨hcontra, -⟩
    · have heq := (hof p hp).1
      rw [Function.update_self, hc] at heq
      exact List.singleton_inj.mp heq
    · rw [hp] at hcontra
      cases hcontra
  have hmem := hname c List.mem_cons_self
  refine ⟨c, hc, ?_, hc'⟩
  rw [← hc' _ hmem.1 hmem.2]
  exact hmem.1

theorem exists_platform
    (hplatform : ∀ p ∈ platform.filter (· ≠ []), ∃ c, (ofText p).parts = [c] ∧ NamesItself c)
    (hne : session ≠ []) (hslash : '/' ∉ session) (hdot : session ≠ dot)
    {segs : List Segment} (hsegs : segments (imagePattern session platform) = some segs)
    {name : Text → FileName} (hname : NamesEntries name segs) :
    ∃ q seg p, segs = [.entry q, seg] ∧ segment session = some seg ∧ IsPlain p ∧
      segment p = some (.entry p) ∧ fnmatch q p = true ∧ fnmatch p p = true ∧
      OfPlatform platform [p] := by
  obtain ⟨c, hparts, hsegment, hnames⟩ := exists_names hplatform
  have hforall := forall₂_imagePattern hne hslash hsegs
  rw [hparts, parts_ofText hne hslash, if_neg hdot] at hforall
  cases hforall with
  | cons hfirst hrest =>
    cases hrest with
    | cons hsecond hnil =>
      cases hnil
      cases hsegment _ hfirst
      have hc := hname c List.mem_cons_self
      cases hp : platform.filter (· ≠ []) with
      | none =>
        have hstar : c = ['*'] := by
          rw [hp] at hparts
          exact (List.singleton_inj.mp hparts).symm
        subst hstar
        exact ⟨_, _, ['x'], rfl, hsecond, by decide, by decide, by decide, by decide,
          hnames ['x'] (by decide) (by decide)⟩
      | some p =>
        obtain ⟨c', hparts', hc'⟩ := hplatform p hp
        rw [hp, Option.getD_some, hparts'] at hparts
        cases hparts
        rw [hc'.2 _ hc.1 hc.2] at hc
        exact ⟨_, _, _, rfl, hsecond, hc'.1, hfirst, hc.2, hc.2, hnames _ hc.1 hc.2⟩

theorem LogOf.name (ps : FilePath) {m f : FileName} (h : LogOf cfg platform m (ps ++ [f])) :
    ∃ ext, '.' ∉ ext ∧ f = m ++ '.' :: ext := by
  obtain ⟨ps', ext, -, hext, heq⟩ := h
  have hsplit : cfg.heapsDir ++ ps' ++ ["log".toList, m ++ '.' :: ext] =
      cfg.heapsDir ++ ps' ++ ["log".toList] ++ [m ++ '.' :: ext] := by simp
  rw [hsplit] at heq
  exact ⟨ext, hext, List.singleton_inj.mp (List.append_inj' heq rfl).2⟩

/-- Neither a log nor the directory of the heaps is below an image. -/
theorem not_below_log (hlog : session ≠ "log".toList) {p p' f : FileName} {content : Option ℕ}
    {file : FilePath × FileNode (Option ℕ)}
    (hin : file ∈ fileAt cfg.heapsDir [p', "log".toList, f] content) :
    ¬ cfg.heapsDir ++ [p, session] <+: file.1 := by
  intro hbelow
  rcases mem_fileAt.mp hin with rfl | rfl
  · have hle := hbelow.length_le
    rw [List.length_append, List.length_cons, List.length_singleton] at hle
    dsimp only at hle
    omega
  · rw [List.prefix_append_right_inj, List.cons_prefix_cons, List.cons_prefix_cons] at hbelow
    exact hlog hbelow.2.1

/-- A session whose name goes on with a dot has a log that the pattern takes. -/
theorem exists_dotted_log (hself : fnmatch session session = true) {n : FileName}
    (hslash : '/' ∉ n) (hn : session ++ ['.'] <+: n) :
    ∃ f, IsPlain f ∧ fnmatch (session ++ ".*".toList) f = true ∧
      ∀ m ext, '.' ∉ ext → f = m ++ '.' :: ext → n = m := by
  obtain ⟨r, rfl⟩ := hn
  have hsplit : session ++ ['.'] ++ r ++ ".db".toList = session ++ '.' :: (r ++ ".db".toList) := by
    simp
  have hdb : session ++ ['.'] ++ r ++ ".db".toList =
      (session ++ ['.'] ++ r) ++ '.' :: "db".toList := by simp
  refine ⟨session ++ ['.'] ++ r ++ ".db".toList, ?_, ?_, fun m ext hext heq => ?_⟩
  · refine isPlain_of_mem (d := 'd') ?_ (by simp) (by decide)
    rw [List.mem_append]
    exact fun hin => hin.elim hslash (by decide)
  · rw [hsplit]
    exact fnmatch_dot_star hself _
  · exact eq_of_dot_append (by decide) hext (hdb.symm.trans heq)

/-- The session's image as a file, with a log in the directory of the logs beside it. -/
def imageAndLog (cfg : HeapConfig) (p n f : FileName) : FileTree (Option ℕ) :=
  (cfg.heapsDir ++ [p, n], .file (some 0)) :: fileAt cfg.heapsDir [p, "log".toList, f] (some 0)

theorem wellFormed_imageAndLog (cfg : HeapConfig) {p n f : FileName} (hn : IsPlain n)
    (hplain : ∀ c ∈ [p, "log".toList, f], IsPlain c) : (imageAndLog cfg p n f).WellFormed := by
  intro entry hin c hc
  rcases List.mem_cons.mp hin with rfl | hin
  · rcases List.mem_append.mp hc with hc | hc
    · exact cfg.plain_heapsDir c hc
    · rcases List.mem_cons.mp hc with rfl | hc
      · exact hplain _ List.mem_cons_self
      · rw [List.mem_singleton.mp hc]
        exact hn
  · exact wellFormed_fileAt cfg.plain_heapsDir hplain (some 0) entry hin c hc

theorem remove_imageAndLog (cfg : HeapConfig) {p n : FileName} (f : FileName)
    (hplain : ∀ c ∈ [p, n], IsPlain c) (hlog : n ≠ "log".toList) :
    (imageAndLog cfg p n f).isFile (cfg.heapsDir ++ [p, n]) = true ∧
      (imageAndLog cfg p n f).remove (cfg.heapsDir ++ [p, n]) =
        fileAt cfg.heapsDir [p, "log".toList, f] (some 0) := by
  have hself := cfg.resolve_heapsDir hplain
  have hfile : (imageAndLog cfg p n f).isFile (cfg.heapsDir ++ [p, n]) = true := by
    unfold FileTree.isFile FileTree.node
    rw [hself, imageAndLog, Dict.lookup_cons, if_pos rfl]
  have hdir : ¬ (imageAndLog cfg p n f).isDir (cfg.heapsDir ++ [p, n]) = true := by
    rw [FileTree.isDir_iff, hself]
    rintro (hnil | ⟨entry, hin, hcase⟩)
    · simp at hnil
    · rcases List.mem_cons.mp hin with rfl | hin
      · simp at hcase
      · rcases hcase with heq | ⟨hbelow, -⟩
        · rcases mem_fileAt.mp hin with rfl | rfl
          · simp at heq
          · simp at heq
        · exact not_below_log hlog hin hbelow
  refine ⟨hfile, ?_⟩
  rw [FileTree.remove, if_neg hdir, if_pos hfile, FileTree.unlink, hself]
  simp [Dict.del, imageAndLog, fileAt]

/-- A log goes whose name is the session's with a dot and anything behind it. -/
theorem log_removed (hsession : NamesItself session) (hself : fnmatch session session = true)
    (hlog : session ≠ "log".toList) (hanswers : cfg.answersGetenv = true) {q p : FileName}
    (hsegs : segments (imagePattern session platform) = some [.entry q, .entry session])
    (hentry : segment session = some (.entry session)) (hp : IsPlain p)
    (hp' : segment p = some (.entry p)) (hq : fnmatch q p = true) (hpself : fnmatch p p = true)
    {f : FileName} (hf : IsPlain f) (hmatch : fnmatch (session ++ ".*".toList) f = true) :
    (cfg.heapsDir ++ [p, "log".toList, f], .file (some 0)) ∉
      (({ heaps := imageAndLog cfg p session f } : HeapPool).deleteHeapImage cfg session
        platform).1.heaps := by
  have hbase := cfg.plain_heapsDir
  have hne : cfg.heapsDir ≠ [] := by simp [HeapConfig.heapsDir]
  have hplain : ∀ c ∈ [p, session], IsPlain c := by simp [hp, hsession.1]
  have hplain' : ∀ c ∈ [p, "log".toList, f], IsPlain c := by
    simp only [List.forall_mem_cons]
    exact ⟨hp, by decide, hf, by simp⟩
  have hwf := wellFormed_imageAndLog cfg hsession.1 hplain'
  have hroot : (cfg.heapsDir, .dir) ∈ imageAndLog cfg p session f :=
    List.mem_cons_of_mem _ (mem_fileAt.mpr (.inl rfl))
  have hresolve : resolve cfg.heapsDir = cfg.heapsDir :=
    resolve_of_forall fun c hc => (hbase c hc).2.2.2
  have hdir : (imageAndLog cfg p session f).isDir cfg.heapsDir = true :=
    FileTree.isDir_iff.mpr (.inr ⟨_, hroot, .inl (by rw [hresolve])⟩)
  have hglob : glob (imageAndLog cfg p session f) cfg.heapsDir (imagePattern session platform) =
      some (select (imageAndLog cfg p session f) cfg.heapsDir [.entry q, .entry session]) := by
    rw [glob, hsegs, Option.map_some, if_pos hdir]
  have hselected : cfg.heapsDir ++ [p, session] ∈
      select (imageAndLog cfg p session f) cfg.heapsDir [.entry q, .entry session] :=
    mem_select_of_below [q, session] (.cons hq (.cons hself .nil))
      (fun c hc => (hwf _ List.mem_cons_self c hc).2.2.2) List.mem_cons_self (List.prefix_refl _)
  have hall : ∀ l ∈ select (imageAndLog cfg p session f) cfg.heapsDir [.entry q, .entry session],
      l = cfg.heapsDir ++ [p, session] := by
    intro l hl
    obtain ⟨cs, hwalk, rfl⟩ := walk_of_mem_select hwf hl
    obtain ⟨-, entry, hin, hbelow⟩ := exists_below_of_mem_glob hwf hbase hne hroot hglob hl
    cases hwalk with
    | entry hn _ hwalk =>
      cases hwalk with
      | entry hm hmatch' hwalk =>
        cases hwalk
        cases hsession.2 _ hm hmatch'
        rw [cfg.resolve_heapsDir (by simp [hn, hm])] at hbelow
        rcases List.mem_cons.mp hin with rfl | hin
        · exact hbelow.eq_of_length (by simp)
        · exact absurd hbelow (not_below_log hlog hin)
  rw [HeapPool.deleteHeapImage_heaps, if_pos hanswers, hglob, Option.elim_some]
  cases hselect : select (imageAndLog cfg p session f) cfg.heapsDir [.entry q, .entry session] with
  | nil =>
    rw [hselect] at hselected
    cases hselected
  | cons image images =>
    rw [hselect] at hall
    cases hall image List.mem_cons_self
    obtain ⟨hfile, hremove⟩ := remove_imageAndLog cfg f hplain hlog
    have hparent : parentName (cfg.heapsDir ++ [p, session]) = p := by simp [parentName]
    obtain ⟨log, logs, hlogs, hlogs'⟩ := exists_glob_fileAt hbase hplain' (some 0) hne (by simp)
      (segments_logPattern hp hp' hsession.1.2.1 hentry)
      (.cons hpself (.cons (by decide) (.cons hmatch .nil)))
    have hfiles : ∀ l ∈ log :: logs,
        (fileAt cfg.heapsDir [p, "log".toList, f] (some 0)).isFile l = true := by
      intro l hl
      rw [hlogs' l hl]
      exact isFile_fileAt hbase hplain' (some 0) (by simp)
    rw [HeapPool.deleteImages, if_pos (by simp [hfile])]
    dsimp only
    rw [hremove, hparent, hlogs]
    dsimp only
    rw [if_pos (List.all_eq_true.mpr hfiles)]
    intro hcontra
    refine HeapPool.not_mem_removeLogs hfiles List.mem_cons_self ?_
      (HeapPool.mem_of_mem_deleteImages hcontra)
    rw [hlogs' log List.mem_cons_self, cfg.resolve_heapsDir hplain']

/-- Where a log of another session has the name of this one in front of a dot, it goes as well. -/
theorem undotted_of_staysInside {others : FileName → Prop}
    (h : StaysInside cfg others session platform) (hanswers : cfg.answersGetenv = true)
    (hsession : NamesItself session) (hself : fnmatch session session = true)
    (hlog : session ≠ "log".toList)
    (hplatform : ∀ p ∈ platform.filter (· ≠ []), ∃ c, (ofText p).parts = [c] ∧ NamesItself c)
    {segs : List Segment} (hsegs : segments (imagePattern session platform) = some segs)
    {name : Text → FileName} (hname : NamesEntries name segs) : Undotted others session := by
  intro n hn hslash hbelow
  obtain ⟨q, seg, p, rfl, hentry, hp, hp', hq, hpself, hof⟩ :=
    exists_platform hplatform hsession.1.1 hsession.1.2.1 hsession.1.2.2.1 hsegs hname
  cases hsession.segment_eq hentry
  obtain ⟨f, hf, hmatch, hlogOf⟩ := exists_dotted_log hself hslash hbelow
  have hgone := log_removed hsession hself hlog hanswers hsegs hentry hp hp' hq hpself hf hmatch
  have hplain : ∀ c ∈ [p, "log".toList, f], IsPlain c := by
    simp only [List.forall_mem_cons]
    exact ⟨hp, by decide, hf, by simp⟩
  have hothers : OnlyDotted (LogOf cfg platform) others session (imageAndLog cfg p session f) := by
    intro file hin hnot m hm hdotted
    rcases List.mem_cons.mp hin with rfl | hin
    · obtain ⟨ext, -, heq⟩ := LogOf.name (cfg.heapsDir ++ [p]) (by simpa using hm)
      have hle := hdotted.length_le
      rw [heq] at hle
      simp only [List.length_append, List.length_cons, List.length_nil] at hle
      omega
    · rcases mem_fileAt.mp hin with rfl | rfl
      · exact absurd rfl hnot
      · obtain ⟨ext, hext, heq⟩ :=
          LogOf.name (cfg.heapsDir ++ [p, "log".toList]) (by simpa using hm)
        rw [← hlogOf m ext hext heq]
        exact hn
  have hin : (cfg.heapsDir ++ [p, "log".toList, f], .file (some 0)) ∈
      imageAndLog cfg p session f := List.mem_cons_of_mem _ (mem_fileAt.mpr (.inr rfl))
  have hwf := wellFormed_imageAndLog cfg hsession.1 hplain
  rcases h _ hwf hothers _ hin hgone with ⟨-, _, -, himage⟩ | hlog'
  · exact not_below_log hlog (mem_fileAt.mpr (.inr rfl)) himage
  · obtain ⟨ext, hext, heq⟩ :=
      LogOf.name (cfg.heapsDir ++ [p, "log".toList]) (by simpa using hlog')
    have hle := hbelow.length_le
    rw [hlogOf session ext hext heq, List.length_append, List.length_singleton] at hle
    omega

/-- The request stays inside where it cannot select anything, or where its strings are names that
as patterns match only themselves, and no other session has a log that it takes for its own. -/
theorem staysInside_iff (cfg : HeapConfig) (others : FileName → Prop) (session : Text)
    (platform : Option Text) (hne : session ≠ []) (hslash : '/' ∉ session) :
    StaysInside cfg others session platform ↔
      cfg.answersGetenv = false ∨ segments (imagePattern session platform) = none ∨
      Unmatchable (imagePattern session platform) ∨
      NamesItself session ∧ session ≠ "log".toList ∧
        (∀ p ∈ platform.filter (· ≠ []), ∃ c, (ofText p).parts = [c] ∧ NamesItself c) ∧
        Undotted others session := by
  constructor
  · intro h
    cases hanswers : cfg.answersGetenv with
    | false => exact .inl rfl
    | true =>
      cases hsegs : segments (imagePattern session platform) with
      | none => exact .inr (.inl rfl)
      | some segs =>
        by_cases hmatch : Unmatchable (imagePattern session platform)
        · exact .inr (.inr (.inl hmatch))
        · obtain ⟨hsession, hself, hlog, hplatform⟩ :=
            namesItself_of_inside hne hslash hsegs hmatch
              fun name hname => exists_inside h hanswers hsegs hname
          obtain ⟨name, hname⟩ := exists_namesEntries_of_segments hsegs hmatch
          exact .inr (.inr (.inr ⟨hsession, hlog, hplatform,
            undotted_of_staysInside h hanswers hsession hself hlog hplatform hsegs hname⟩))
  · intro h
    rcases h with hanswers | hnone | hunmatchable | ⟨hsession, hlog, hplatform, hundotted⟩
    · intro s hwf _ entry hentry hgone
      obtain ⟨hcontra, -⟩ := exists_image_of_removed hwf hentry hgone
      rw [hanswers] at hcontra
      cases hcontra
    · intro s hwf _ entry hentry hgone
      obtain ⟨-, segs, cs, hsegs, -⟩ := exists_image_of_removed hwf hentry hgone
      rw [hnone] at hsegs
      cases hsegs
    · intro s hwf _ entry hentry hgone
      obtain ⟨-, segs, cs, hsegs, hwalk, -⟩ := exists_image_of_removed hwf hentry hgone
      exact absurd hwalk (hunmatchable.not_walk hsegs)
    · exact staysInside_of_namesItself hsession hlog hplatform hundotted

theorem staysInside_hol :
    StaysInside HeapConfig.sample (· = "HOL".toList) "HOL-Analysis".toList (some "x".toList) :=
  (staysInside_iff HeapConfig.sample (· = "HOL".toList) "HOL-Analysis".toList (some "x".toList)
    (by decide) (by decide)).mpr (.inr (.inr (.inr ⟨namesItself_of_forall (by decide) (by simp),
      by decide, fun _ hp => ⟨"x".toList, by cases hp; decide,
        namesItself_of_forall (by decide) (by simp)⟩,
      fun _ hn _ => hn ▸ by decide⟩)))

/-- An image of the user, and a file beside the heaps. -/
def userFiles : FileTree (Option ℕ) :=
  [(["u".toList, "heaps".toList, "x".toList, "HOL".toList], .file none),
    (["u".toList, "ssh".toList, "id".toList], .file none)]

/-- A star for the session removes the images of all sessions, and double dots for the platform
leave the heaps directory. -/
theorem userFiles_removed :
    userFiles.WellFormed ∧
      (({ heaps := userFiles } : HeapPool).deleteHeapImage HeapConfig.sample "*".toList
        none).1.heaps =
          [(["u".toList, "ssh".toList, "id".toList], .file none)] ∧
      ¬ Inside HeapConfig.sample "*".toList none
        ["u".toList, "heaps".toList, "x".toList, "HOL".toList] ∧
      (({ heaps := userFiles } : HeapPool).deleteHeapImage HeapConfig.sample "ssh".toList
        (some "..".toList)).1.heaps =
          [(["u".toList, "heaps".toList, "x".toList, "HOL".toList], .file none)] ∧
      ¬ Inside HeapConfig.sample "ssh".toList (some "..".toList)
        ["u".toList, "ssh".toList, "id".toList] := by
  refine ⟨by unfold FileTree.WellFormed; decide, by decide, fun h => ?_, by decide, fun h => ?_⟩
  · have h : Inside HeapConfig.sample "*".toList none
      (HeapConfig.sample.heapsDir ++ ["x".toList, "HOL".toList]) := h
    rcases of_inside_image h with ⟨-, hcontra⟩ | ⟨-, hcontra⟩
    · exact absurd hcontra (by decide)
    · exact absurd hcontra (by decide)
  · exact absurd h.below_heapsDir (by decide)

end Boundary

end IsabelleGym
