import IsabelleGym.BuildCache
import IsabelleGym.OuterString
import IsabelleGym.PosixPath

/-!
# What a build writes, and where

The name of the theory is part of the path of its file, and both the name and the
parent stand between quotes in the ROOT. The temporary directory is empty, so a
path that needs a directory in it is not opened.
-/

namespace IsabelleGym
namespace BuildSandbox

open TheoryParsing OuterString PosixPath

abbrev FilePath := List Text

def Below (dir p : FilePath) : Prop := dir <+: p ∧ p ≠ dir

instance (dir p : FilePath) : Decidable (Below dir p) := inferInstanceAs (Decidable (_ ∧ _))

/-- The temporary directory, as its absolute path without double dots. -/
structure TempDir where
  parts : FilePath
  isPlain : ∀ c ∈ parts, IsPlain c ∧ Char.ofNat 0 ∉ c

/-- The disk behind the creation of the temporary directory: its directories, and the files that
the system opens for writing where the directories are there. -/
structure Disk (temp : FilePath) where
  isDir : FilePath → Bool
  accepts : FilePath → Bool
  isDir_above : ∀ p, p <+: temp → isDir p = true
  isEmpty : ∀ p, Below temp p → isDir p = false
  isDir_of_accepts : ∀ p, accepts p = true → isDir p = false

variable {temp : FilePath}

def openForWriting (disk : Disk temp) (path : FilePath) : Option FilePath :=
  if path.all (fun c => !c.contains (Char.ofNat 0)) &&
      path.inits.all (fun ds => ds = path || disk.isDir (resolve ds)) && disk.accepts (resolve path)
  then some (resolve path) else none

def theoryPath (temp : FilePath) (theoryName : Text) : FilePath :=
  (join ⟨['/'], temp⟩ (ofText (theoryName ++ ".thy".toList))).parts

structure Written where
  theory : FilePath
  root : Option FilePath

def written (disk : Disk temp) (r : VerifyRequest) : Option Written :=
  match r.nameError with
  | some _ => none
  | none => (openForWriting disk (theoryPath temp r.theoryName)).map fun theory =>
      ⟨theory, openForWriting disk (temp ++ ["ROOT".toList])⟩

structure SessionEntry where
  name : Text
  parent : Option Text
  theories : List Text
deriving DecidableEq

/-- How Isabelle reads a ROOT. Names of sessions and theories are read from strings and checked; the
text that `write_root` makes of a session and a parent with such names, and of a theory, is one
session with the theory that the string of its name stands for. -/
structure RootReader where
  read : Text → Option (List SessionEntry)
  isSystemName : Text → Bool
  isSystemName_parent : ∀ {text entries entry parent}, read text = some entries →
    entry ∈ entries → entry.parent = some parent → isSystemName parent = true
  isSystemName_build : ∀ {name : Text}, "Build_".toList <+: name →
    (∀ c ∈ name, c.isAlphanum = true ∨ c = '_') → isSystemName name = true
  read_writeRoot : ∀ {session parent theory : Text}, isSystemName session = true →
    isSystemName parent = true → quote ∉ theory →
      read (writeRoot session parent theory) =
        ((stringBody 0 (theory ++ quote :: ['\n'])).filter fun s => isSystemName s.1).map
          fun s => [⟨session, some parent, [s.1]⟩]

variable (env : BuildEnv) (reader : RootReader) (temp : TempDir) (r : VerifyRequest)

/-- Whatever there is on disk, what is written is in the temporary directory, and the ROOT declares
the session of the request. -/
def StaysInSandbox : Prop :=
  ∀ disk : Disk temp.parts, ∀ w ∈ written disk r, Below temp.parts w.theory ∧ ∀ root ∈ w.root,
    Below temp.parts root ∧ reader.read (r.files env).rootText =
      some [⟨r.sessionName env, some r.parentSession, [r.theoryName]⟩]

/-- No disk opens the path: it has a zero character, or goes through something in the empty
directory, or is a directory that is there or that it goes through. -/
def NeverOpened (temp path : FilePath) : Prop :=
  (∃ c ∈ path, Char.ofNat 0 ∈ c) ∨ (∃ ds ∈ path.inits, ds ≠ path ∧ Below temp (resolve ds)) ∨
    resolve path <+: temp ∨ ∃ ds ∈ path.inits, ds ≠ path ∧ resolve ds = resolve path

instance (temp path : FilePath) : Decidable (NeverOpened temp path) :=
  inferInstanceAs (Decidable (_ ∨ _))

section Names

/-- The names that the header can have are without quotes. -/
theorem quote_not_mem_of_theoryNameAt {line name : Text} (h : theoryNameAt line = some name) :
    quote ∉ name := by
  unfold theoryNameAt at h
  dsimp only at h
  split_ifs at h
  · obtain rfl := Option.some.inj h
    intro hin
    have hchar := List.mem_takeWhile_imp hin
    simp at hchar
  · obtain rfl := Option.some.inj h
    intro hin
    have hchar := List.mem_takeWhile_imp hin
    revert hchar
    decide

theorem quote_not_mem_of_searchTheoryName {t name : Text} {lineStart : Bool}
    (h : searchTheoryName lineStart t = some name) : quote ∉ name := by
  induction t generalizing lineStart with
  | nil => cases h
  | cons c t ih =>
    rw [searchTheoryName, Option.or_eq_some_iff] at h
    rcases h with hhere | ⟨-, hrest⟩
    · split_ifs at hhere
      exact quote_not_mem_of_theoryNameAt hhere
    · exact ih hrest

theorem isAlphanum_of_isHexDigit {c : Char} (h : isHexDigit c = true) : c.isAlphanum = true := by
  rw [isHexDigit, Bool.or_eq_true] at h
  rw [Char.isAlphanum, Bool.or_eq_true]
  rcases h with hdigit | hletter
  · exact Or.inr hdigit
  · left
    simp only [Bool.and_eq_true, decide_eq_true_eq, Char.le_def, UInt32.le_iff_toNat_le] at hletter
    have halpha : c.isAlpha = (c.isUpper ||
        (decide ('a'.val ≤ c.val) && decide (c.val ≤ 'z'.val))) := rfl
    simp only [halpha, Bool.or_eq_true, Bool.and_eq_true, decide_eq_true_eq,
      UInt32.le_iff_toNat_le]
    have hf : 'f'.val.toNat = 102 := rfl
    have hz : 'z'.val.toNat = 122 := rfl
    omega

theorem isSystemName_sessionName : reader.isSystemName (r.sessionName env) = true := by
  apply reader.isSystemName_build
  · unfold VerifyRequest.sessionName
    rw [List.append_assoc, List.append_assoc]
    exact List.prefix_append _ _
  · intro c hc
    have hhex : ∀ d : Digest, c ∈ d.hex.take 10 → c.isAlphanum = true ∨ c = '_' := by
      intro d hin
      exact Or.inl (isAlphanum_of_isHexDigit (d.isHex c (List.mem_of_mem_take hin)))
    have hword : ∀ c ∈ "Build_".toList, c.isAlphanum = true ∨ c = '_' := by simp
    unfold VerifyRequest.sessionName at hc
    simp only [List.mem_append, List.mem_singleton] at hc
    rcases hc with ((hbuild | hkey) | hline) | htext
    · exact hword c hbuild
    · exact hhex _ hkey
    · exact Or.inr hline
    · exact hhex _ htext

end Names

section Opening

variable {temp path : FilePath}

theorem openForWriting_eq_some {disk : Disk temp} {p : FilePath} :
    openForWriting disk path = some p ↔ ((∀ c ∈ path, Char.ofNat 0 ∉ c) ∧
      (∀ ds ∈ path.inits, ds ≠ path → disk.isDir (resolve ds) = true) ∧
        disk.accepts (resolve path) = true) ∧ p = resolve path := by
  unfold openForWriting
  rw [Option.ite_none_right_eq_some, Option.some.injEq, eq_comm (a := p)]
  refine and_congr_left fun _ => ?_
  simp only [Bool.and_eq_true, List.all_eq_true, Bool.not_eq_true', List.contains_eq_mem,
    decide_eq_false_iff_not, Bool.or_eq_true, decide_eq_true_eq, and_assoc, or_iff_not_imp_left]

theorem openForWriting_eq_none (h : NeverOpened temp path) (disk : Disk temp) :
    openForWriting disk path = none := by
  rw [Option.eq_none_iff_forall_ne_some]
  intro p hp
  obtain ⟨⟨hzero, hdirs, haccepts⟩, -⟩ := openForWriting_eq_some.mp hp
  have hfile := disk.isDir_of_accepts _ haccepts
  rcases h with ⟨c, hc, hin⟩ | ⟨ds, hds, hne, hbelow⟩ | habove | ⟨ds, hds, hne, heq⟩
  · exact hzero c hc hin
  · have hdir := hdirs ds hds hne
    rw [disk.isEmpty _ hbelow] at hdir
    cases hdir
  · rw [disk.isDir_above _ habove] at hfile
    cases hfile
  · have hdir := hdirs ds hds hne
    rw [heq, hfile] at hdir
    cases hdir

/-- The disk with the directories that the path goes through, on which it can be written. -/
def diskWith (path : FilePath) (h : ¬ NeverOpened temp path) : Disk temp where
  isDir p := decide (p <+: temp ∨ ∃ ds ∈ path.inits, ds ≠ path ∧ resolve ds = p)
  accepts p := p = resolve path || p = temp ++ ["ROOT".toList]
  isDir_above p hp := decide_eq_true (Or.inl hp)
  isEmpty p hp := by
    simp only [decide_eq_false_iff_not, not_or]
    refine ⟨fun habove => hp.2 (habove.eq_of_length_le hp.1.length_le), ?_⟩
    rintro ⟨ds, hds, hne, rfl⟩
    exact h (Or.inr (Or.inl ⟨ds, hds, hne, hp⟩))
  isDir_of_accepts p hp := by
    simp only [Bool.or_eq_true, decide_eq_true_eq] at hp
    simp only [decide_eq_false_iff_not, not_or]
    rcases hp with rfl | rfl
    · exact ⟨fun habove => h (Or.inr (Or.inr (Or.inl habove))),
        fun hdir => h (Or.inr (Or.inr (Or.inr hdir)))⟩
    · constructor
      · intro habove
        have hlength := habove.length_le
        simp only [List.length_append, List.length_cons, List.length_nil] at hlength
        omega
      · rintro ⟨ds, hds, hne, heq⟩
        refine h (Or.inr (Or.inl ⟨ds, hds, hne, ?_⟩))
        rw [heq]
        exact ⟨List.prefix_append _ _, by simp⟩

theorem openForWriting_diskWith (h : ¬ NeverOpened temp path) :
    openForWriting (diskWith path h) path = some (resolve path) := by
  refine openForWriting_eq_some.mpr ⟨⟨?_, ?_, ?_⟩, rfl⟩
  · intro c hc hin
    exact h (Or.inl ⟨c, hc, hin⟩)
  · intro ds hds hne
    exact decide_eq_true (Or.inr ⟨ds, hds, hne, rfl⟩)
  · simp [diskWith]

theorem below_root (temp : FilePath) : Below temp (temp ++ ["ROOT".toList]) :=
  ⟨List.prefix_append _ _, by simp⟩

theorem resolve_root (temp : TempDir) :
    resolve (temp.parts ++ ["ROOT".toList]) = temp.parts ++ ["ROOT".toList] := by
  apply resolve_of_forall
  intro c hc
  rcases List.mem_append.mp hc with hin | hin
  · exact (temp.isPlain c hin).1.2.2.2
  · rw [List.mem_singleton.mp hin]
    decide

theorem openForWriting_root {temp : TempDir} {disk : Disk temp.parts} {root : FilePath}
    (h : openForWriting disk (temp.parts ++ ["ROOT".toList]) = some root) :
    root = temp.parts ++ ["ROOT".toList] :=
  (openForWriting_eq_some.mp h).2.trans (resolve_root temp)

theorem openForWriting_root_diskWith {temp : TempDir} (h : ¬ NeverOpened temp.parts path) :
    openForWriting (diskWith path h) (temp.parts ++ ["ROOT".toList]) =
      some (temp.parts ++ ["ROOT".toList]) := by
  refine openForWriting_eq_some.mpr ⟨⟨?_, ?_, ?_⟩, (resolve_root temp).symm⟩
  · intro c hc
    rcases List.mem_append.mp hc with hin | hin
    · exact (temp.isPlain c hin).2
    · rw [List.mem_singleton.mp hin]
      decide
  · intro ds hds hne
    have habove : ds <+: temp.parts := by
      rcases List.prefix_concat_iff.mp ((List.mem_inits _ _).mp hds) with heq | habove
      · exact absurd heq hne
      · exact habove
    rw [resolve_of_forall fun c hc => (temp.isPlain c (habove.subset hc)).1.2.2.2]
    exact (diskWith path h).isDir_above _ habove
  · rw [resolve_root]
    simp [diskWith]

end Opening

theorem theory_read_iff {session theory : Text} (parent : Text) (hquote : quote ∉ theory)
    (hsession : reader.isSystemName session = true) :
    reader.read (writeRoot session parent theory) = some [⟨session, some parent, [theory]⟩] ↔
      isLiteral theory = true ∧ reader.isSystemName theory = true ∧
        reader.isSystemName parent = true := by
  have hlast : quote ∉ ['\n'] := by decide
  constructor
  · intro h
    have hparent := reader.isSystemName_parent h List.mem_cons_self rfl
    rw [reader.read_writeRoot hsession hparent hquote] at h
    obtain ⟨⟨content, rest⟩, hfilter, heq⟩ := Option.map_eq_some_iff.mp h
    obtain ⟨hbody, hname⟩ := Option.filter_eq_some_iff.mp hfilter
    simp only [List.cons.injEq, SessionEntry.mk.injEq, and_true, true_and] at heq
    subst heq
    exact ⟨(stringBody_eq_iff hlast).mp (by rw [hbody]; rfl), hname, hparent⟩
  · rintro ⟨hliteral, htheory, hparent⟩
    rw [reader.read_writeRoot hsession hparent hquote, stringBody_append_quote hliteral]
    simp [Option.filter, htheory]

/-- A build of a request with the name that its text declares stays in its directory, and declares
what the request says, exactly where its path is never opened, or leads into the directory, and
the names in the ROOT are read back. -/
theorem staysInSandbox_iff (hname : extractTheoryName r.theoryText = some r.theoryName) :
    StaysInSandbox env reader temp r ↔
      NeverOpened temp.parts (theoryPath temp.parts r.theoryName) ∨
        (Below temp.parts (resolve (theoryPath temp.parts r.theoryName)) ∧
          isLiteral r.theoryName = true ∧ reader.isSystemName r.theoryName = true ∧
            reader.isSystemName r.parentSession = true) := by
  have herror := VerifyRequest.nameError_eq_none_iff.mpr hname
  have hquote := quote_not_mem_of_searchTheoryName hname
  have hread := theory_read_iff reader r.parentSession hquote
    (isSystemName_sessionName env reader r)
  constructor
  · intro h
    by_cases hnever : NeverOpened temp.parts (theoryPath temp.parts r.theoryName)
    · exact Or.inl hnever
    · right
      obtain ⟨hbelow, hroot⟩ := h (diskWith _ hnever)
        ⟨resolve (theoryPath temp.parts r.theoryName), some (temp.parts ++ ["ROOT".toList])⟩
        (by simp only [written, herror, openForWriting_diskWith hnever,
              openForWriting_root_diskWith hnever, Option.map_some, Option.mem_def])
      exact ⟨hbelow, hread.mp (hroot _ rfl).2⟩
  · rintro hcond disk w hw
    simp only [written, herror, Option.mem_def] at hw
    obtain ⟨theory, htheory, rfl⟩ := Option.map_eq_some_iff.mp hw
    rcases hcond with hnever | ⟨hbelow, hnames⟩
    · rw [openForWriting_eq_none hnever] at htheory
      cases htheory
    · refine ⟨?_, ?_⟩
      · rwa [(openForWriting_eq_some.mp htheory).2]
      · intro root hroot
        rw [openForWriting_root hroot]
        exact ⟨below_root temp.parts, hread.mpr hnames⟩

section Sample

def expect (expected t : Text) : Option Text :=
  if expected.isPrefixOf t then some (t.drop expected.length) else none

def isSimpleName (name : Text) : Bool :=
  !name.isEmpty && name.all fun c => c.isAlphanum || "_-.".toList.contains c

def readName (t : Text) : Option (Text × Text) := (stringBody 0 t).filter fun s => isSimpleName s.1

def readTemplate (t : Text) : Option (List SessionEntry) := do
  let (name, t) ← readName (← expect "session \"".toList t)
  let (parent, t) ← readName (← expect " = \"".toList t)
  let (theory, t) ← readName (← expect
    (" +\n  options [document = false, browser_info = false]\n" ++
      "  theories\n    \"").toList t)
  if t = ['\n'] then some [⟨name, some parent, [theory]⟩] else none

theorem expect_append (expected t : Text) : expect expected (expected ++ t) = some t := by
  simp [expect]

theorem isLiteral_of_isSimpleName {name : Text} (h : isSimpleName name = true) :
    isLiteral name = true := by
  have hall := (Bool.and_eq_true_iff.mp h).2
  clear h
  induction name with
  | nil => rfl
  | cons c name ih =>
    obtain ⟨hc, hrest⟩ := Bool.and_eq_true_iff.mp hall
    have hquote : c ≠ quote := by
      rintro rfl
      revert hc
      decide
    have hbackslash : c ≠ backslash := by
      rintro rfl
      revert hc
      decide
    simp [isLiteral, hquote, hbackslash, ih hrest]

theorem readName_append {name : Text} (h : isSimpleName name = true) (rest : Text) :
    readName (name ++ quote :: rest) = some (name, rest) := by
  rw [readName, stringBody_append_quote (isLiteral_of_isSimpleName h)]
  simp [Option.filter, h]

theorem writeRoot_eq (session parent theory : Text) :
    writeRoot session parent theory = "session \"".toList ++ (session ++ quote ::
      (" = \"".toList ++ (parent ++ quote ::
        ((" +\n  options [document = false, browser_info = false]\n" ++
          "  theories\n    \"").toList ++ (theory ++ quote :: ['\n']))))) := by
  have hparent : "\" = \"".toList = quote :: " = \"".toList := by decide
  have hplus : "\" +\n".toList = quote :: " +\n".toList := by decide
  have hlast : "\"\n".toList = quote :: ['\n'] := by decide
  have hmiddle : (" +\n  options [document = false, browser_info = false]\n" ++
      "  theories\n    \"").toList = " +\n".toList ++
        "  options [document = false, browser_info = false]\n  theories\n    \"".toList := by decide
  unfold writeRoot
  rw [hparent, hplus, hlast, hmiddle]
  simp only [List.append_assoc, List.cons_append]

def sampleReader : RootReader where
  read := readTemplate
  isSystemName := isSimpleName
  isSystemName_parent := by
    intro text entries entry parent hread hentry hparent
    simp only [readTemplate, Option.bind_eq_bind, Option.bind_eq_some_iff] at hread
    obtain ⟨_, _, ⟨name, t⟩, _, _, _, ⟨parent', t'⟩, hname, _, _, ⟨theory, t''⟩, _, hend⟩ := hread
    split_ifs at hend
    obtain rfl := Option.some.inj hend
    obtain rfl := List.mem_singleton.mp hentry
    obtain rfl := Option.some.inj hparent
    exact (Option.filter_eq_some_iff.mp hname).2
  isSystemName_build := by
    intro name hbuild hchars
    rw [isSimpleName, Bool.and_eq_true_iff]
    constructor
    · cases name with
      | nil => cases hbuild.length_le
      | cons c name => rfl
    · rw [List.all_eq_true]
      intro c hc
      rcases hchars c hc with halpha | rfl
      · simp [halpha]
      · decide
  read_writeRoot := by
    intro session parent theory hsession hparent hquote
    rw [writeRoot_eq, readTemplate]
    simp only [expect_append, Option.bind_eq_bind, Option.bind_some, readName_append hsession,
      readName_append hparent]
    cases hbody : stringBody 0 (theory ++ quote :: ['\n']) with
    | none => simp [readName, hbody]
    | some s =>
      have hrest : s.2 = ['\n'] := snd_stringBody hquote (by decide) hbody
      by_cases hname : isSimpleName s.1 = true
      · simp [readName, hbody, hname, hrest, Option.filter]
      · simp [readName, hbody, hname, Option.filter]

def sampleTemp : TempDir := ⟨["tmp".toList, "isabelle-build-server-x".toList], by decide⟩

def requestNamed (name : Text) : VerifyRequest where
  theoryName := name
  theoryText := "theory ".toList ++ quote :: (name ++ [quote])
  timeout := 5

theorem staysInSandbox_iff_simple :
    StaysInSandbox BuildVerifier.sampleEnv sampleReader sampleTemp (requestNamed "A".toList) ↔
      NeverOpened sampleTemp.parts (theoryPath sampleTemp.parts "A".toList) ∨
        (Below sampleTemp.parts (resolve (theoryPath sampleTemp.parts "A".toList)) ∧
          isLiteral "A".toList = true ∧ sampleReader.isSystemName "A".toList = true ∧
            sampleReader.isSystemName (requestNamed "A".toList).parentSession = true) :=
  staysInSandbox_iff BuildVerifier.sampleEnv sampleReader sampleTemp (requestNamed "A".toList)
    (by decide)

/-- A quoted name leads out of the directory. -/
theorem name_leads_out :
    extractTheoryName (requestNamed "../x".toList).theoryText = some "../x".toList ∧
      ¬ StaysInSandbox BuildVerifier.sampleEnv sampleReader sampleTemp
        (requestNamed "../x".toList) := by
  refine ⟨by decide, ?_⟩
  intro h
  have hopened : ¬ NeverOpened sampleTemp.parts (theoryPath sampleTemp.parts "../x".toList) := by
    decide
  have hwritten : written (diskWith _ hopened) (requestNamed "../x".toList) =
      some ⟨["tmp".toList, "x.thy".toList], some (sampleTemp.parts ++ ["ROOT".toList])⟩ := by
    have herror : (requestNamed "../x".toList).nameError = none := by decide
    have hpath : resolve (theoryPath sampleTemp.parts "../x".toList) =
        ["tmp".toList, "x.thy".toList] := by decide
    rw [written, herror]
    simp only [requestNamed, openForWriting_diskWith hopened, openForWriting_root_diskWith hopened,
      hpath, Option.map_some]
  have hbelow := (h _ _ hwritten).1
  revert hbelow
  decide

end Sample

end BuildSandbox
end IsabelleGym
