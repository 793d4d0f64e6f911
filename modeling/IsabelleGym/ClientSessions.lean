import IsabelleGym.PythonStr
import IsabelleGym.ThyInit

/-!
# The sessions of a client and their wrapper theories

A session with theories of its own loads a wrapper theory that is named like the
session. A step changes the files and the session of one name, so what holds of the
names is kept from step to step, whatever fails on its way.
-/

namespace IsabelleGym
namespace ClientSessions

open PythonStr

structure SessionInfo where
  backend : ℕ
  sessionTheories : List Text
  initialThys : List Text
  wrapperName : Option Text

structure Client where
  thyInit : ThyInit
  useMultiSession : Bool
  defaultSessionTheories : List Text
  initialWrapperName : Option Text
  sessions : Dict Text SessionInfo := []
  currentSessionId : Option Text := none
  terminated : Bool := false

/-- A call of a client, with what the file system and the gateway do on its way, or the end of
the gateway. No backend stands for a gateway that raises. -/
inductive Event
  | createSession (sessionId : Text) (initialThys : Option (List (Option Text))) (write : FileWrite)
    (backend : Option ℕ)
  | switchSession (sessionId : Text)
  | closeSession (sessionId : Text) (unlinked : Bool)
  | cleanup (unlinked : Text → Bool) (gatewayTerminated : Bool)
  | gatewayDied

def normalizeTheories (theories : List (Option Text)) : List Text :=
  (theories.filterMap fun theory => theory.map strip).filter fun theory => !theory.isEmpty

def loadedTheory (name : Text) : Text := "$ISABELLE_REPL_HOME/thys/".toList ++ name

/-- The theories to load and the wrapper, none where its file is not made. -/
def buildLoadedTheories (T : ThyInit) (wrapperName : Text) (dependencyTheories : List Text)
    (write : FileWrite) : Option (List Text × Option Text) × ThyInit :=
  if dependencyTheories.isEmpty then (some ([loadedTheory "IsabelleREPL".toList], none), T)
  else
    match T.genFile wrapperName dependencyTheories write with
    | (none, T) => (none, T)
    | (some wrapper, T) => (some ([loadedTheory wrapper], some wrapper), T)

def Client.make (template : Text) (files : Dict Text Text) (initialThys : List (Option Text))
    (useMultiSession : Bool) (write : FileWrite) (backendStarted : Bool) : Option Client :=
  let theories := normalizeTheories initialThys
  match buildLoadedTheories { template, files } "main".toList theories write with
  | (none, _) => none
  | (some (_, wrapper), thyInit) =>
    if backendStarted then
      some { thyInit, useMultiSession, defaultSessionTheories := theories
             initialWrapperName := wrapper }
    else none

namespace Client

variable (c : Client)

def theoriesOf (initialThys : Option (List (Option Text))) : List Text :=
  (initialThys.map normalizeTheories).getD c.defaultSessionTheories

def createSession (sessionId : Text) (initialThys : Option (List (Option Text))) (write : FileWrite)
    (backend : Option ℕ) : Client :=
  let dependencyTheories := c.theoriesOf initialThys
  match buildLoadedTheories c.thyInit sessionId dependencyTheories write with
  | (none, thyInit) => { c with thyInit }
  | (some (loadedThys, wrapperName), thyInit) =>
    match backend with
    | none => { c with thyInit }
    | some backend =>
      { c with
        thyInit
        sessions := Dict.put c.sessions sessionId
          { backend, sessionTheories := dependencyTheories, initialThys := loadedThys, wrapperName }
        currentSessionId := c.currentSessionId.orElse fun _ => some sessionId }

def switchSession (sessionId : Text) : Client :=
  if (c.sessions.lookup sessionId).isSome then { c with currentSessionId := some sessionId } else c

def closeSession (sessionId : Text) (unlinked : Bool) : Client :=
  match c.sessions.lookup sessionId with
  | none => c
  | some info =>
    { c with
      sessions := Dict.del c.sessions sessionId
      currentSessionId := if c.currentSessionId = some sessionId then none else c.currentSessionId
      thyInit := match info.wrapperName with
        | none => c.thyInit
        | some wrapperName => (c.thyInit.cleanup wrapperName unlinked).2 }

def closeAll (unlinked : Text → Bool) (sessionIds : List Text) : Client :=
  sessionIds.foldl (fun c sessionId => c.closeSession sessionId (unlinked sessionId)) c

def releaseWrappers (unlinked : Text → Bool) : Client :=
  if c.useMultiSession then c.closeAll unlinked (c.sessions.map Prod.fst)
  else
    match c.initialWrapperName with
    | none => c
    | some wrapper => { c with thyInit := (c.thyInit.cleanup wrapper (unlinked wrapper)).2 }

def cleanup (unlinked : Text → Bool) (gatewayTerminated : Bool) : Client :=
  if c.terminated then c
  else { c.releaseWrappers unlinked with terminated := gatewayTerminated }

def getCurrentSession : Except String ℕ :=
  if !c.useMultiSession then .error "get_current_session is only available in multi-session mode"
  else
    match c.currentSessionId with
    | none => .error "No active Session"
    | some sessionId =>
      match c.sessions.lookup sessionId with
      | none => .error "KeyError"
      | some info => .ok info.backend

/-- The calls for sessions raise and change nothing outside of the multi-session mode. -/
def step : Event → Client
  | .createSession sessionId initialThys write backend =>
    if c.useMultiSession then c.createSession sessionId initialThys write backend else c
  | .switchSession sessionId => if c.useMultiSession then c.switchSession sessionId else c
  | .closeSession sessionId unlinked =>
    if c.useMultiSession then c.closeSession sessionId unlinked else c
  | .cleanup unlinked gatewayTerminated => c.cleanup unlinked gatewayTerminated
  | .gatewayDied => { c with terminated := true }

def run (events : List Event) : Client := events.foldl step c

def Owns (w : Text) : Prop := ∃ info, c.sessions.lookup w = some info ∧ info.wrapperName = some w

/-- A wrapper is named like its session and tracked unless it is a theory of the pool, and a
tracked file exists. -/
structure ValidAt (w : Text) : Prop where
  wrapper : ∀ info v, c.sessions.lookup w = some info → info.wrapperName = some v → v = w
  tracked : c.Owns w → w ∉ thysPool → w ∈ c.thyInit.createdFiles
  exists_file : w ∈ c.thyInit.createdFiles →
    w ∉ thysPool ∧ (c.thyInit.files.lookup w).isSome

def CurrentOpen : Prop :=
  ∀ sessionId, c.currentSessionId = some sessionId → (c.sessions.lookup sessionId).isSome

structure Valid : Prop where
  names : ∀ w, c.ValidAt w
  current : c.CurrentOpen
  single : c.useMultiSession = false → c.sessions = []

structure SameAt (w : Text) (c c' : Client) : Prop where
  template : c'.thyInit.template = c.thyInit.template
  created : w ∈ c'.thyInit.createdFiles ↔ w ∈ c.thyInit.createdFiles
  file : c'.thyInit.files.lookup w = c.thyInit.files.lookup w
  session : c'.sessions.lookup w = c.sessions.lookup w

namespace SameAt

variable {w : Text} {c c' c'' : Client}

theorem refl : SameAt w c c := ⟨rfl, Iff.rfl, rfl, rfl⟩

theorem of_eq (hT : c'.thyInit = c.thyInit) (hsessions : c'.sessions = c.sessions) :
    SameAt w c c' := by
  refine ⟨?_, ?_, ?_, ?_⟩
  · rw [hT]
  · rw [hT]
  · rw [hT]
  · rw [hsessions]

theorem trans (h : SameAt w c c') (h' : SameAt w c' c'') : SameAt w c c'' :=
  ⟨h'.template.trans h.template, h'.created.trans h.created, h'.file.trans h.file,
    h'.session.trans h.session⟩

theorem owns_iff (h : SameAt w c c') : c'.Owns w ↔ c.Owns w := by
  rw [Owns, Owns, h.session]

theorem validAt (h : SameAt w c c') (hc : c.ValidAt w) : c'.ValidAt w := by
  constructor
  · rw [h.session]
    exact hc.wrapper
  · rw [h.owns_iff, h.created]
    exact hc.tracked
  · rw [h.created, h.file]
    exact hc.exists_file

end SameAt

theorem ValidAt.of_eq {w : Text} {c c' : Client} (h : c.ValidAt w)
    (hT : c'.thyInit = c.thyInit) (hsessions : c'.sessions = c.sessions) : c'.ValidAt w :=
  (SameAt.of_eq hT hsessions).validAt h

end Client

namespace Client

variable {c : Client} {w sessionId : Text}

theorem createSession_sameAt (h : w ≠ sessionId) (initialThys : Option (List (Option Text)))
    (write : FileWrite) (backend : Option ℕ) :
    SameAt w c (c.createSession sessionId initialThys write backend) := by
  obtain ⟨hcreated, hfile⟩ := c.thyInit.genFile_of_ne (c.theoriesOf initialThys) write h
  have htemplate : (c.thyInit.genFile sessionId (c.theoriesOf initialThys) write).2.template =
      c.thyInit.template := ThyInit.template_genFile ..
  unfold createSession buildLoadedTheories
  dsimp only
  split_ifs
  · cases backend with
    | none => exact .refl
    | some backend => exact ⟨rfl, Iff.rfl, rfl, Dict.lookup_put_of_ne h⟩
  · generalize c.thyInit.genFile sessionId (c.theoriesOf initialThys) write = r at *
    obtain ⟨_ | wrapper, T⟩ := r
    · exact ⟨htemplate, hcreated, hfile, rfl⟩
    · cases backend with
      | none => exact ⟨htemplate, hcreated, hfile, rfl⟩
      | some backend => exact ⟨htemplate, hcreated, hfile, Dict.lookup_put_of_ne h⟩

theorem closeSession_sameAt (hc : c.ValidAt sessionId) (h : w ≠ sessionId) (unlinked : Bool) :
    SameAt w c (c.closeSession sessionId unlinked) := by
  unfold closeSession
  split
  · exact .refl
  · rename_i info hlookup
    refine ⟨?_, ?_, ?_, Dict.lookup_del_of_ne h⟩
    all_goals
      dsimp only
      split
      · rfl
      · rename_i wrapperName hwrapper
        obtain rfl := hc.wrapper _ _ hlookup hwrapper
        simp [ThyInit.cleanup_of_ne _ _ h]

inductive CreatedAt (w : Text) (thys : List Text) (c c' : Client) : FileWrite → Option ℕ → Prop
  | bare {write : FileWrite} {backend : ℕ} : thys = [] →
    c'.thyInit = c.thyInit →
    (∃ info, c'.sessions.lookup w = some info ∧ info.wrapperName = none) →
    CreatedAt w thys c c' write (some backend)
  | pooled {write : FileWrite} {backend : ℕ} : thys ≠ [] → w ∈ thysPool →
    c'.thyInit = c.thyInit →
    (∃ info, c'.sessions.lookup w = some info ∧ info.wrapperName = some w) →
    CreatedAt w thys c c' write (some backend)
  | started {backend : ℕ} : thys ≠ [] → w ∉ thysPool →
    w ∈ c'.thyInit.createdFiles →
    c'.thyInit.files.lookup w = some (c'.thyInit.generateThyFile thys w) →
    (∃ info, c'.sessions.lookup w = some info ∧ info.wrapperName = some w ∧
      info.sessionTheories = thys) →
    CreatedAt w thys c c' .done (some backend)
  | unstarted : thys ≠ [] → w ∉ thysPool →
    w ∈ c'.thyInit.createdFiles →
    c'.thyInit.files.lookup w = some (c.thyInit.generateThyFile thys w) →
    c'.thyInit.template = c.thyInit.template → c'.sessions = c.sessions →
    CreatedAt w thys c c' .done none
  | broken {left : Text} {backend : Option ℕ} : thys ≠ [] → w ∉ thysPool →
    c'.thyInit.createdFiles = c.thyInit.createdFiles →
    c'.thyInit.files.lookup w = some left →
    c'.thyInit.template = c.thyInit.template → c'.sessions = c.sessions →
    CreatedAt w thys c c' (.failed (some left)) backend
  | unwritten {backend : Option ℕ} : thys ≠ [] → w ∉ thysPool → SameAt w c c' →
    CreatedAt w thys c c' (.failed none) backend
  | refused {write : FileWrite} : thys = [] ∨ w ∈ thysPool → SameAt w c c' →
    CreatedAt w thys c c' write none

theorem createSession_cases (c : Client) (w : Text) (initialThys : Option (List (Option Text)))
    (write : FileWrite) (backend : Option ℕ) :
    CreatedAt w (c.theoriesOf initialThys) c (c.createSession w initialThys write backend) write
      backend := by
  unfold createSession buildLoadedTheories ThyInit.genFile
  dsimp only
  split_ifs with hempty hpool
  · have hnil : c.theoriesOf initialThys = [] := List.isEmpty_iff.mp hempty
    cases backend with
    | none => exact .refused (Or.inl hnil) .refl
    | some backend => exact .bare hnil rfl ⟨_, Dict.lookup_put_self, rfl⟩
  · have hne : c.theoriesOf initialThys ≠ [] := fun hnil => hempty (List.isEmpty_iff.mpr hnil)
    cases backend with
    | none => exact .refused (Or.inr hpool) .refl
    | some backend => exact .pooled hne hpool rfl ⟨_, Dict.lookup_put_self, rfl⟩
  · have hne : c.theoriesOf initialThys ≠ [] := fun hnil => hempty (List.isEmpty_iff.mpr hnil)
    match write, backend with
    | .done, none =>
      exact .unstarted hne hpool (Finset.mem_insert_self _ _) Dict.lookup_put_self rfl rfl
    | .done, some backend =>
      exact .started hne hpool (Finset.mem_insert_self _ _) Dict.lookup_put_self
        ⟨_, Dict.lookup_put_self, rfl, rfl⟩
    | .failed none, backend => exact .unwritten hne hpool .refl
    | .failed (some left), backend => exact .broken hne hpool rfl Dict.lookup_put_self rfl rfl

inductive ClosedAt (w : Text) (c c' : Client) : Bool → Prop
  | absent {unlinked : Bool} : c.sessions.lookup w = none → SameAt w c c' →
    ClosedAt w c c' unlinked
  | kept {unlinked : Bool} : (w ∈ c'.thyInit.createdFiles ↔ w ∈ c.thyInit.createdFiles) →
    c'.thyInit.files.lookup w = c.thyInit.files.lookup w → c'.sessions.lookup w = none →
    (c.Owns w → w ∉ thysPool → unlinked = false) → ClosedAt w c c' unlinked
  | deleted : c.Owns w → w ∉ thysPool → w ∉ c'.thyInit.createdFiles →
    c'.sessions.lookup w = none → ClosedAt w c c' true

theorem closeSession_cases (hc : c.ValidAt w) (unlinked : Bool) :
    ClosedAt w c (c.closeSession w unlinked) unlinked := by
  unfold closeSession
  split
  · rename_i hlookup
    exact .absent hlookup .refl
  · rename_i info hlookup
    have hgone : (Dict.del c.sessions w).lookup w = none := Dict.lookup_del_self
    cases hwrapper : info.wrapperName with
    | none =>
      refine .kept Iff.rfl rfl hgone ?_
      rintro ⟨info', hlookup', hwrapper'⟩ _
      rw [hlookup] at hlookup'
      cases hlookup'
      rw [hwrapper] at hwrapper'
      cases hwrapper'
    | some v =>
      obtain rfl := hc.wrapper info v hlookup hwrapper
      have howns : c.Owns v := ⟨info, hlookup, hwrapper⟩
      obtain ⟨hsame, hfailed⟩ | ⟨hcreated, hdeleted, hunlinked⟩ :=
        c.thyInit.cleanup_cases v unlinked
      · refine .kept ?_ ?_ hgone fun _ hpool => hfailed (hc.tracked howns hpool) hpool
        · exact Iff.of_eq (congrArg (v ∈ ThyInit.createdFiles ·) hsame)
        · exact congrArg (fun T : ThyInit => T.files.lookup v) hsame
      · obtain ⟨hpool, hexists⟩ := hc.exists_file hcreated
        rw [hunlinked hexists] at hdeleted ⊢
        exact .deleted howns hpool hdeleted hgone

theorem CreatedAt.validAt {thys : List Text} {c' : Client} {write : FileWrite} {backend : Option ℕ}
    (h : CreatedAt w thys c c' write backend) (hc : c.ValidAt w) : c'.ValidAt w := by
  cases h with
  | bare hnil hT hinfo =>
    obtain ⟨info, hlookup, hwrapper⟩ := hinfo
    constructor
    · intro info' v hlookup' hv
      rw [hlookup] at hlookup'
      cases hlookup'
      rw [hwrapper] at hv
      cases hv
    · rintro ⟨info', hlookup', hv⟩
      rw [hlookup] at hlookup'
      cases hlookup'
      rw [hwrapper] at hv
      cases hv
    · rw [hT]
      exact hc.exists_file
  | pooled hne hpool hT hinfo =>
    obtain ⟨info, hlookup, hwrapper⟩ := hinfo
    constructor
    · intro info' v hlookup' hv
      rw [hlookup] at hlookup'
      cases hlookup'
      rw [hwrapper] at hv
      exact (Option.some.inj hv).symm
    · exact fun _ hnot => absurd hpool hnot
    · rw [hT]
      exact hc.exists_file
  | started hne hpool hcreated hfile hinfo =>
    obtain ⟨info, hlookup, hwrapper, _⟩ := hinfo
    constructor
    · intro info' v hlookup' hv
      rw [hlookup] at hlookup'
      cases hlookup'
      rw [hwrapper] at hv
      exact (Option.some.inj hv).symm
    · exact fun _ _ => hcreated
    · exact fun _ => ⟨hpool, by rw [hfile]; rfl⟩
  | unstarted hne hpool hcreated hfile htemplate hsessions =>
    constructor
    · rw [hsessions]
      exact hc.wrapper
    · exact fun _ _ => hcreated
    · exact fun _ => ⟨hpool, by rw [hfile]; rfl⟩
  | broken hne hpool hcreated hfile htemplate hsessions =>
    constructor
    · rw [hsessions]
      exact hc.wrapper
    · rw [Owns, hsessions, hcreated]
      exact hc.tracked
    · exact fun _ => ⟨hpool, by rw [hfile]; rfl⟩
  | unwritten hne hpool hsame => exact hsame.validAt hc
  | refused hkept hsame => exact hsame.validAt hc

theorem not_owns_of_lookup (h : c.sessions.lookup w = none) : ¬c.Owns w := by
  rintro ⟨info, hlookup, _⟩
  rw [h] at hlookup
  cases hlookup

theorem ClosedAt.validAt {c' : Client} {unlinked : Bool} (h : ClosedAt w c c' unlinked)
    (hc : c.ValidAt w) : c'.ValidAt w := by
  have hgone : c'.sessions.lookup w = none →
      (w ∈ c'.thyInit.createdFiles → w ∉ thysPool ∧ (c'.thyInit.files.lookup w).isSome) →
      c'.ValidAt w := by
    intro hlookup hexists
    constructor
    · intro info v hinfo
      rw [hlookup] at hinfo
      cases hinfo
    · exact fun howns => absurd howns (not_owns_of_lookup hlookup)
    · exact hexists
  cases h with
  | absent hlookup hsame => exact hsame.validAt hc
  | kept hcreated hfile hlookup hfailed =>
    apply hgone hlookup
    rw [hcreated, hfile]
    exact hc.exists_file
  | deleted howns hpool hdeleted hlookup =>
    exact hgone hlookup fun hcreated => absurd hcreated hdeleted

theorem ClosedAt.of_sameAt {c' c'' c₀ : Client} {unlinked : Bool} (hfirst : SameAt w c₀ c)
    (h : ClosedAt w c c' unlinked) (hlast : SameAt w c' c'') : ClosedAt w c₀ c'' unlinked := by
  cases h with
  | absent hlookup hsame =>
    exact .absent (hfirst.session.symm.trans hlookup) ((hfirst.trans hsame).trans hlast)
  | kept hcreated hfile hlookup hfailed =>
    refine .kept ?_ ?_ (hlast.session.trans hlookup) (hfailed ∘ hfirst.owns_iff.mpr)
    · rw [hlast.created, hcreated, hfirst.created]
    · rw [hlast.file, hfile, hfirst.file]
  | deleted howns hpool hdeleted hlookup =>
    exact .deleted (hfirst.owns_iff.mp howns) hpool (hdeleted ∘ hlast.created.mp)
      (hlast.session.trans hlookup)

theorem ClosedAt.lookup {c' : Client} {unlinked : Bool} (h : ClosedAt w c c' unlinked) :
    c'.sessions.lookup w = none := by
  cases h with
  | absent hlookup hsame => exact hsame.session.trans hlookup
  | kept _ _ hlookup _ => exact hlookup
  | deleted _ _ _ hlookup => exact hlookup

theorem closeSession_names (hc : ∀ w, c.ValidAt w) (sessionId : Text) (unlinked : Bool) (w : Text) :
    (c.closeSession sessionId unlinked).ValidAt w := by
  by_cases h : w = sessionId
  · subst h
    exact (closeSession_cases (hc w) unlinked).validAt (hc w)
  · exact (closeSession_sameAt (hc sessionId) h unlinked).validAt (hc w)

theorem closeAll_names (unlinked : Text → Bool) {c : Client} (hc : ∀ w, c.ValidAt w)
    (sessionIds : List Text) : ∀ w, (c.closeAll unlinked sessionIds).ValidAt w := by
  induction sessionIds generalizing c with
  | nil => exact hc
  | cons sessionId sessionIds ih => exact ih (closeSession_names hc sessionId (unlinked sessionId))

theorem closeSession_of_absent (h : c.sessions.lookup w = none) (unlinked : Bool) :
    c.closeSession w unlinked = c := by
  unfold closeSession
  rw [h]

theorem closeAll_sameAt (unlinked : Text → Bool) {c : Client} (hc : ∀ w, c.ValidAt w)
    (h : c.sessions.lookup w = none) (sessionIds : List Text) :
    SameAt w c (c.closeAll unlinked sessionIds) := by
  induction sessionIds generalizing c with
  | nil => exact .refl
  | cons sessionId sessionIds ih =>
    have hstep : SameAt w c (c.closeSession sessionId (unlinked sessionId)) := by
      by_cases hw : w = sessionId
      · subst hw
        rw [closeSession_of_absent h]
        exact .refl
      · exact closeSession_sameAt (hc sessionId) hw (unlinked sessionId)
    exact hstep.trans (ih (closeSession_names hc sessionId _) (hstep.session.trans h))

/-- Among others, a session ends as it does alone. -/
theorem closeAll_cases (unlinked : Text → Bool) {c : Client} (hc : ∀ w, c.ValidAt w)
    {sessionIds : List Text} (h : w ∈ sessionIds) :
    ClosedAt w c (c.closeAll unlinked sessionIds) (unlinked w) := by
  induction sessionIds generalizing c with
  | nil => cases h
  | cons sessionId sessionIds ih =>
    by_cases hw : w = sessionId
    · subst hw
      have hclosed := closeSession_cases (hc w) (unlinked w)
      exact hclosed.of_sameAt .refl
        (closeAll_sameAt unlinked (closeSession_names hc w _) hclosed.lookup sessionIds)
    · have hrest := (List.mem_cons.mp h).resolve_left hw
      exact (ih (closeSession_names hc sessionId _) hrest).of_sameAt
        (closeSession_sameAt (hc sessionId) hw _) .refl

theorem createSession_currentOpen (h : c.CurrentOpen) (sessionId : Text)
    (initialThys : Option (List (Option Text))) (write : FileWrite) (backend : Option ℕ) :
    (c.createSession sessionId initialThys write backend).CurrentOpen := by
  unfold createSession
  dsimp only
  split
  · exact h
  · split
    · exact h
    · intro current hcurrent
      by_cases hsession : current = sessionId
      · rw [hsession]
        exact Option.isSome_of_eq_some Dict.lookup_put_self
      · dsimp only at hcurrent ⊢
        rw [Dict.lookup_put_of_ne hsession]
        cases hold : c.currentSessionId with
        | none =>
          rw [hold] at hcurrent
          exact absurd (Option.some.inj hcurrent).symm hsession
        | some old =>
          rw [hold] at hcurrent
          exact h current (hold.trans hcurrent)

theorem closeSession_currentOpen (h : c.CurrentOpen) (sessionId : Text) (unlinked : Bool) :
    (c.closeSession sessionId unlinked).CurrentOpen := by
  unfold closeSession
  split
  · exact h
  · intro current hcurrent
    dsimp only at hcurrent ⊢
    split_ifs at hcurrent with hsession
    have hne : current ≠ sessionId := by
      rintro rfl
      exact hsession hcurrent
    rw [Dict.lookup_del_of_ne hne]
    exact h current hcurrent

theorem closeAll_currentOpen (unlinked : Text → Bool) (h : c.CurrentOpen)
    (sessionIds : List Text) : (c.closeAll unlinked sessionIds).CurrentOpen := by
  induction sessionIds generalizing c with
  | nil => exact h
  | cons sessionId sessionIds ih => exact ih (closeSession_currentOpen h sessionId _)

theorem useMultiSession_createSession (initialThys : Option (List (Option Text)))
    (write : FileWrite) (backend : Option ℕ) :
    (c.createSession sessionId initialThys write backend).useMultiSession = c.useMultiSession := by
  unfold createSession
  dsimp only
  split
  · rfl
  · split <;> rfl

theorem useMultiSession_closeAll (unlinked : Text → Bool) (sessionIds : List Text) :
    (c.closeAll unlinked sessionIds).useMultiSession = c.useMultiSession := by
  induction sessionIds generalizing c with
  | nil => rfl
  | cons sessionId sessionIds ih =>
    refine (ih (c := c.closeSession sessionId (unlinked sessionId))).trans ?_
    unfold closeSession
    split <;> rfl

theorem cleanup_initial_sameAt {v : Text} (h : w ≠ v) (unlinked : Bool) :
    SameAt w c { c with thyInit := (c.thyInit.cleanup v unlinked).2 } := by
  obtain ⟨hcreated, hfile⟩ := c.thyInit.cleanup_of_ne unlinked h
  exact ⟨c.thyInit.template_cleanup unlinked, hcreated, hfile, rfl⟩

theorem cleanup_initial_validAt (hc : c.ValidAt w) (hsessions : c.sessions = []) (v : Text)
    (unlinked : Bool) : ValidAt { c with thyInit := (c.thyInit.cleanup v unlinked).2 } w := by
  by_cases h : w = v
  · subst h
    obtain ⟨hsame, _⟩ | ⟨_, hdeleted, _⟩ := c.thyInit.cleanup_cases w unlinked
    · exact hc.of_eq hsame rfl
    · have hlookup : c.sessions.lookup w = none := by
        rw [hsessions]
        rfl
      exact ⟨hc.wrapper, fun howns => absurd howns (not_owns_of_lookup hlookup),
        fun hcreated => absurd hcreated hdeleted⟩
  · exact (cleanup_initial_sameAt h unlinked).validAt hc

theorem releaseWrappers_valid (h : c.Valid) (unlinked : Text → Bool) :
    (c.releaseWrappers unlinked).Valid := by
  obtain ⟨hnames, hcurrent, hsingle⟩ := h
  unfold releaseWrappers
  split_ifs with hmulti
  · refine ⟨closeAll_names unlinked hnames _, closeAll_currentOpen unlinked hcurrent _, ?_⟩
    intro hfalse
    rw [useMultiSession_closeAll, hmulti] at hfalse
    cases hfalse
  · have hsessions := hsingle (by simpa using hmulti)
    split
    · exact ⟨hnames, hcurrent, hsingle⟩
    · exact ⟨fun w => cleanup_initial_validAt (hnames w) hsessions _ _, hcurrent, hsingle⟩

theorem Valid.terminated (h : c.Valid) (terminated : Bool) : { c with terminated }.Valid :=
  ⟨fun w => (h.names w).of_eq rfl rfl, h.current, h.single⟩

theorem step_valid (h : c.Valid) (event : Event) : (c.step event).Valid := by
  cases event with
  | createSession sessionId initialThys write backend =>
    rw [step]
    split_ifs with hmulti
    · refine ⟨fun w => ?_, createSession_currentOpen h.current sessionId initialThys write backend,
        fun hfalse => ?_⟩
      · by_cases hw : w = sessionId
        · subst hw
          exact (createSession_cases c w initialThys write backend).validAt (h.names w)
        · exact (createSession_sameAt hw initialThys write backend).validAt (h.names w)
      · rw [useMultiSession_createSession, hmulti] at hfalse
        cases hfalse
    · exact h
  | switchSession sessionId =>
    rw [step]
    split_ifs
    · unfold switchSession
      split_ifs with hopen
      · refine ⟨fun w => (h.names w).of_eq rfl rfl, ?_, h.single⟩
        intro current hcurrent
        rw [← Option.some.inj hcurrent]
        exact hopen
      · exact h
    · exact h
  | closeSession sessionId unlinked =>
    rw [step]
    split_ifs with hmulti
    · refine ⟨closeSession_names h.names sessionId unlinked,
        closeSession_currentOpen h.current sessionId unlinked, fun hfalse => ?_⟩
      have hkept := (useMultiSession_closeAll (c := c) (fun _ => unlinked) [sessionId]).trans hmulti
      exact absurd (hkept.symm.trans hfalse) (by decide)
    · exact h
  | cleanup unlinked gatewayTerminated =>
    rw [step, cleanup]
    split_ifs
    · exact h
    · exact (releaseWrappers_valid h unlinked).terminated gatewayTerminated
  | gatewayDied => exact h.terminated true

theorem closeAll_sessions (hc : ∀ w, c.ValidAt w) (unlinked : Text → Bool) (w : Text) :
    ClosedAt w c (c.closeAll unlinked (c.sessions.map Prod.fst)) (unlinked w) := by
  cases h : c.sessions.lookup w with
  | none => exact .absent h (closeAll_sameAt unlinked hc h _)
  | some info =>
    exact closeAll_cases unlinked hc (List.mem_map_of_mem (Dict.mem_of_lookup h))

end Client

end ClientSessions
end IsabelleGym
