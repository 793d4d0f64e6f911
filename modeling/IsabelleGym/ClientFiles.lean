import IsabelleGym.ClientSessions
import IsabelleGym.Runs

/-!
# The files that a client leaves behind

A tracked file of no open session is an orphan, and a wrapper that is not the one
for the theories its session was opened with is stale. For each of the two a step
is known to start it, to stop it, or to leave it as it is, and so is a run.
-/

namespace IsabelleGym
namespace ClientSessions
namespace Client

variable {c : Client} {w : Text}

/-- A tracked file of no open session. -/
def Orphan (w : Text) (c : Client) : Prop := w ∈ c.thyInit.createdFiles ∧ ¬c.Owns w

/-- The wrapper of an open session that is not the one for its theories. -/
def Stale (w : Text) (c : Client) : Prop :=
  w ∉ thysPool ∧ ∃ info, c.sessions.lookup w = some info ∧ info.wrapperName = some w ∧
    c.thyInit.files.lookup w ≠ some (c.thyInit.generateThyFile info.sessionTheories w)

/-- The steps that leave an orphan: a backend that does not start behind a new wrapper, a session
opened again without theories, and a wrapper that cannot be deleted. -/
def Leaks (w : Text) (c : Client) : Event → Prop
  | .createSession sessionId initialThys write backend =>
    c.useMultiSession = true ∧ w = sessionId ∧ w ∉ thysPool ∧
      (c.theoriesOf initialThys ≠ [] ∧ write = .done ∧ backend = none ∧ ¬c.Owns w ∨
        c.theoriesOf initialThys = [] ∧ backend ≠ none ∧ c.Owns w)
  | .closeSession sessionId unlinked =>
    c.useMultiSession = true ∧ w = sessionId ∧ w ∉ thysPool ∧ c.Owns w ∧ unlinked = false
  | .cleanup unlinked _ =>
    c.useMultiSession = true ∧ c.terminated = false ∧ w ∉ thysPool ∧ c.Owns w ∧
      unlinked w = false
  | _ => False

/-- The steps after which an orphan belongs to a session or is gone. -/
def Adopts (w : Text) (c : Client) : Event → Prop
  | .createSession sessionId initialThys write backend =>
    c.useMultiSession = true ∧ w = sessionId ∧ c.theoriesOf initialThys ≠ [] ∧ write = .done ∧
      backend ≠ none
  | .cleanup unlinked _ =>
    c.useMultiSession = false ∧ c.terminated = false ∧ c.initialWrapperName = some w ∧
      unlinked w = true
  | _ => False

/-- The steps that leave a stale wrapper: another content for an open session that is not opened
again. -/
def Spoils (w : Text) (c : Client) : Event → Prop
  | .createSession sessionId initialThys write backend =>
    c.useMultiSession = true ∧ w = sessionId ∧ w ∉ thysPool ∧ c.theoriesOf initialThys ≠ [] ∧
      (write ≠ .done ∨ backend = none) ∧
      ∃ info content, c.sessions.lookup w = some info ∧ info.wrapperName = some w ∧
        write.written (c.thyInit.generateThyFile (c.theoriesOf initialThys) w) = some content ∧
        content ≠ c.thyInit.generateThyFile info.sessionTheories w
  | _ => False

def Touches (w : Text) (c : Client) : Event → Prop
  | .createSession sessionId initialThys write backend =>
    c.useMultiSession = true ∧ w = sessionId ∧
      (c.theoriesOf initialThys = [] ∧ backend ≠ none ∨
        c.theoriesOf initialThys ≠ [] ∧ write ≠ .failed none)
  | .closeSession sessionId _ => c.useMultiSession = true ∧ w = sessionId
  | .cleanup _ _ => c.useMultiSession = true ∧ c.terminated = false
  | _ => False

theorem SameAt.orphan_iff {c' : Client} (h : SameAt w c c') : Orphan w c' ↔ Orphan w c := by
  rw [Orphan, Orphan, h.created, h.owns_iff]

theorem owns_of_lookup {info : SessionInfo} (h : c.sessions.lookup w = some info) :
    c.Owns w ↔ info.wrapperName = some w := by
  constructor
  · rintro ⟨info', hinfo, hwrapper⟩
    rw [h] at hinfo
    cases hinfo
    exact hwrapper
  · exact fun hwrapper => ⟨info, h, hwrapper⟩

theorem CreatedAt.orphan_iff {thys : List Text} {c' : Client} {write : FileWrite}
    {backend : Option ℕ} (h : CreatedAt w thys c c' write backend) (hc : c.ValidAt w) :
    Orphan w c' ↔
      (w ∉ thysPool ∧ (thys ≠ [] ∧ write = .done ∧ backend = none ∧ ¬c.Owns w ∨
        thys = [] ∧ backend ≠ none ∧ c.Owns w)) ∨
      Orphan w c ∧ ¬(thys ≠ [] ∧ write = .done ∧ backend ≠ none) := by
  have hpool : w ∈ c.thyInit.createdFiles → w ∉ thysPool := fun h => (hc.exists_file h).1
  have htracked := hc.tracked
  cases h with
  | bare hnil hT hinfo =>
    obtain ⟨info, hlookup, hwrapper⟩ := hinfo
    have howns : ¬c'.Owns w := by simp [owns_of_lookup hlookup, hwrapper]
    simp only [Orphan, hT, howns, hnil]
    tauto
  | pooled hne hin hT hinfo =>
    obtain ⟨info, hlookup, hwrapper⟩ := hinfo
    have howns : c'.Owns w := (owns_of_lookup hlookup).mpr hwrapper
    simp only [Orphan, hT, howns]
    tauto
  | started hne hnot hcreated hfile hinfo =>
    obtain ⟨info, hlookup, hwrapper, _⟩ := hinfo
    have howns : c'.Owns w := (owns_of_lookup hlookup).mpr hwrapper
    simp only [Orphan, howns]
    simp [hne]
  | unstarted hne hnot hcreated hfile htemplate hsessions =>
    simp only [Orphan, Owns, hsessions, hcreated]
    simp [hne, hnot]
  | broken hne hnot hcreated hfile htemplate hsessions =>
    simp only [Orphan, Owns, hsessions, hcreated]
    simp [hne]
  | unwritten hne hnot hsame =>
    rw [hsame.orphan_iff]
    simp [hne]
  | refused hkept hsame =>
    rw [hsame.orphan_iff]
    simp
    tauto

theorem ClosedAt.orphan_iff {c' : Client} {unlinked : Bool} (h : ClosedAt w c c' unlinked)
    (hc : c.ValidAt w) :
    Orphan w c' ↔ (w ∉ thysPool ∧ c.Owns w ∧ unlinked = false) ∨ Orphan w c := by
  have hpool : w ∈ c.thyInit.createdFiles → w ∉ thysPool := fun h => (hc.exists_file h).1
  have htracked := hc.tracked
  have howns := not_owns_of_lookup h.lookup
  cases h with
  | absent hlookup hsame =>
    rw [hsame.orphan_iff]
    simp [not_owns_of_lookup hlookup]
  | kept hcreated hfile hlookup hfailed =>
    simp only [Orphan, hcreated, howns]
    tauto
  | deleted hopen hnot hdeleted hlookup =>
    simp [Orphan, hdeleted, hopen]

theorem cleanup_orphan_iff (h : c.Valid) (unlinked : Text → Bool) (gatewayTerminated : Bool)
    (w : Text) :
    Orphan w (c.cleanup unlinked gatewayTerminated) ↔
      Leaks w c (.cleanup unlinked gatewayTerminated) ∨
        Orphan w c ∧ ¬Adopts w c (.cleanup unlinked gatewayTerminated) := by
  rw [cleanup]
  split_ifs with hterminated
  · simp [Leaks, Adopts, hterminated]
  · have hrelease : Orphan w { c.releaseWrappers unlinked with terminated := gatewayTerminated } ↔
        Orphan w (c.releaseWrappers unlinked) := (SameAt.of_eq rfl rfl).orphan_iff
    rw [hrelease, releaseWrappers]
    split_ifs with hmulti
    · rw [(closeAll_sessions h.names unlinked w).orphan_iff (h.names w)]
      simp [Leaks, Adopts, hmulti, hterminated]
    · have hsingle : c.useMultiSession = false := by simpa using hmulti
      have howns : ¬c.Owns w := by
        apply not_owns_of_lookup
        rw [h.single hsingle]
        rfl
      split
      · rename_i hinitial
        simp [Leaks, Adopts, hsingle, hinitial]
      · rename_i v hinitial
        by_cases hv : w = v
        · subst hv
          have hexists := (h.names w).exists_file
          simp only [Orphan, Leaks, Adopts, hsingle, hinitial]
          obtain ⟨hsame, hfailed⟩ | ⟨hcreated, hdeleted, hunlinked⟩ :=
            c.thyInit.cleanup_cases w (unlinked w)
          · rw [hsame]
            simp only [Bool.not_eq_true] at hterminated
            constructor
            · rintro ⟨hcreated, hfree⟩
              have hkept := hfailed hcreated (hexists hcreated).1
              exact Or.inr ⟨⟨hcreated, howns⟩, by simp [hkept]⟩
            · rintro (⟨hfalse, _⟩ | ⟨⟨hcreated, _⟩, _⟩)
              · cases hfalse
              · exact ⟨hcreated, howns⟩
          · rw [hunlinked (hexists hcreated).2] at hdeleted ⊢
            simp [hdeleted, hterminated]
        · rw [(cleanup_initial_sameAt hv (unlinked v)).orphan_iff]
          have hne : ¬v = w := fun heq => hv heq.symm
          simp [Leaks, Adopts, hsingle, hinitial, hne]

theorem switchSession_sameAt (sessionId : Text) :
    SameAt w c (c.step (.switchSession sessionId)) := by
  rw [step]
  unfold switchSession
  split_ifs
  · exact .of_eq rfl rfl
  · exact .refl
  · exact .refl

theorem step_orphan_iff (h : c.Valid) (event : Event) (w : Text) :
    Orphan w (c.step event) ↔ Leaks w c event ∨ Orphan w c ∧ ¬Adopts w c event := by
  cases event with
  | createSession sessionId initialThys write backend =>
    rw [step]
    split_ifs with hmulti
    · by_cases hw : w = sessionId
      · subst hw
        rw [(createSession_cases c w initialThys write backend).orphan_iff (h.names w)]
        simp [Leaks, Adopts, hmulti]
      · rw [(createSession_sameAt hw initialThys write backend).orphan_iff]
        simp [Leaks, Adopts, hw]
    · simp [Leaks, Adopts, hmulti]
  | switchSession sessionId =>
    rw [(switchSession_sameAt sessionId).orphan_iff]
    simp [Leaks, Adopts]
  | closeSession sessionId unlinked =>
    rw [step]
    split_ifs with hmulti
    · by_cases hw : w = sessionId
      · subst hw
        rw [(closeSession_cases (h.names w) unlinked).orphan_iff (h.names w)]
        simp [Leaks, Adopts, hmulti]
      · rw [(closeSession_sameAt (h.names sessionId) hw unlinked).orphan_iff]
        simp [Leaks, Adopts, hw]
    · simp [Leaks, Adopts, hmulti]
  | cleanup unlinked gatewayTerminated => exact cleanup_orphan_iff h unlinked gatewayTerminated w
  | gatewayDied =>
    have hsame : SameAt w c (c.step .gatewayDied) := .of_eq rfl rfl
    rw [hsame.orphan_iff]
    simp [Leaks, Adopts]

section Stale

theorem SameAt.stale_iff {c' : Client} (h : SameAt w c c') : Stale w c' ↔ Stale w c := by
  rw [Stale, Stale, h.session, h.file, ThyInit.generateThyFile_congr h.template]

theorem CreatedAt.stale_iff {thys : List Text} {c' : Client} {write : FileWrite}
    {backend : Option ℕ} (h : CreatedAt w thys c c' write backend) :
    Stale w c' ↔
      (w ∉ thysPool ∧ thys ≠ [] ∧ (write ≠ .done ∨ backend = none) ∧
        ∃ info content, c.sessions.lookup w = some info ∧ info.wrapperName = some w ∧
          write.written (c.thyInit.generateThyFile thys w) = some content ∧
          content ≠ c.thyInit.generateThyFile info.sessionTheories w) ∨
      Stale w c ∧ ¬(thys = [] ∧ backend ≠ none ∨ thys ≠ [] ∧ write ≠ .failed none) := by
  cases h with
  | bare hnil hT hinfo =>
    obtain ⟨info, hlookup, hwrapper⟩ := hinfo
    simp [Stale, hlookup, hwrapper, hnil]
  | pooled hne hin hT hinfo => simp [Stale, hin]
  | started hne hnot hcreated hfile hinfo =>
    obtain ⟨info, hlookup, hwrapper, htheories⟩ := hinfo
    simp [Stale, hlookup, hfile, htheories, hne]
  | unstarted hne hnot hcreated hfile htemplate hsessions =>
    rw [Stale, hfile, hsessions, ThyInit.generateThyFile_congr htemplate]
    simp [FileWrite.written, hne]
  | broken hne hnot hcreated hfile htemplate hsessions =>
    rw [Stale, hfile, hsessions, ThyInit.generateThyFile_congr htemplate]
    simp [FileWrite.written, hne]
  | unwritten hne hnot hsame =>
    rw [hsame.stale_iff]
    simp [FileWrite.written, hne]
  | refused hkept hsame =>
    rw [hsame.stale_iff]
    rcases hkept with hnil | hpool
    · simp [hnil]
    · simp [Stale, hpool]

theorem ClosedAt.not_stale {c' : Client} {unlinked : Bool} (h : ClosedAt w c c' unlinked) :
    ¬Stale w c' := by
  rintro ⟨_, info, hlookup, _⟩
  rw [h.lookup] at hlookup
  cases hlookup

theorem step_stale_iff (h : c.Valid) (event : Event) (w : Text) :
    Stale w (c.step event) ↔ Spoils w c event ∨ Stale w c ∧ ¬Touches w c event := by
  cases event with
  | createSession sessionId initialThys write backend =>
    rw [step]
    split_ifs with hmulti
    · by_cases hw : w = sessionId
      · subst hw
        rw [(createSession_cases c w initialThys write backend).stale_iff]
        simp [Spoils, Touches, hmulti]
      · rw [(createSession_sameAt hw initialThys write backend).stale_iff]
        simp [Spoils, Touches, hw]
    · simp [Spoils, Touches, hmulti]
  | switchSession sessionId =>
    rw [(switchSession_sameAt sessionId).stale_iff]
    simp [Spoils, Touches]
  | closeSession sessionId unlinked =>
    rw [step]
    split_ifs with hmulti
    · by_cases hw : w = sessionId
      · subst hw
        have hclosed := (closeSession_cases (h.names w) unlinked).not_stale
        simp [Spoils, Touches, hmulti, hclosed]
      · rw [(closeSession_sameAt (h.names sessionId) hw unlinked).stale_iff]
        simp [Spoils, Touches, hw]
    · simp [Spoils, Touches, hmulti]
  | cleanup unlinked gatewayTerminated =>
    rw [step, cleanup]
    split_ifs with hterminated
    · simp [Spoils, Touches, hterminated]
    · have hrelease : Stale w { c.releaseWrappers unlinked with terminated := gatewayTerminated } ↔
          Stale w (c.releaseWrappers unlinked) := (SameAt.of_eq rfl rfl).stale_iff
      rw [hrelease]
      cases hmulti : c.useMultiSession with
      | true =>
        have hclosed := (closeAll_sessions h.names unlinked w).not_stale
        simp [Spoils, Touches, hmulti, hterminated, releaseWrappers, hclosed]
      | false =>
        have hnone : ∀ c' : Client, c'.sessions = c.sessions → ¬Stale w c' := by
          rintro c' hsessions ⟨_, info, hlookup, _⟩
          rw [hsessions, h.single hmulti] at hlookup
          cases hlookup
        have hreleased : (c.releaseWrappers unlinked).sessions = c.sessions := by
          rw [releaseWrappers, if_neg (by simp [hmulti])]
          split <;> rfl
        simp [Spoils, hnone _ hreleased, hnone c rfl]
  | gatewayDied =>
    have hsame : SameAt w c (c.step .gatewayDied) := .of_eq rfl rfl
    rw [hsame.stale_iff]
    simp [Spoils, Touches]

end Stale

section Runs

variable {template : Text} {files : Dict Text Text} {initialThys : List (Option Text)}
  {useMultiSession : Bool} {write : FileWrite} {backendStarted : Bool}

theorem make_cases
    (h : Client.make template files initialThys useMultiSession write backendStarted = some c) :
    c.sessions = [] ∧ c.currentSessionId = none ∧
      ((normalizeTheories initialThys = [] ∧ c.initialWrapperName = none ∧
          c.thyInit.createdFiles = ∅) ∨
        normalizeTheories initialThys ≠ [] ∧ c.initialWrapperName = some "main".toList ∧
          c.thyInit.createdFiles = {"main".toList} ∧
          (c.thyInit.files.lookup "main".toList).isSome) := by
  have hmain : "main".toList ∉ thysPool := by decide
  unfold Client.make buildLoadedTheories ThyInit.genFile at h
  by_cases hempty : (normalizeTheories initialThys).isEmpty = true
  · simp only [if_pos hempty] at h
    split_ifs at h
    cases h
    exact ⟨rfl, rfl, Or.inl ⟨List.isEmpty_iff.mp hempty, rfl, rfl⟩⟩
  · simp only [if_neg hempty, if_neg hmain] at h
    match write with
    | .failed none => cases h
    | .failed (some _) => cases h
    | .done =>
      dsimp only at h
      split_ifs at h
      cases h
      refine ⟨rfl, rfl, Or.inr ⟨fun hnil => hempty (List.isEmpty_iff.mpr hnil), rfl, rfl, ?_⟩⟩
      exact Option.isSome_of_eq_some Dict.lookup_put_self

theorem make_valid
    (h : Client.make template files initialThys useMultiSession write backendStarted = some c) :
    c.Valid := by
  obtain ⟨hsessions, hcurrent, hcreated⟩ := make_cases h
  have hlookup : ∀ w, c.sessions.lookup w = none := by
    intro w
    rw [hsessions]
    rfl
  refine ⟨fun w => ⟨?_, fun howns => absurd howns (not_owns_of_lookup (hlookup w)), ?_⟩, ?_,
    fun _ => hsessions⟩
  · intro info v hinfo
    rw [hlookup w] at hinfo
    cases hinfo
  · intro hin
    obtain ⟨_, _, hnone⟩ | ⟨_, _, hsingle, hfile⟩ := hcreated
    · rw [hnone] at hin
      exact absurd hin (Finset.notMem_empty w)
    · rw [hsingle, Finset.mem_singleton] at hin
      rw [hin]
      exact ⟨by decide, hfile⟩
  · intro sessionId hsome
    rw [hcurrent] at hsome
    cases hsome

theorem run_valid (h : c.Valid) (events : List Event) : (c.run events).Valid := by
  induction events generalizing c with
  | nil => exact h
  | cons event events ih => exact ih (step_valid h event)

theorem getCurrentSession_ne (h : c.Valid) : c.getCurrentSession ≠ .error "KeyError" := by
  unfold getCurrentSession
  split_ifs
  · exact fun heq => absurd (Except.error.inj heq) (by decide)
  · split
    · exact fun heq => absurd (Except.error.inj heq) (by decide)
    · rename_i sessionId hcurrent
      have hopen := h.current sessionId hcurrent
      split
      · rename_i hnone
        rw [hnone] at hopen
        cases hopen
      · exact fun heq => nomatch heq

/-- In every run, whatever fails on its way, the current session is open and each wrapper is a
tracked file that exists or a theory of the pool. It is stale exactly when another content was
written for it behind the opening of its session, and nothing has been written, opened or closed
at its name since. -/
theorem run_wrappers
    (h : Client.make template files initialThys useMultiSession write backendStarted = some c)
    (events : List Event) :
    (c.run events).Valid ∧ (c.run events).getCurrentSession ≠ .error "KeyError" ∧
      ∀ w, Stale w (c.run events) ↔ Runs.Since step (Spoils w) (Touches w) c events := by
  have hvalid := make_valid h
  refine ⟨run_valid hvalid events, getCurrentSession_ne (run_valid hvalid events), fun w => ?_⟩
  have hfresh : ¬Stale w c := by
    rintro ⟨_, info, hlookup, _⟩
    rw [(make_cases h).1] at hlookup
    cases hlookup
  rw [run, Runs.iff_since (fun c event hc => step_valid hc event)
    (fun c event hc => step_stale_iff hc event w) hvalid events]
  simp [hfresh]

/-- A session that cannot be opened again has lost its wrapper to the attempt. -/
theorem stale_reopened :
    Stale "a".toList
      (run { thyInit := { template := initThy, files := [] }
             useMultiSession := true
             defaultSessionTheories := []
             initialWrapperName := none }
        [.createSession "a".toList (some [some "Main".toList]) .done (some 0),
          .createSession "a".toList (some [some "Complex_Main".toList]) .done none]) := by
  refine ((@run_wrappers _ _ _ [] _ .done true rfl _).2.2 "a".toList).mpr ?_
  refine Or.inr (Or.inl ⟨⟨rfl, rfl, by decide, by decide +kernel, Or.inr rfl, ?_⟩, trivial⟩)
  exact ⟨_, _, rfl, rfl, rfl, by decide +kernel⟩

/-- A tracked file belongs to no open session exactly when a step has leaked it and no step has
adopted it since, or it is the wrapper of the constructor that no step has adopted. -/
theorem run_orphan_iff
    (h : Client.make template files initialThys useMultiSession write backendStarted = some c)
    (events : List Event) (w : Text) :
    Orphan w (c.run events) ↔
      c.initialWrapperName = some w ∧
        Runs.EveryStep step (fun c event => ¬Adopts w c event) c events ∨
      Runs.Since step (Leaks w) (Adopts w) c events := by
  have hstart : Orphan w c ↔ c.initialWrapperName = some w := by
    obtain ⟨hsessions, _, hcreated⟩ := make_cases h
    have howns : ¬c.Owns w := by
      apply not_owns_of_lookup
      rw [hsessions]
      rfl
    obtain ⟨_, hinitial, hnone⟩ | ⟨_, hinitial, hmain, _⟩ := hcreated
    · simp [Orphan, hnone, hinitial]
    · rw [Orphan, hmain, hinitial, Finset.mem_singleton, Option.some.injEq]
      exact ⟨fun horphan => horphan.1.symm, fun heq => ⟨heq.symm, howns⟩⟩
  rw [run, Runs.iff_since (fun c event hc => step_valid hc event)
    (fun c event hc => step_orphan_iff hc event w) (make_valid h) events, hstart]

/-- The wrapper of a session whose backend does not start is left behind. -/
theorem orphan_unstarted :
    Orphan "a".toList
      (run { thyInit := { template := initThy, files := [] }
             useMultiSession := true
             defaultSessionTheories := []
             initialWrapperName := none }
        [.createSession "a".toList (some [some "Main".toList]) .done none]) := by
  refine (@run_orphan_iff _ _ _ [] _ .done true rfl _ _).mpr (Or.inr (Or.inl ⟨?_, trivial⟩))
  refine ⟨rfl, rfl, by decide, Or.inl ⟨by decide +kernel, rfl, rfl, ?_⟩⟩
  exact not_owns_of_lookup rfl

end Runs

end Client

end ClientSessions
end IsabelleGym
