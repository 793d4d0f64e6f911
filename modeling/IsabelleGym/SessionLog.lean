import IsabelleGym.Runs
import IsabelleGym.ServerSteps

/-!
# What was completed on a session

The backend of a session and the length of its history are both summaries of
what was completed on the session, but of different parts of it: the backend of
the functions the worker ran, and the history of the commands the session
methods recorded. The log lists both, and determines both.
-/

namespace IsabelleGym

inductive Done (F : Type)
  | created
  | ran (fn : F)
  | resetBookkeeping
  | appendHistory

/-- What was completed, the latest first. -/
abbrev SessionLog (F : Type) := List (SessionId × Done F)

namespace SessionLog

variable {F L : Type}

def onSession (sid : SessionId) (log : SessionLog F) : List (Done F) :=
  log.filterMap fun entry => if entry.1 = sid then some entry.2 else none

@[simp] theorem onSession_nil (sid : SessionId) : onSession sid ([] : SessionLog F) = [] := rfl

@[simp] theorem onSession_cons_self (sid : SessionId) (d : Done F) (log : SessionLog F) :
    onSession sid ((sid, d) :: log) = d :: onSession sid log := by
  simp [onSession]

theorem onSession_cons_of_ne {sid n : SessionId} (hn : n ≠ sid) (d : Done F)
    (log : SessionLog F) : onSession sid ((n, d) :: log) = onSession sid log := by
  simp [onSession, hn]

def backend (B : BackendApi F L) : List (Done F) → L
  | [] => B.create
  | .created :: _ => B.create
  | .ran fn :: log => B.run fn (backend B log)
  | .resetBookkeeping :: log => backend B log
  | .appendHistory :: log => backend B log

/-- A command was recorded since the history was last empty. -/
def recorded : List (Done F) → Bool
  | [] => false
  | .created :: _ => false
  | .ran _ :: log => recorded log
  | .resetBookkeeping :: _ => false
  | .appendHistory :: _ => true

end SessionLog

/-- The entry of the next bookkeeping instruction of a request. -/
def Call.bookkept {F : Type} (c : Call F) : Option (SessionId × Done F) :=
  match c.phase, c.body with
  | .ready, .resetBookkeeping :: _ =>
    if c.accounting = .pending then none else some (c.session, .resetBookkeeping)
  | .ready, .appendHistory _ :: _ =>
    if c.accounting = .pending then none else some (c.session, .appendHistory)
  | _, _ => none

namespace Server

variable {F L : Type} (B : BackendApi F L) (s : Server F L)

def completed : Event F → SessionLog F
  | .createSession sid _ _ =>
    if s.leaseEnd.isSome || (s.sessions sid).isSome then [] else [(sid, .created)]
  | .finishJob sid _ =>
    ((s.sessions sid).bind Session.running).toList.map fun job => (sid, .ran job.fn)
  | .bookkeep i => (s.calls[i]?.bind Call.bookkept).toList
  | _ => []

def loggedStep : Server F L × SessionLog F → Event F → Server F L × SessionLog F :=
  Runs.logged (Server.step B) completed

variable {s}

/-- Every session has the backend and a history as its log describes them. -/
def Explained (s : Server F L) (log : SessionLog F) : Prop :=
  ∀ sid x, s.sessions sid = some x →
    x.backend = SessionLog.backend B (log.onSession sid) ∧
      x.commandHistory.isEmpty = !SessionLog.recorded (log.onSession sid)

theorem explained_initial (poolSize : ℕ) : Explained B ({ poolSize } : Server F L) [] := by
  intro sid x hx
  cases hx

def SameBooks (s s' : Server F L) : Prop :=
  ∀ sid x', s'.sessions sid = some x' →
    ∃ x, s.sessions sid = some x ∧ x'.backend = x.backend ∧
      x'.commandHistory = x.commandHistory

theorem sameBooks_of_sessions {s' : Server F L} (h : s'.sessions = s.sessions) :
    SameBooks s s' := by
  intro sid x' hx'
  exact ⟨x', h ▸ hx', rfl, rfl⟩

/-- Only three events complete something. -/
theorem sameBooks_step {e : Event F} (hcreate : ∀ sid lease key, e ≠ .createSession sid lease key)
    (hbook : ∀ i, e ≠ .bookkeep i) (hfinish : ∀ sid raises, e ≠ .finishJob sid raises) :
    SameBooks s (s.step B e) := by
  intro n x' hx'
  have hstep := sessions_step B s e
  generalize (s.step B e).sessions = sessions' at hx' hstep
  cases hstep with
  | same => exact ⟨x', hx', rfl, rfl⟩
  | create he _ => exact absurd he (hcreate _ _ _)
  | @change sid x y hx hchange =>
    by_cases hn : n = sid
    · subst hn
      obtain rfl : y = x' := by simpa using hx'
      refine ⟨x, hx, ?_⟩
      cases hchange with
      | bookkeep i _ => exact absurd rfl (hbook i)
      | finishJob raises _ => exact absurd rfl (hfinish _ raises)
      | _ => exact ⟨rfl, rfl⟩
    · exact ⟨x', by simpa [Function.update_of_ne hn] using hx', rfl, rfl⟩

variable {B} {log : SessionLog F}

theorem Explained.of_sameBooks (h : Explained B s log) {s' : Server F L} (hsame : SameBooks s s') :
    Explained B s' log := by
  intro sid x' hx'
  obtain ⟨x, hx, hb, hc⟩ := hsame sid x' hx'
  rw [hb, hc]
  exact h sid x hx

theorem Explained.modifySession (h : Explained B s log) (sid : SessionId)
    {f : Session F L → Session F L} {d : Done F}
    (hb : ∀ x rest, x.backend = SessionLog.backend B rest →
      (f x).backend = SessionLog.backend B (d :: rest))
    (hc : ∀ x rest, x.commandHistory.isEmpty = !SessionLog.recorded rest →
      (f x).commandHistory.isEmpty = !SessionLog.recorded (d :: rest)) :
    Explained B (s.modifySession sid f) ((sid, d) :: log) := by
  intro n x' hx'
  obtain ⟨x, hx, rfl⟩ := sessions_modifySession sid f hx'
  obtain ⟨hback, hhist⟩ := h n x hx
  split_ifs with hn
  · subst hn
    rw [SessionLog.onSession_cons_self]
    exact ⟨hb x _ hback, hc x _ hhist⟩
  · rw [SessionLog.onSession_cons_of_ne (Ne.symm hn)]
    exact ⟨hback, hhist⟩

theorem Explained.createSession (h : Explained B s log) {sid : SessionId}
    (hnew : (s.sessions sid).isSome = false) (lease : Option LeaseId) (key : DependencyKey) :
    Explained B (s.createSession B sid lease key) ((sid, .created) :: log) := by
  unfold Server.createSession
  rw [if_neg (by simp [hnew])]
  intro n x hx
  by_cases hn : n = sid
  · subst hn
    obtain rfl : _ = x := by simpa using hx
    rw [SessionLog.onSession_cons_self]
    exact ⟨rfl, rfl⟩
  · rw [SessionLog.onSession_cons_of_ne (Ne.symm hn)]
    exact h n x (by simpa [Function.update_of_ne hn] using hx)

theorem Explained.finishJob (h : Explained B s log) (sid : SessionId) (x : Session F L)
    (raises : Bool) :
    Explained B (s.finishJob B sid x raises)
      ((x.running.toList.map fun job => (sid, Done.ran job.fn)) ++ log) := by
  unfold Server.finishJob
  split
  case h_1 hrun => simpa [hrun] using h
  case h_2 job hrun =>
    rw [hrun]
    refine Explained.of_sameBooks ?_ (sameBooks_of_sessions (sessions_settleCall job.call raises))
    refine h.modifySession sid (fun y rest hb => ?_) fun y rest hc => hc
    rw [SessionLog.backend, ← hb]

theorem Explained.bookkeep (h : Explained B s log) (i : ℕ) (c : Call F) :
    Explained B (s.bookkeep i c) (c.bookkept.toList ++ log) := by
  rcases c with ⟨sid, lease, accounting, body, phase⟩
  cases phase with
  | submitting fn caught => exact h
  | waiting caught => exact h
  | ready =>
    cases body with
    | nil => exact h
    | cons instr rest =>
      cases instr with
      | callBackend fn caught => exact h
      | resetBookkeeping =>
        simp only [Server.bookkeep, Call.bookkept]
        split_ifs
        · exact h
        · refine Explained.of_sameBooks ?_ (sameBooks_of_sessions rfl)
          exact h.modifySession sid (fun _ _ hb => hb) fun _ _ _ => rfl
      | appendHistory command =>
        simp only [Server.bookkeep, Call.bookkept]
        split_ifs
        · exact h
        · refine Explained.of_sameBooks ?_ (sameBooks_of_sessions rfl)
          refine h.modifySession sid (fun _ _ hb => hb) fun x _ _ => ?_
          simp [SessionLog.recorded]

theorem Explained.step (h : Explained B s log) (e : Event F) :
    Explained B (loggedStep B (s, log) e).1 (loggedStep B (s, log) e).2 := by
  unfold loggedStep Runs.logged
  dsimp only
  cases e with
  | createSession sid lease key =>
    simp only [Server.step, completed, locked]
    cases s.leaseEnd with
    | some e => simpa using h
    | none =>
      cases hs : (s.sessions sid).isSome with
      | true => simpa [Server.createSession, hs] using h
      | false => simpa using h.createSession hs lease key
  | bookkeep i =>
    simp only [Server.step, completed, withCall]
    cases hc : s.calls[i]? with
    | none => simpa using h
    | some c => exact h.bookkeep i c
  | finishJob sid raises =>
    simp only [Server.step, completed, withSession]
    cases hx : s.sessions sid with
    | none => simpa using h
    | some x => exact h.finishJob sid x raises
  | _ => exact h.of_sameBooks (sameBooks_step B (by simp) (by simp) (by simp))

end Server
end IsabelleGym
