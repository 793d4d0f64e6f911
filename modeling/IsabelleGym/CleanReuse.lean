import IsabelleGym.BackendEffects
import IsabelleGym.SessionLog

/-!
# Clean reuse

Clean reuse looks at the history of a session, into which only `execute_command`
and `load_document` write. The log of the session says both whether a theory is
entered in its backend and whether its history is empty, so it says when a
session that looks clean is not.
-/

namespace IsabelleGym

namespace SessionLog

variable {I : Isabelle}

/-- A theory was entered since the backend was last new. -/
def entered (I : Isabelle) : List (Done BackendFn) → Bool
  | [] => false
  | .created :: _ => false
  | .ran fn :: log => !fn.resets && (fn.enters I || entered I log)
  | .resetBookkeeping :: log => entered I log
  | .appendHistory :: log => entered I log

theorem currentThy_backend (channelId : String) (initialThys : List Text)
    (log : List (Done BackendFn)) :
    (backend (replBackend I channelId initialThys) log).currentThy.isSome = entered I log := by
  induction log with
  | nil => rfl
  | cons d log ih =>
    cases d with
    | created => rfl
    | ran fn =>
      rw [entered, ← ih]
      exact ReplSession.currentThy_runBackend _ channelId fn
    | resetBookkeeping | appendHistory => exact ih

theorem tidy_backend (channelId : String) (initialThys : List Text)
    (log : List (Done BackendFn)) :
    (backend (replBackend I channelId initialThys) log).Tidy := by
  induction log with
  | nil => exact ReplSession.tidy_fresh initialThys
  | cons d log ih =>
    cases d with
    | created => exact ReplSession.tidy_fresh initialThys
    | ran fn => exact ih.runBackend channelId fn
    | resetBookkeeping | appendHistory => exact ih

theorem clean_backend_iff (channelId : String) (initialThys : List Text)
    (log : List (Done BackendFn)) :
    (backend (replBackend I channelId initialThys) log).Clean ↔ entered I log = false := by
  rw [(tidy_backend channelId initialThys log).clean_iff,
    ← currentThy_backend channelId initialThys]
  simp

end SessionLog

namespace Server

/-- The most recently used pooled session that is free for the key and on which no command was
recorded since its history was last empty. -/
def unrecordedFor {F L : Type} (s : Server F L) (log : SessionLog F) (key : DependencyKey) :
    Option SessionId :=
  s.lru.reverse.find? fun sid => (s.sessions sid).any fun x =>
    !x.closed && x.lease.isNone && x.dependencyKey = key &&
      !SessionLog.recorded (log.onSession sid)

def HandsOutClean (x : Server BackendFn ReplSession × SessionLog BackendFn) :
    Event BackendFn → Prop
  | .acquireSession _ key reuseDirty => reuseDirty = false → x.1.leaseEnd = none →
    ∀ sid y, x.1.findReusable key reuseDirty = some sid → x.1.sessions sid = some y →
      y.backend.Clean
  | _ => True

/-- Where no command was recorded on the session, no theory was entered either. -/
def EntersRecorded (I : Isabelle) (x : Server BackendFn ReplSession × SessionLog BackendFn) :
    Event BackendFn → Prop
  | .acquireSession _ key reuseDirty => reuseDirty = false → x.1.leaseEnd = none →
    ∀ sid, x.1.unrecordedFor x.2 key = some sid →
      SessionLog.entered I (x.2.onSession sid) = false
  | _ => True

theorem Explained.findReusable_eq {F L : Type} {B : BackendApi F L} {s : Server F L}
    {log : SessionLog F} (h : Explained B s log) (key : DependencyKey) :
    s.findReusable key false = s.unrecordedFor log key := by
  unfold findReusable unrecordedFor
  congr 1
  funext sid
  cases hx : s.sessions sid with
  | none => rfl
  | some x =>
    have hhist := (h sid x hx).2
    simp [hhist]

theorem exists_of_unrecordedFor {F L : Type} {s : Server F L} {log : SessionLog F}
    {key : DependencyKey} {sid : SessionId} (h : s.unrecordedFor log key = some sid) :
    ∃ x, s.sessions sid = some x := by
  have hfound := List.find?_some h
  simp only [Option.any_eq_true] at hfound
  obtain ⟨x, hx, _⟩ := hfound
  exact ⟨x, hx⟩

theorem handsOutClean_iff {I : Isabelle} {channelId : String} {initialThys : List Text}
    {x : Server BackendFn ReplSession × SessionLog BackendFn}
    (h : Explained (replBackend I channelId initialThys) x.1 x.2) (e : Event BackendFn) :
    HandsOutClean x e ↔ EntersRecorded I x e := by
  cases e with
  | acquireSession lease key reuseDirty =>
    have hclean : ∀ sid y, x.1.sessions sid = some y →
        (y.backend.Clean ↔ SessionLog.entered I (x.2.onSession sid) = false) := by
      intro sid y hy
      rw [(h sid y hy).1, SessionLog.clean_backend_iff]
    constructor
    · rintro hout rfl hlock sid hsid
      obtain ⟨y, hy⟩ := exists_of_unrecordedFor hsid
      rw [← h.findReusable_eq] at hsid
      exact (hclean sid y hy).mp (hout rfl hlock sid y hsid hy)
    · rintro hrec rfl hlock sid y hsid hy
      rw [h.findReusable_eq] at hsid
      exact (hclean sid y hy).mpr (hrec rfl hlock sid hsid)
  | _ => exact Iff.rfl

/-- Clean reuse hands out clean sessions throughout a run exactly when each time the session it
would take has had no theory entered behind its last reset. -/
theorem cleanReuse_iff (I : Isabelle) (channelId : String) (initialThys : List Text)
    (poolSize : ℕ) (events : List (Event BackendFn)) :
    Runs.EveryStep (loggedStep (replBackend I channelId initialThys)) HandsOutClean
        ({ poolSize }, []) events ↔
      Runs.EveryStep (loggedStep (replBackend I channelId initialThys)) (EntersRecorded I)
        ({ poolSize }, []) events := by
  refine Runs.everyStep_iff_of_invariant
    (fun x e (hx : Explained (replBackend I channelId initialThys) x.1 x.2) _ => hx.step e)
    (fun x e hx => handsOutClean_iff hx e) ?_
  exact explained_initial _ poolSize

section Example

open SessionMethod

def enterEvents : List (Event BackendFn) :=
  [.createSession 0 (some "a") "k",
    .getSession 0 "a"
      (enterThy (fun _ => .ok) "A".toList (some "theory A imports Main begin".toList)),
    .submit 0, .enqueue 0, .startJob 0, .finishJob 0 false, .submit 0, .enqueue 0, .startJob 0,
    .finishJob 0 false, .releaseSession 0 "a", .continueLeaseEnd, .acquireSession "b" "k" false]

theorem entered_theory_is_handed_out :
    ¬ Runs.EveryStep (loggedStep (replBackend OuterSyntax.isabelle "c" [])) HandsOutClean
      ({ poolSize := 1 }, []) enterEvents := by
  rintro ⟨_, _, _, _, _, _, _, _, _, _, _, _, hlast, _⟩
  have hclean := hlast rfl rfl 0 _ rfl rfl
  exact absurd hclean.currentThy (by decide +kernel)

end Example

end Server
end IsabelleGym
