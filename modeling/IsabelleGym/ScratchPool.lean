import Mathlib.Data.Int.Order.Basic
import Mathlib.Logic.Function.Basic
import Mathlib.Tactic.Common
import IsabelleGym.Runs
import IsabelleGym.ThyStatus

/-!
# The pool of scratch sessions

A key has a queue of idle sessions and a count of the sessions that there are. An
acquirer takes an idle session, creates one below the cap, or waits on the queue.
A put wakes the first waiter, which takes what it then finds, or waits again. A
dropped session and a failed creation lower the count and wake nobody.
-/

namespace IsabelleGym

abbrev ScratchLease := Text × Text

/-- A tool call: it creates a session, waits on the queue until a put wakes it, or holds a
session. -/
inductive ScratchCall
  | creating | waiting (woken : Bool) | holding (lease : ScratchLease) | done
deriving DecidableEq

namespace ScratchCall

def isCreating : ScratchCall → Bool
  | creating => true
  | _ => false

def isWaiting : ScratchCall → Bool
  | waiting _ => true
  | _ => false

def isHolding : ScratchCall → Bool
  | holding _ => true
  | _ => false

def wake : ScratchCall → ScratchCall
  | waiting _ => waiting true
  | c => c

end ScratchCall

/-- What the pool has for a key: the idle sessions, the futures of the waiters and the count, and
the calls. -/
structure Scratch where
  queue : List ScratchLease := []
  getters : List ℕ := []
  count : ℤ := 0
  calls : List ScratchCall := []

inductive ScratchEvent
  | acquire
  | created (i : ℕ) (lease : ScratchLease)
  | creationFails (i : ℕ)
  | resume (i : ℕ)
  | release (i : ℕ)
  | drop (i : ℕ)
  | cancel (i : ℕ)

namespace Scratch

variable (cap : ℤ) (s : Scratch)

def setCall (i : ℕ) (c : ScratchCall) : Scratch := { s with calls := s.calls.set i c }

def wakeNext : Scratch :=
  match s.getters with
  | [] => s
  | i :: getters => { s with getters, calls := s.calls.modify i ScratchCall.wake }

def acquireScratch : Scratch :=
  match s.queue with
  | lease :: queue => { s with queue, calls := s.calls ++ [.holding lease] }
  | [] =>
    if s.count < cap then { s with count := s.count + 1, calls := s.calls ++ [.creating] }
    else
      { s with getters := s.getters ++ [s.calls.length], calls := s.calls ++ [.waiting false] }

/-- A woken waiter finds a session in the queue, or another acquirer has taken it. -/
def resume (i : ℕ) : Scratch :=
  match s.queue with
  | lease :: queue => { s.setCall i (.holding lease) with queue }
  | [] => { s.setCall i (.waiting false) with getters := s.getters ++ [i] }

def releaseScratch (i : ℕ) (lease : ScratchLease) : Scratch :=
  { s.setCall i .done with queue := s.queue ++ [lease] }.wakeNext

def dropScratch (i : ℕ) : Scratch :=
  { s.setCall i .done with count := max 0 (s.count - 1) }

def creationFails (i : ℕ) : Scratch := { s.setCall i .done with count := s.count - 1 }

/-- A cancelled waiter leaves the queue, and passes on what has woken it. The tools give a session
back behind exceptions of other kinds only. -/
def cancel (i : ℕ) : ScratchCall → Scratch
  | .creating => s.creationFails i
  | .waiting false => { s.setCall i .done with getters := s.getters.erase i }
  | .waiting true => if s.queue.isEmpty then s.setCall i .done else (s.setCall i .done).wakeNext
  | .holding _ => s.setCall i .done
  | .done => s

def step (e : ScratchEvent) : Scratch :=
  match e with
  | .acquire => s.acquireScratch cap
  | .created i lease =>
    match s.calls[i]? with
    | some .creating => s.setCall i (.holding lease)
    | _ => s
  | .creationFails i =>
    match s.calls[i]? with
    | some .creating => s.creationFails i
    | _ => s
  | .resume i =>
    match s.calls[i]? with
    | some (.waiting true) => s.resume i
    | _ => s
  | .release i =>
    match s.calls[i]? with
    | some (.holding lease) => s.releaseScratch i lease
    | _ => s
  | .drop i =>
    match s.calls[i]? with
    | some (.holding _) => s.dropScratch i
    | _ => s
  | .cancel i => (s.calls[i]?.map (s.cancel i)).getD s

/-- The sessions that are idle, in use or being created. -/
def sessions : ℕ :=
  s.queue.length + s.calls.countP ScratchCall.isHolding + s.calls.countP ScratchCall.isCreating

def waiters : ℕ := s.calls.countP ScratchCall.isWaiting

/-- The count is that of the sessions and within the cap, and a waiter has a session to wait for. -/
structure Sound : Prop where
  count : s.count = s.sessions
  le_cap : s.count ≤ cap
  waited : 0 < s.waiters → 0 < s.sessions

/-- Nobody waits, or another session stays. -/
def Spares : Prop := s.waiters = 0 ∨ 2 ≤ s.count

/-- An acquirer finds room for a session, a session in use is not cancelled, and behind a dropped
session and a failed creation nobody waits or another session stays. -/
def Safe (e : ScratchEvent) : Prop :=
  match e with
  | .acquire => 1 ≤ cap
  | .creationFails i => s.calls[i]? = some .creating → s.Spares
  | .drop i => ∀ lease, s.calls[i]? = some (.holding lease) → s.Spares
  | .cancel i => (s.calls[i]? = some .creating → s.Spares) ∧
      ∀ lease, s.calls[i]? ≠ some (.holding lease)
  | _ => True

variable {cap s} {i : ℕ}

section Counting

theorem countP_modify {p : ScratchCall → Bool} {f : ScratchCall → ScratchCall}
    (hf : ∀ c, p (f c) = p c) (l : List ScratchCall) (i : ℕ) :
    (l.modify i f).countP p = l.countP p := by
  induction l generalizing i with
  | nil => simp
  | cons c l ih =>
    cases i with
    | zero => simp [List.countP_cons, hf]
    | succ i => simp [List.countP_cons, ih]

theorem countP_wakeNext {p : ScratchCall → Bool} (hp : ∀ c, p c.wake = p c) :
    s.wakeNext.calls.countP p = s.calls.countP p := by
  unfold wakeNext
  split
  · rfl
  · exact countP_modify hp _ _

theorem sessions_wakeNext : s.wakeNext.sessions = s.sessions := by
  have hqueue : s.wakeNext.queue = s.queue := by
    unfold wakeNext
    split <;> rfl
  rw [sessions, hqueue, countP_wakeNext, countP_wakeNext, sessions]
  · intro c
    cases c <;> rfl
  · intro c
    cases c <;> rfl

theorem waiters_wakeNext : s.wakeNext.waiters = s.waiters := by
  apply countP_wakeNext
  intro c
  cases c <;> rfl

theorem count_wakeNext : s.wakeNext.count = s.count := by
  unfold wakeNext
  split <;> rfl

/-- The sessions and the waiters behind a call that changes to another stage. -/
theorem tally_setCall {c : ScratchCall} (hi : s.calls[i]? = some c) (c' : ScratchCall) :
    (s.setCall i c').sessions + (if c.isHolding || c.isCreating then 1 else 0) =
        s.sessions + (if c'.isHolding || c'.isCreating then 1 else 0) ∧
      (s.setCall i c').waiters + (if c.isWaiting then 1 else 0) =
        s.waiters + if c'.isWaiting then 1 else 0 := by
  have hholding := Runs.countP_set_add ScratchCall.isHolding hi c'
  have hcreating := Runs.countP_set_add ScratchCall.isCreating hi c'
  have hqueue : (s.setCall i c').queue = s.queue := rfl
  have hcalls : (s.setCall i c').calls = s.calls.set i c' := rfl
  have hsplit : ∀ c : ScratchCall, (if c.isHolding || c.isCreating then 1 else 0) =
      (if c.isHolding then 1 else 0) + if c.isCreating then 1 else 0 := by
    intro c
    cases c <;> rfl
  refine ⟨?_, Runs.countP_set_add ScratchCall.isWaiting hi c'⟩
  rw [sessions, sessions, hqueue, hcalls, hsplit, hsplit]
  omega

theorem sound_iff {t : Scratch} {n w : ℕ} {k : ℤ} (hn : t.sessions = n) (hw : t.waiters = w)
    (hk : t.count = k) : t.Sound cap ↔ k = n ∧ k ≤ cap ∧ (0 < w → 0 < n) := by
  subst hn hw hk
  exact ⟨fun h => ⟨h.count, h.le_cap, h.waited⟩, fun h => ⟨h.1, h.2.1, h.2.2⟩⟩

theorem sound_wakeNext : s.wakeNext.Sound cap ↔ s.Sound cap := by
  rw [sound_iff sessions_wakeNext waiters_wakeNext count_wakeNext, sound_iff rfl rfl rfl]

end Counting

section Steps

theorem acquireScratch_sound_iff (hcap : 0 ≤ cap) (h : s.Sound cap) :
    (s.acquireScratch cap).Sound cap ↔ 1 ≤ cap := by
  obtain ⟨hcount, hle, hwaited⟩ := h
  cases hqueue : s.queue with
  | cons lease queue =>
    have hn : (s.acquireScratch cap).sessions = s.sessions := by
      simp [acquireScratch, sessions, hqueue, ScratchCall.isHolding, ScratchCall.isCreating]
      omega
    have hw : (s.acquireScratch cap).waiters = s.waiters := by
      simp [acquireScratch, waiters, hqueue, ScratchCall.isWaiting]
    have hk : (s.acquireScratch cap).count = s.count := by simp [acquireScratch, hqueue]
    have hsome : 0 < s.sessions := by
      simp only [sessions, hqueue, List.length_cons]
      omega
    rw [sound_iff hn hw hk]
    omega
  | nil =>
    by_cases hroom : s.count < cap
    · have hn : (s.acquireScratch cap).sessions = s.sessions + 1 := by
        simp [acquireScratch, sessions, hqueue, hroom, ScratchCall.isHolding,
          ScratchCall.isCreating]
        omega
      have hw : (s.acquireScratch cap).waiters = s.waiters := by
        simp [acquireScratch, waiters, hqueue, hroom, ScratchCall.isWaiting]
      have hk : (s.acquireScratch cap).count = s.count + 1 := by
        simp [acquireScratch, hqueue, hroom]
      rw [sound_iff hn hw hk]
      omega
    · have hn : (s.acquireScratch cap).sessions = s.sessions := by
        simp [acquireScratch, sessions, hqueue, hroom, ScratchCall.isHolding,
          ScratchCall.isCreating]
      have hw : (s.acquireScratch cap).waiters = s.waiters + 1 := by
        simp [acquireScratch, waiters, hqueue, hroom, ScratchCall.isWaiting]
      have hk : (s.acquireScratch cap).count = s.count := by simp [acquireScratch, hqueue, hroom]
      rw [sound_iff hn hw hk]
      omega

/-- One session less, where the count follows, leaves the waiters one exactly where the pool
spares one. -/
theorem sound_iff_spares (h : s.Sound cap) {t : Scratch} (hn : t.sessions + 1 = s.sessions)
    (hw : t.waiters = s.waiters) (hk : t.count = s.count - 1) : t.Sound cap ↔ s.Spares := by
  obtain ⟨hcount, hle, hwaited⟩ := h
  rw [sound_iff rfl hw hk, Spares]
  omega

variable {lease : ScratchLease}

theorem created_sound (h : s.Sound cap) (hi : s.calls[i]? = some .creating) :
    (s.setCall i (.holding lease)).Sound cap := by
  obtain ⟨hn, hw⟩ := tally_setCall hi (.holding lease)
  simp only [ScratchCall.isHolding, ScratchCall.isCreating, ScratchCall.isWaiting, Bool.or_true,
    Bool.true_or, Bool.false_eq_true, ↓reduceIte, Nat.add_zero, Nat.add_right_cancel_iff] at hn hw
  rw [sound_iff hn hw rfl]
  exact ⟨h.count, h.le_cap, h.waited⟩

theorem creationFails_sound_iff (h : s.Sound cap) (hi : s.calls[i]? = some .creating) :
    (s.creationFails i).Sound cap ↔ s.Spares := by
  obtain ⟨hn, hw⟩ := tally_setCall hi .done
  exact sound_iff_spares h hn hw rfl

theorem dropScratch_sound_iff (h : s.Sound cap) (hi : s.calls[i]? = some (.holding lease)) :
    (s.dropScratch i).Sound cap ↔ s.Spares := by
  obtain ⟨hn, hw⟩ := tally_setCall hi .done
  have hn' : (s.dropScratch i).sessions + 1 = s.sessions := hn
  refine sound_iff_spares h hn hw ?_
  have hcount := h.count
  exact max_eq_right (by omega)

theorem resume_sound (h : s.Sound cap) (hi : s.calls[i]? = some (.waiting true)) :
    (s.resume i).Sound cap := by
  cases hqueue : s.queue with
  | cons lease queue =>
    obtain ⟨hn, hw⟩ := tally_setCall hi (.holding lease)
    have hn' : (s.resume i).sessions = s.sessions := by
      have hset : (s.setCall i (.holding lease)).sessions = s.sessions + 1 := hn
      simp only [sessions, resume, hqueue, setCall, List.length_cons] at hset ⊢
      omega
    have hw' : (s.resume i).waiters + 1 = s.waiters := by
      simp only [resume, hqueue]
      exact hw
    have hk : (s.resume i).count = s.count := by simp [resume, hqueue, setCall]
    have hsome : 0 < s.sessions := h.waited (by omega)
    rw [sound_iff hn' rfl hk]
    exact ⟨h.count, h.le_cap, fun _ => hsome⟩
  | nil =>
    obtain ⟨hn, hw⟩ := tally_setCall hi (.waiting false)
    have hn' : (s.resume i).sessions = s.sessions := by
      simp only [resume, hqueue]
      exact hn
    have hw' : (s.resume i).waiters = s.waiters := by
      have hset : (s.setCall i (.waiting false)).waiters + 1 = s.waiters + 1 := hw
      simp only [resume, hqueue]
      exact Nat.add_right_cancel hset
    have hk : (s.resume i).count = s.count := by simp [resume, hqueue, setCall]
    rw [sound_iff hn' hw' hk]
    exact ⟨h.count, h.le_cap, h.waited⟩

theorem releaseScratch_sound (h : s.Sound cap) (hi : s.calls[i]? = some (.holding lease)) :
    (s.releaseScratch i lease).Sound cap := by
  obtain ⟨hn, hw⟩ := tally_setCall hi .done
  rw [releaseScratch, sound_wakeNext]
  have hn' : sessions { s.setCall i .done with queue := s.queue ++ [lease] } = s.sessions := by
    have hset : (s.setCall i .done).sessions + 1 = s.sessions := hn
    simp only [sessions, setCall, List.length_append, List.length_cons, List.length_nil] at hset ⊢
    omega
  rw [sound_iff hn' hw rfl]
  exact ⟨h.count, h.le_cap, h.waited⟩

/-- A waiter that leaves takes no session with it. -/
theorem leave_sound (h : s.Sound cap) {woken : Bool} (hi : s.calls[i]? = some (.waiting woken))
    (getters : List ℕ) : Sound cap { s.setCall i .done with getters } := by
  obtain ⟨hn, hw⟩ := tally_setCall hi .done
  have hn' : sessions { s.setCall i .done with getters } = s.sessions := hn
  have hw' : waiters { s.setCall i .done with getters } + 1 = s.waiters := hw
  rw [sound_iff hn' rfl rfl]
  exact ⟨h.count, h.le_cap, fun _ => h.waited (by omega)⟩

theorem cancel_holding_not_sound (h : s.Sound cap) (hi : s.calls[i]? = some (.holding lease)) :
    ¬ (s.setCall i .done).Sound cap := by
  obtain ⟨hn, hw⟩ := tally_setCall hi .done
  have hn' : (s.setCall i .done).sessions + 1 = s.sessions := hn
  rw [sound_iff rfl rfl rfl, show (s.setCall i .done).count = s.count from rfl]
  have hcount := h.count
  omega

theorem cancel_sound_iff (h : s.Sound cap) {c : ScratchCall} (hi : s.calls[i]? = some c) :
    (s.cancel i c).Sound cap ↔ (c = .creating → s.Spares) ∧ ∀ lease, c ≠ .holding lease := by
  cases c with
  | creating =>
    rw [cancel]
    simpa using creationFails_sound_iff h hi
  | waiting woken =>
    refine iff_of_true ?_ (by simp)
    cases woken with
    | false => exact leave_sound h hi _
    | true =>
      have hleft : (s.setCall i .done).Sound cap := leave_sound h hi s.getters
      rw [cancel]
      split_ifs
      · exact hleft
      · exact sound_wakeNext.mpr hleft
  | holding lease => exact iff_of_false (cancel_holding_not_sound h hi) (by simp)
  | done => exact iff_of_true h (by simp)

/-- From a sound pool a step leads to a sound pool exactly where it is safe. -/
theorem step_sound_iff (hcap : 0 ≤ cap) (h : s.Sound cap) (e : ScratchEvent) :
    (s.step cap e).Sound cap ↔ s.Safe cap e := by
  cases e with
  | acquire => exact acquireScratch_sound_iff hcap h
  | created i lease =>
    refine iff_of_true ?_ trivial
    rw [step]
    split
    · exact created_sound h ‹_›
    · exact h
  | creationFails i =>
    rw [step]
    split
    · rename_i hi
      simpa [Safe, hi] using creationFails_sound_iff h hi
    · rename_i hother
      exact iff_of_true h fun hi => absurd hi hother
  | resume i =>
    refine iff_of_true ?_ trivial
    rw [step]
    split
    · exact resume_sound h ‹_›
    · exact h
  | release i =>
    refine iff_of_true ?_ trivial
    rw [step]
    split
    · exact releaseScratch_sound h ‹_›
    · exact h
  | drop i =>
    rw [step]
    split
    · rename_i lease hi
      simpa [Safe, hi] using dropScratch_sound_iff h hi
    · rename_i hother
      exact iff_of_true h fun lease hi => absurd hi (hother lease)
  | cancel i =>
    rw [step, Safe]
    cases hi : s.calls[i]? with
    | none => exact iff_of_true h (by simp)
    | some c => simpa using cancel_sound_iff h hi

end Steps

theorem Sound.cap_nonneg (h : s.Sound cap) : 0 ≤ cap := by
  have hcount := h.count
  have hle := h.le_cap
  omega

section Pool

variable {κ : Type*} [DecidableEq κ]

def poolStep (cap : ℤ) (pool : κ → Scratch) (e : κ × ScratchEvent) : κ → Scratch :=
  Function.update pool e.1 ((pool e.1).step cap e.2)

def emptyPool : κ → Scratch := fun _ => {}

theorem poolStep_sound_iff {cap : ℤ} (hcap : 0 ≤ cap) {pool : κ → Scratch}
    (h : ∀ key, (pool key).Sound cap) (e : κ × ScratchEvent) :
    (∀ key, (poolStep cap pool e key).Sound cap) ↔ (pool e.1).Safe cap e.2 := by
  rw [← step_sound_iff hcap (h e.1)]
  constructor
  · intro hall
    simpa [poolStep] using hall e.1
  · intro hstep key
    by_cases hkey : key = e.1
    · subst hkey
      simpa [poolStep] using hstep
    · simpa [poolStep, Function.update_of_ne hkey] using h key

/-- In every run of the pool, the count, the cap and the waiters of every key are sound behind
every step exactly when the cap is not negative and every step is safe. -/
theorem everyStep_sound_iff (cap : ℤ) (es : List (κ × ScratchEvent)) :
    Runs.EveryStep (poolStep cap) (fun pool e => ∀ key, (poolStep cap pool e key).Sound cap)
        emptyPool es ↔
      Runs.EveryStep (poolStep cap) (fun pool e => 0 ≤ cap ∧ (pool e.1).Safe cap e.2)
        emptyPool es := by
  by_cases hcap : 0 ≤ cap
  · have hempty : ∀ key : κ, (emptyPool key).Sound cap := fun _ => ⟨rfl, hcap, id⟩
    have hkept : ∀ (pool : κ → Scratch) e, (∀ key, (pool key).Sound cap) →
        0 ≤ cap ∧ (pool e.1).Safe cap e.2 → ∀ key, (poolStep cap pool e key).Sound cap :=
      fun pool e h hq => (poolStep_sound_iff hcap h e).mpr hq.2
    refine Runs.everyStep_iff_of_invariant hkept (fun pool e h => ?_) hempty
    rw [poolStep_sound_iff hcap h e]
    exact ⟨fun hsafe => ⟨hcap, hsafe⟩, And.right⟩
  · cases es with
    | nil => exact Iff.rfl
    | cons e es =>
      refine iff_of_false ?_ fun h => hcap h.1.1
      rintro ⟨hsound, -⟩
      exact hcap (hsound e.1).cap_nonneg

/-- The only session is dropped while another call waits for it. -/
def dropLast : List (Unit × ScratchEvent) :=
  [.acquire, .created 0 ("s".toList, "l".toList), .acquire, .drop 0].map fun e => ((), e)

theorem dropLast_strands : ¬ Runs.EveryStep (poolStep 1)
    (fun pool e => ∀ key, (poolStep 1 pool e key).Sound 1) emptyPool dropLast := by
  rintro ⟨-, -, -, hdrop, -⟩
  have hwaited := (hdrop ()).waited
  revert hwaited
  decide

end Pool

end Scratch

end IsabelleGym
