import Mathlib.Logic.Function.Basic
import Mathlib.Tactic.Common
import IsabelleGym.Runs
import IsabelleGym.ThyStatus

/-!
# The sessions of the stepwise connections

Opening a theory takes the session of the connection out of the map, closes it,
acquires a new one and enters the theory; then the new one is stored. Between the
critical sections of a call those of other calls of the connection can run.
Sessions are numbered as they are acquired; each is in one place until a store
overwrites an entry, and what is overwritten is nowhere any more.
-/

namespace IsabelleGym

structure CurrentTheory where
  session : ℕ
  theory : Text
deriving DecidableEq

/-- A call: `open_theory` closes the old session, acquires one, enters the theory, or closes the
session again where that fails; `close_for` closes the session. -/
inductive StepwiseCall (κ : Type*)
  | closingOld (key : κ) (theory : Text) (old : ℕ)
  | acquiring (key : κ) (theory : Text)
  | entering (key : κ) (theory : Text) (session : ℕ)
  | abandoning (session : ℕ)
  | closing (session : ℕ)
  | done
deriving DecidableEq

/-- `_current` and the calls, with the connection that each session was acquired for and the
sessions that have been closed. -/
structure StepwisePool (κ : Type*) where
  current : κ → Option CurrentTheory := fun _ => none
  calls : List (StepwiseCall κ) := []
  owners : List κ := []
  closed : List ℕ := []

inductive StepwiseEvent (κ : Type*)
  | openTheory (key : κ) (name : Text)
  | closeFor (key : κ)
  | closed (i : ℕ)
  | acquired (i : ℕ)
  | acquireFails (i : ℕ)
  | entered (i : ℕ)
  | enterFails (i : ℕ)

namespace StepwiseCall

variable {κ : Type*}

/-- The session that the call alone knows of. -/
def session : StepwiseCall κ → Option ℕ
  | closingOld _ _ old => some old
  | entering _ _ session => some session
  | abandoning session => some session
  | closing session => some session
  | _ => none

def holds (l : ℕ) (c : StepwiseCall κ) : Bool := c.session = some l

end StepwiseCall

namespace StepwisePool

variable {κ : Type*} (s : StepwisePool κ)

section Steps

def setCall (i : ℕ) (c : StepwiseCall κ) : StepwisePool κ := { s with calls := s.calls.set i c }

def addCall (c : StepwiseCall κ) : StepwisePool κ := { s with calls := s.calls ++ [c] }

def close (session : ℕ) : StepwisePool κ := { s with closed := session :: s.closed }

def acquire (i : ℕ) (key : κ) (theory : Text) : StepwisePool κ :=
  { s.setCall i (.entering key theory s.owners.length) with owners := s.owners ++ [key] }

variable [DecidableEq κ]

def pop (key : κ) : StepwisePool κ := { s with current := Function.update s.current key none }

def openTheory (key : κ) (name : Text) : StepwisePool κ :=
  match s.current key with
  | some cur => (s.pop key).addCall (.closingOld key name cur.session)
  | none => s.addCall (.acquiring key name)

def closeFor (key : κ) : StepwisePool κ :=
  match s.current key with
  | some cur => (s.pop key).addCall (.closing cur.session)
  | none => s.addCall .done

/-- The last critical section of `open_theory`. -/
def store (i : ℕ) (key : κ) (theory : Text) (session : ℕ) : StepwisePool κ :=
  { s.setCall i .done with current := Function.update s.current key (some ⟨session, theory⟩) }

end Steps

def step [DecidableEq κ] (s : StepwisePool κ) (e : StepwiseEvent κ) : StepwisePool κ :=
  match e with
  | .openTheory key name => s.openTheory key name
  | .closeFor key => s.closeFor key
  | .closed i =>
    match s.calls[i]? with
    | some (.closingOld key theory old) => (s.setCall i (.acquiring key theory)).close old
    | some (.abandoning session) => (s.setCall i .done).close session
    | some (.closing session) => (s.setCall i .done).close session
    | _ => s
  | .acquired i =>
    match s.calls[i]? with
    | some (.acquiring key theory) => s.acquire i key theory
    | _ => s
  | .acquireFails i =>
    match s.calls[i]? with
    | some (.acquiring _ _) => s.setCall i .done
    | _ => s
  | .entered i =>
    match s.calls[i]? with
    | some (.entering key theory session) => s.store i key theory session
    | _ => s
  | .enterFails i =>
    match s.calls[i]? with
    | some (.entering _ _ session) => s.setCall i (.abandoning session)
    | _ => s

def Quiet : Prop := ∀ c ∈ s.calls, c = .done

/-- A session that has been acquired for a connection and not closed is the one recorded for it. -/
def OneEach : Prop := ∀ l key, s.owners[l]? = some key → l ∉ s.closed →
  ∃ cur, s.current key = some cur ∧ cur.session = l

/-- A session is stored where the connection has none. -/
def StoresFree (e : StepwiseEvent κ) : Prop :=
  match e with
  | .entered i => ∀ key theory session, s.calls[i]? = some (.entering key theory session) →
      s.current key = none
  | _ => True

section Places

def recorded (l : ℕ) : Bool :=
  s.owners[l]?.any fun key => (s.current key).any fun cur => cur.session = l

/-- How often a session is closed, known to a call, or recorded. -/
def places (l : ℕ) : ℕ :=
  s.closed.count l + s.calls.countP (StepwiseCall.holds l) + if s.recorded l then 1 else 0

/-- Entries and calls have sessions of their connections, and none of a session to come. -/
structure Owned : Prop where
  current {key : κ} {cur : CurrentTheory} : s.current key = some cur →
    s.owners[cur.session]? = some key
  entering {key : κ} {theory : Text} {session : ℕ} : .entering key theory session ∈ s.calls →
    s.owners[session]? = some key
  held {c : StepwiseCall κ} {l : ℕ} : c ∈ s.calls → c.session = some l → l < s.owners.length
  closed {l : ℕ} : l ∈ s.closed → l < s.owners.length

/-- Every session is in one place. -/
def Whole : Prop := ∀ l < s.owners.length, s.places l = 1

def Lost : Prop := ∃ l < s.owners.length, s.places l = 0

variable {s} {i : ℕ} {l : ℕ}

/-- A call that only changes its stage. -/
theorem places_setCall {c : StepwiseCall κ} (hi : s.calls[i]? = some c) (c' : StepwiseCall κ) :
    (s.setCall i c').places l + (if c.holds l then 1 else 0) =
      s.places l + if c'.holds l then 1 else 0 := by
  have hcount := Runs.countP_set_add (StepwiseCall.holds l) hi c'
  have hrecorded : (s.setCall i c').recorded l = s.recorded l := rfl
  have hclosed : (s.setCall i c').closed = s.closed := rfl
  have hcalls : (s.setCall i c').calls = s.calls.set i c' := rfl
  rw [places, places, hrecorded, hclosed, hcalls]
  omega

theorem places_addCall (c : StepwiseCall κ) :
    (s.addCall c).places l = s.places l + if c.holds l then 1 else 0 := by
  have hrecorded : (s.addCall c).recorded l = s.recorded l := rfl
  rw [places, places, hrecorded]
  simp only [addCall, List.countP_append, List.countP_singleton]
  omega

theorem places_close (session : ℕ) :
    (s.close session).places l = s.places l + if session = l then 1 else 0 := by
  have hrecorded : (s.close session).recorded l = s.recorded l := rfl
  rw [places, places, hrecorded]
  simp only [close, List.count_cons, beq_iff_eq]
  omega

/-- No entry has a session of another connection. -/
theorem Owned.any_current_eq_false (h : s.Owned) {key : κ} (hl : s.owners[l]? ≠ some key) :
    (s.current key).any (fun cur => cur.session = l) = false := by
  cases hcur : s.current key with
  | none => rfl
  | some cur =>
    simp only [Option.any_some, decide_eq_false_iff_not]
    rintro rfl
    exact hl (h.current hcur)

/-- A session that is acquired is with its call. -/
theorem places_acquire (h : s.Owned) {key : κ} {theory : Text}
    (hi : s.calls[i]? = some (.acquiring key theory)) :
    (∀ l < s.owners.length, (s.acquire i key theory).places l = s.places l) ∧
      (s.acquire i key theory).places s.owners.length = 1 := by
  have hcount := fun l => Runs.countP_set_add (StepwiseCall.holds l) hi
    (.entering key theory s.owners.length)
  simp only [StepwiseCall.holds, StepwiseCall.session, reduceCtorEq, decide_false,
    Bool.false_eq_true, ↓reduceIte, Option.some.injEq, decide_eq_true_eq, Nat.add_zero] at hcount
  constructor
  · intro l hl
    have hrecorded : (s.acquire i key theory).recorded l = s.recorded l := by
      simp only [recorded, acquire, setCall, List.getElem?_append_left hl]
    have hcalls := hcount l
    rw [if_neg (by omega)] at hcalls
    rw [places, places, hrecorded]
    exact congrArg (s.closed.count l + · + if s.recorded l then 1 else 0) hcalls
  · have hclosed : s.closed.count s.owners.length = 0 :=
      List.count_eq_zero.mpr fun hin => absurd (h.closed hin) (lt_irrefl _)
    have hheld : s.calls.countP (StepwiseCall.holds s.owners.length) = 0 := by
      refine List.countP_eq_zero.mpr fun c hc hholds => ?_
      exact absurd (h.held hc (of_decide_eq_true hholds)) (lt_irrefl _)
    have hrecorded : (s.acquire i key theory).recorded s.owners.length = false := by
      simp only [recorded, acquire, setCall, List.getElem?_append_right le_rfl, Nat.sub_self,
        List.getElem?_cons_zero, Option.any_some]
      exact h.any_current_eq_false (by simp)
    have hcalls := hcount s.owners.length
    rw [if_pos rfl, hheld] at hcalls
    have hsame : (s.acquire i key theory).closed = s.closed := rfl
    have hset : (s.acquire i key theory).calls.countP (StepwiseCall.holds s.owners.length) = 1 :=
      hcalls
    rw [places, hrecorded, hsame, hclosed, hset]
    rfl

variable [DecidableEq κ] {key : κ} {theory : Text} {session : ℕ} {cur : CurrentTheory}

/-- What is popped leaves its place. -/
theorem places_pop (h : s.Owned) (hcur : s.current key = some cur) :
    (s.pop key).places l + (if cur.session = l then 1 else 0) = s.places l := by
  have howner := h.current hcur
  have hrecorded : ((if (s.pop key).recorded l then 1 else 0) + if cur.session = l then 1 else 0) =
      if s.recorded l then 1 else 0 := by
    unfold recorded pop
    cases hl : s.owners[l]? with
    | none =>
      have hne : cur.session ≠ l := by
        rintro rfl
        rw [howner] at hl
        cases hl
      simp [hne]
    | some k =>
      by_cases hk : k = key
      · subst hk
        simp [hcur]
      · have hne : cur.session ≠ l := by
          rintro rfl
          exact hk (Option.some.inj (hl.symm.trans howner))
        simp [Function.update_of_ne hk, hne]
  have hclosed : (s.pop key).closed = s.closed := rfl
  have hcalls : (s.pop key).calls = s.calls := rfl
  rw [places, places, hclosed, hcalls, ← hrecorded]
  omega

/-- A store takes the session from the call, and overwrites the entry. -/
theorem places_store (h : s.Owned) (hi : s.calls[i]? = some (.entering key theory session)) :
    (s.store i key theory session).places l +
      (if (s.current key).any (fun cur => cur.session = l) then 1 else 0) = s.places l := by
  have howner := h.entering (List.mem_of_getElem? hi)
  have hcount := Runs.countP_set_add (StepwiseCall.holds l) hi .done
  simp only [StepwiseCall.holds, StepwiseCall.session, reduceCtorEq, decide_false,
    Bool.false_eq_true, ↓reduceIte, Option.some.injEq, decide_eq_true_eq, Nat.add_zero] at hcount
  have hrecorded : ((if (s.store i key theory session).recorded l then 1 else 0) +
      if (s.current key).any (fun cur => cur.session = l) then 1 else 0) =
        (if s.recorded l then 1 else 0) + if session = l then 1 else 0 := by
    unfold recorded store setCall
    dsimp only
    cases hl : s.owners[l]? with
    | none =>
      have hne : session ≠ l := by
        rintro rfl
        rw [howner] at hl
        cases hl
      have hold : (s.current key).any (fun cur => cur.session = l) = false :=
        h.any_current_eq_false (by simp [hl])
      simp [hne, hold]
    | some k =>
      by_cases hk : k = key
      · subst hk
        simp only [Option.any_some, Function.update_self, decide_eq_true_eq]
        omega
      · have hne : session ≠ l := by
          rintro rfl
          exact hk (Option.some.inj (hl.symm.trans howner))
        have hold : (s.current key).any (fun cur => cur.session = l) = false :=
          h.any_current_eq_false (by rw [hl]; exact fun heq => hk (Option.some.inj heq))
        simp [Function.update_of_ne hk, hne, hold]
  have hclosed : (s.store i key theory session).closed = s.closed := rfl
  have hcalls : (s.store i key theory session).calls = (s.setCall i .done).calls := rfl
  rw [places, places, hclosed, hcalls]
  have hset : (s.setCall i .done).calls.countP (StepwiseCall.holds l) +
      (if session = l then 1 else 0) = s.calls.countP (StepwiseCall.holds l) := hcount
  omega

end Places

section Owners

variable {s} {i l : ℕ} {key : κ} {theory : Text} {session : ℕ}

structure OwnedCall (s : StepwisePool κ) (c : StepwiseCall κ) : Prop where
  entering {key : κ} {theory : Text} {session : ℕ} : c = .entering key theory session →
    s.owners[session]? = some key
  held {l : ℕ} : c.session = some l → l < s.owners.length

theorem Owned.setCall (h : s.Owned) {c : StepwiseCall κ} (hc : s.OwnedCall c) (i : ℕ) :
    (s.setCall i c).Owned where
  current := h.current
  entering := by
    intro key theory session hin
    rcases List.mem_or_eq_of_mem_set hin with hold | hnew
    · exact h.entering hold
    · exact hc.entering hnew.symm
  held := by
    intro c' l hin hsession
    rcases List.mem_or_eq_of_mem_set hin with hold | rfl
    · exact h.held hold hsession
    · exact hc.held hsession
  closed := h.closed

theorem Owned.addCall (h : s.Owned) {c : StepwiseCall κ} (hc : s.OwnedCall c) :
    (s.addCall c).Owned where
  current := h.current
  entering := by
    intro key theory session hin
    rcases List.mem_append.mp hin with hold | hnew
    · exact h.entering hold
    · exact hc.entering (List.mem_singleton.mp hnew).symm
  held := by
    intro c' l hin hsession
    rcases List.mem_append.mp hin with hold | hnew
    · exact h.held hold hsession
    · obtain rfl := List.mem_singleton.mp hnew
      exact hc.held hsession
  closed := h.closed

theorem Owned.close (h : s.Owned) (hl : l < s.owners.length) : (s.close l).Owned where
  current := h.current
  entering := h.entering
  held := h.held
  closed := by
    intro l' hin
    rcases List.mem_cons.mp hin with rfl | hold
    · exact hl
    · exact h.closed hold

theorem Owned.held_of_getElem? (h : s.Owned) {c : StepwiseCall κ} (hi : s.calls[i]? = some c)
    (hc : c.session = some l) : l < s.owners.length :=
  h.held (List.mem_of_getElem? hi) hc

theorem Owned.acquire (h : s.Owned) (i : ℕ) (key : κ) (theory : Text) :
    (s.acquire i key theory).Owned := by
  have hkept : ∀ {l : ℕ} {k : κ}, s.owners[l]? = some k → (s.owners ++ [key])[l]? = some k := by
    intro l k hl
    rw [List.getElem?_append_left (List.getElem?_eq_some_iff.mp hl).1]
    exact hl
  have hnew : (s.owners ++ [key])[s.owners.length]? = some key := by simp
  have hlonger : (s.acquire i key theory).owners.length = s.owners.length + 1 := by
    simp [StepwisePool.acquire]
  constructor
  · intro k cur hcur
    exact hkept (h.current hcur)
  · intro k th session hin
    rcases List.mem_or_eq_of_mem_set hin with hold | heq
    · exact hkept (h.entering hold)
    · obtain ⟨rfl, -, rfl⟩ := StepwiseCall.entering.inj heq
      exact hnew
  · intro c l hin hsession
    rw [hlonger]
    rcases List.mem_or_eq_of_mem_set hin with hold | rfl
    · exact Nat.lt_succ_of_lt (h.held hold hsession)
    · obtain rfl := Option.some.inj hsession
      exact Nat.lt_succ_self _
  · intro l hin
    rw [hlonger]
    exact Nat.lt_succ_of_lt (h.closed hin)

variable [DecidableEq κ]

theorem Owned.pop (h : s.Owned) (key : κ) : (s.pop key).Owned where
  current := by
    intro k cur hcur
    by_cases hk : k = key
    · simp [StepwisePool.pop, hk] at hcur
    · have hold : s.current k = some cur := by
        simpa [StepwisePool.pop, Function.update_of_ne hk] using hcur
      exact h.current hold
  entering := h.entering
  held := h.held
  closed := h.closed

theorem Owned.store (h : s.Owned) (hi : s.calls[i]? = some (.entering key theory session)) :
    (s.store i key theory session).Owned := by
  have howner := h.entering (List.mem_of_getElem? hi)
  have hset : (s.setCall i .done).Owned := h.setCall ⟨by simp, by simp [StepwiseCall.session]⟩ i
  refine ⟨?_, hset.entering, hset.held, h.closed⟩
  intro k cur hcur
  by_cases hk : k = key
  · subst hk
    have hcur' : cur = ⟨session, theory⟩ := by simpa [StepwisePool.store, eq_comm] using hcur
    rw [hcur']
    exact howner
  · have hold : s.current k = some cur := by
      simpa [StepwisePool.store, Function.update_of_ne hk] using hcur
    exact h.current hold

theorem Owned.step (h : s.Owned) (e : StepwiseEvent κ) : (s.step e).Owned := by
  have hquiet : ∀ {c : StepwiseCall κ}, c.session = none → s.OwnedCall c := by
    intro c hc
    refine ⟨?_, ?_⟩
    · rintro key theory session rfl
      cases hc
    · intro l hl
      rw [hc] at hl
      cases hl
  cases e with
  | openTheory key name =>
    rw [StepwisePool.step, StepwisePool.openTheory]
    cases hcur : s.current key with
    | none => exact h.addCall (hquiet rfl)
    | some cur =>
      refine (h.pop key).addCall ⟨by simp, ?_⟩
      intro l hl
      obtain rfl := Option.some.inj hl
      exact (List.getElem?_eq_some_iff.mp (h.current hcur)).1
  | closeFor key =>
    rw [StepwisePool.step, StepwisePool.closeFor]
    cases hcur : s.current key with
    | none => exact h.addCall (hquiet rfl)
    | some cur =>
      refine (h.pop key).addCall ⟨by simp, ?_⟩
      intro l hl
      obtain rfl := Option.some.inj hl
      exact (List.getElem?_eq_some_iff.mp (h.current hcur)).1
  | closed i =>
    rw [StepwisePool.step]
    split
    · exact (h.setCall (hquiet rfl) i).close (h.held_of_getElem? ‹_› rfl)
    · exact (h.setCall (hquiet rfl) i).close (h.held_of_getElem? ‹_› rfl)
    · exact (h.setCall (hquiet rfl) i).close (h.held_of_getElem? ‹_› rfl)
    · exact h
  | acquired i =>
    rw [StepwisePool.step]
    split
    · exact h.acquire i _ _
    · exact h
  | acquireFails i =>
    rw [StepwisePool.step]
    split
    · exact h.setCall (hquiet rfl) i
    · exact h
  | entered i =>
    rw [StepwisePool.step]
    split
    · exact h.store ‹_›
    · exact h
  | enterFails i =>
    rw [StepwisePool.step]
    split
    · refine h.setCall ⟨by simp, ?_⟩ i
      intro l hl
      obtain rfl := Option.some.inj hl
      exact h.held_of_getElem? ‹_› rfl
    · exact h

end Owners

section Runs

def overwritten (e : StepwiseEvent κ) : Option ℕ :=
  match e with
  | .entered i =>
    match s.calls[i]? with
    | some (.entering key _ _) => (s.current key).map CurrentTheory.session
    | _ => none
  | _ => none

variable {s} {l : ℕ}

theorem overwritten_eq_none_iff {e : StepwiseEvent κ} :
    s.overwritten e = none ↔ s.StoresFree e := by
  cases e with
  | entered i =>
    dsimp only [overwritten, StoresFree]
    split
    · rename_i key theory session hi
      simp [hi]
    · rename_i hother
      refine iff_of_true rfl ?_
      intro key theory session hi
      exact absurd hi (hother key theory session)
  | _ => exact iff_of_true rfl trivial

variable [DecidableEq κ]

/-- Every session keeps its place or moves to another, but for one that is lost, and what is new is
in one place. -/
structure Moves (s t : StepwisePool κ) (lost : Option ℕ) : Prop where
  places : ∀ l < s.owners.length, t.places l + (if lost = some l then 1 else 0) = s.places l
  longer : s.owners.length ≤ t.owners.length
  new : ∀ l < t.owners.length, s.owners.length ≤ l → t.places l = 1

section Moves

variable {t : StepwisePool κ}

omit [DecidableEq κ] in
theorem Moves.of_owners {lost : Option ℕ} (howners : t.owners = s.owners)
    (hplaces : ∀ l, t.places l + (if lost = some l then 1 else 0) = s.places l) :
    s.Moves t lost where
  places l _ := hplaces l
  longer := by rw [howners]
  new l hl hle := by
    rw [howners] at hl
    exact absurd hl (not_lt.mpr hle)

omit [DecidableEq κ] in
theorem Moves.of_places (howners : t.owners = s.owners) (hplaces : ∀ l, t.places l = s.places l) :
    s.Moves t none := by
  refine .of_owners howners fun l => ?_
  rw [hplaces l]
  simp

omit [DecidableEq κ] in
theorem Moves.refl (s : StepwisePool κ) : s.Moves s none := .of_places rfl fun _ => rfl

omit [DecidableEq κ] in
theorem moves_addCall {c : StepwiseCall κ} (hc : c.session = none) :
    s.Moves (s.addCall c) none := by
  refine .of_places rfl fun l => ?_
  rw [places_addCall, StepwiseCall.holds, hc]
  simp

/-- What is popped is with the call that popped it. -/
theorem moves_pop (h : s.Owned) {key : κ} {cur : CurrentTheory} (hcur : s.current key = some cur)
    {c : StepwiseCall κ} (hc : c.session = some cur.session) :
    s.Moves ((s.pop key).addCall c) none := by
  refine .of_places rfl fun l => ?_
  rw [places_addCall, StepwiseCall.holds, hc]
  simpa using places_pop (l := l) h hcur

omit [DecidableEq κ] in
theorem moves_setCall {i : ℕ} {c c' : StepwiseCall κ} (hi : s.calls[i]? = some c)
    (hc : c'.session = c.session) : s.Moves (s.setCall i c') none := by
  refine .of_places rfl fun l => ?_
  have hplaces := places_setCall (l := l) hi c'
  rw [StepwiseCall.holds, StepwiseCall.holds, hc] at hplaces
  exact Nat.add_right_cancel hplaces

omit [DecidableEq κ] in
/-- The session that a call has closed. -/
theorem moves_close {i : ℕ} {c c' : StepwiseCall κ} {session : ℕ} (hi : s.calls[i]? = some c)
    (hc : c.session = some session) (hc' : c'.session = none) :
    s.Moves ((s.setCall i c').close session) none := by
  refine .of_places rfl fun l => ?_
  rw [places_close]
  simpa [StepwiseCall.holds, hc, hc'] using places_setCall (l := l) hi c'

omit [DecidableEq κ] in
theorem moves_acquire (h : s.Owned) {i : ℕ} {key : κ} {theory : Text}
    (hi : s.calls[i]? = some (.acquiring key theory)) :
    s.Moves (s.acquire i key theory) none := by
  obtain ⟨hold, hnew⟩ := places_acquire h hi
  have hlonger : (s.acquire i key theory).owners.length = s.owners.length + 1 := by
    simp [acquire]
  refine ⟨fun l hl => ?_, by omega, fun l hl hle => ?_⟩
  · rw [hold l hl]
    rfl
  · obtain rfl : l = s.owners.length := by omega
    exact hnew

theorem moves_store (h : s.Owned) {i : ℕ} {key : κ} {theory : Text} {session : ℕ}
    (hi : s.calls[i]? = some (.entering key theory session)) :
    s.Moves (s.store i key theory session) ((s.current key).map CurrentTheory.session) := by
  refine .of_owners rfl fun l => ?_
  rw [← places_store h hi]
  simp [Option.any_eq_true]

end Moves

/-- A step loses the session whose entry it overwrites. -/
theorem moves_step (h : s.Owned) (e : StepwiseEvent κ) :
    s.Moves (s.step e) (s.overwritten e) := by
  cases e with
  | openTheory key name =>
    rw [step, openTheory]
    cases hcur : s.current key with
    | none => exact moves_addCall rfl
    | some cur => exact moves_pop h hcur rfl
  | closeFor key =>
    rw [step, closeFor]
    cases hcur : s.current key with
    | none => exact moves_addCall rfl
    | some cur => exact moves_pop h hcur rfl
  | closed i =>
    rw [step]
    split
    case h_1 hi => exact moves_close hi rfl rfl
    case h_2 hi => exact moves_close hi rfl rfl
    case h_3 hi => exact moves_close hi rfl rfl
    case h_4 => exact .refl s
  | acquired i =>
    rw [step]
    split
    case h_1 hi => exact moves_acquire h hi
    case h_2 => exact .refl s
  | acquireFails i =>
    rw [step]
    split
    case h_1 hi => exact moves_setCall hi rfl
    case h_2 => exact .refl s
  | entered i =>
    rw [step, overwritten]
    split
    case h_1 hi => exact moves_store h hi
    case h_2 => exact .refl s
  | enterFails i =>
    rw [step]
    split
    case h_1 hi => exact moves_setCall hi rfl
    case h_2 => exact .refl s

/-- A store over an entry loses the session of the entry, and no other step loses one. -/
theorem whole_or_lost_step (h : s.Owned) (hwhole : s.Whole) (e : StepwiseEvent κ) :
    (s.StoresFree e → (s.step e).Whole) ∧ (¬ s.StoresFree e → (s.step e).Lost) := by
  obtain ⟨hplaces, hlonger, hnew⟩ := moves_step h e
  rw [← overwritten_eq_none_iff]
  constructor
  · intro hnone l hl
    by_cases hold : l < s.owners.length
    · have hl := hplaces l hold
      rw [hnone, hwhole l hold] at hl
      simpa using hl
    · exact hnew l hl (not_lt.mp hold)
  · intro hsome
    obtain ⟨l, hl⟩ := Option.ne_none_iff_exists'.mp hsome
    have hlt : l < s.owners.length := by
      cases e with
      | entered i =>
        dsimp only [overwritten] at hl
        split at hl
        · obtain ⟨cur, hcur, rfl⟩ := Option.map_eq_some_iff.mp hl
          exact (List.getElem?_eq_some_iff.mp (h.current hcur)).1
        · cases hl
      | _ => cases hl
    have hplace := hplaces l hlt
    rw [hl, hwhole l hlt, if_pos rfl] at hplace
    exact ⟨l, by omega, by omega⟩

theorem Lost.step (h : s.Owned) (hlost : s.Lost) (e : StepwiseEvent κ) : (s.step e).Lost := by
  obtain ⟨hplaces, hlonger, -⟩ := moves_step h e
  obtain ⟨l, hl, hnowhere⟩ := hlost
  have hplace := hplaces l hl
  exact ⟨l, by omega, by omega⟩

omit [DecidableEq κ] in
theorem recorded_eq_true_iff : s.recorded l = true ↔
    ∃ key, s.owners[l]? = some key ∧ ∃ cur, s.current key = some cur ∧ cur.session = l := by
  simp [recorded, Option.any_eq_true]

omit [DecidableEq κ] in
theorem places_of_quiet (h : s.Quiet) :
    s.places l = s.closed.count l + if s.recorded l then 1 else 0 := by
  have hcalls : s.calls.countP (StepwiseCall.holds l) = 0 := by
    refine List.countP_eq_zero.mpr fun c hc => ?_
    rw [h c hc]
    simp [StepwiseCall.holds, StepwiseCall.session]
  rw [places, hcalls, Nat.add_zero]

omit [DecidableEq κ] in
theorem oneEach_of_whole (h : s.Quiet) (hwhole : s.Whole) : s.OneEach := by
  intro l key howner hopen
  have hplace := hwhole l (List.getElem?_eq_some_iff.mp howner).1
  rw [places_of_quiet h, List.count_eq_zero.mpr hopen] at hplace
  have hrecorded : s.recorded l = true := by
    by_contra hno
    simp [hno] at hplace
  obtain ⟨k, hk, hcur⟩ := recorded_eq_true_iff.mp hrecorded
  obtain rfl := Option.some.inj (hk.symm.trans howner)
  exact hcur

omit [DecidableEq κ] in
theorem not_oneEach_of_lost (h : s.Quiet) (hlost : s.Lost) : ¬ s.OneEach := by
  intro hone
  obtain ⟨l, hl, hnowhere⟩ := hlost
  rw [places_of_quiet h] at hnowhere
  obtain ⟨hclosed, hrecorded⟩ := Nat.add_eq_zero_iff.mp hnowhere
  have hcur := hone l _ (List.getElem?_eq_getElem hl) (List.count_eq_zero.mp hclosed)
  have htrue : s.recorded l = true :=
    recorded_eq_true_iff.mpr ⟨_, List.getElem?_eq_getElem hl, hcur⟩
  simp [htrue] at hrecorded

/-- In every run behind which no call is in flight, each connection has at most the session that is
recorded for it, and all others have been closed, exactly when no store in the run has found an
entry of the connection. -/
theorem oneEach_iff_storesFree (es : List (StepwiseEvent κ))
    (hquiet : (es.foldl step ({} : StepwisePool κ)).Quiet) :
    (es.foldl step ({} : StepwisePool κ)).OneEach ↔
      Runs.EveryStep step StoresFree ({} : StepwisePool κ) es := by
  have hempty : Owned ({} : StepwisePool κ) ∧ Whole ({} : StepwisePool κ) := by
    refine ⟨⟨?_, ?_, ?_, ?_⟩, ?_⟩
    · intro key cur hcur
      cases hcur
    · intro key theory session hin
      cases hin
    · intro c l hin
      cases hin
    · intro l hin
      cases hin
    · intro l hl
      cases hl
  have hkeep : ∀ (s : StepwisePool κ) e, s.Owned ∧ s.Whole → s.StoresFree e →
      (s.step e).Owned ∧ (s.step e).Whole :=
    fun s e h hq => ⟨h.1.step e, (whole_or_lost_step h.1 h.2 e).1 hq⟩
  have hlose : ∀ (s : StepwisePool κ) e, s.Owned ∧ s.Whole → ¬ s.StoresFree e →
      (s.step e).Owned ∧ (s.step e).Lost :=
    fun s e h hq => ⟨h.1.step e, (whole_or_lost_step h.1 h.2 e).2 hq⟩
  have hlost : ∀ (s : StepwisePool κ) e, s.Owned ∧ s.Lost → (s.step e).Owned ∧ (s.step e).Lost :=
    fun s e h => ⟨h.1.step e, h.2.step h.1 e⟩
  rcases Runs.everyStep_or_lost hkeep hlose hlost hempty with ⟨hfree, -, hwhole⟩ | ⟨hover, -, hlost⟩
  · exact iff_of_true (oneEach_of_whole hquiet hwhole) hfree
  · exact iff_of_false (not_oneEach_of_lost hquiet hlost) hover

/-- Two calls of one connection acquire a session each, then both store it. -/
def crossingOpens : List (StepwiseEvent Unit) :=
  [.openTheory () ['A'], .openTheory () ['B'], .acquired 0, .acquired 1, .entered 0, .entered 1]

theorem oneEach_iff_storesFree_single :
    (([.openTheory () ['A'], .acquired 0, .entered 0] : List (StepwiseEvent Unit)).foldl step
        ({} : StepwisePool Unit)).Quiet ∧
      ((([.openTheory () ['A'], .acquired 0, .entered 0] : List (StepwiseEvent Unit)).foldl step
          ({} : StepwisePool Unit)).OneEach ↔
        Runs.EveryStep step StoresFree ({} : StepwisePool Unit)
          [.openTheory () ['A'], .acquired 0, .entered 0]) := by
  have hquiet : (([.openTheory () ['A'], .acquired 0, .entered 0] :
      List (StepwiseEvent Unit)).foldl step ({} : StepwisePool Unit)).Quiet := by
    intro c hc
    revert c
    decide
  exact ⟨hquiet, oneEach_iff_storesFree _ hquiet⟩

/-- The first session is neither recorded nor closed. -/
theorem crossingOpens_leak :
    (crossingOpens.foldl step ({} : StepwisePool Unit)).Quiet ∧
      ¬ (crossingOpens.foldl step ({} : StepwisePool Unit)).OneEach := by
  constructor
  · intro c hc
    revert c
    decide
  · intro h
    obtain ⟨cur, hcur, hsession⟩ := h 0 () (by decide) (by decide)
    have hlast : (crossingOpens.foldl step ({} : StepwisePool Unit)).current () =
        some ⟨1, ['B']⟩ := by decide
    rw [hlast] at hcur
    obtain rfl := Option.some.inj hcur
    cases hsession

end Runs

end StepwisePool

end IsabelleGym
