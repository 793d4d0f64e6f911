import Mathlib.Logic.Function.Basic
import Mathlib.Tactic.Common
import IsabelleGym.Runs
import IsabelleGym.ThyStatus

/-!
# The bindings of files to sessions

A tool call gets the binding of its file or creates one, loads the file where its
text is new, and calls the server. Behind a 404 it binds the file again: it
acquires a session, stores a new binding, asks the server to release the session
of the binding that was stored, and puts the new session into the binding that it
holds. A call runs from one await to the next; sessions are numbered as they are
acquired. The server answers 404 for a session that it has evicted, and 409 where
it is to release one while it counts a request on it. The pool takes no notice of
how a release is answered.
-/

namespace IsabelleGym

/-- A binding object. Calls hold it by its number, also where another one is stored for the file. -/
structure FileBinding (κ : Type*) where
  file : κ
  lease : ℕ
  cachedText : Option Text := none
  locked : Bool := false
deriving DecidableEq

structure LspPlan where
  sync : Bool
  call : Bool
deriving DecidableEq

inductive AfterSync
  | done | call | callAgain
deriving DecidableEq

inductive Rebind
  | sync (text : Text) (next : AfterSync)
  | call
deriving DecidableEq

/-- What a call waits for: a session for a new binding, the release of the session of the old one,
the lock of its binding, a load, the same for another binding, the call itself, or the release of
what it has closed. A release is asked for until the server has handled it. -/
inductive LspStage
  | acquiring (plan : LspPlan)
  | releasing (old : Option ℕ) (b : ℕ) (plan : LspPlan)
  | locking (b : ℕ) (text : Text) (next : AfterSync)
  | loading (b lease : ℕ) (text : Text) (next : AfterSync) (again : Bool)
  | rebinding (b : ℕ) (why : Rebind)
  | rereleasing (old : Option ℕ) (b fresh : ℕ) (why : Rebind)
  | calling (b lease : ℕ) (again : Bool)
  | closing (old : Option ℕ)
  | done
deriving DecidableEq

structure LspCall (κ : Type*) where
  file : κ
  stage : LspStage
deriving DecidableEq

/-- The files on disk, the map and the binding objects, the calls, the files that sessions were
acquired for, the sessions that the server has released, those that it has evicted, and those that
it counts a request on. -/
structure LspPool (κ : Type*) where
  disk : κ → Option Text
  bindings : κ → Option ℕ := fun _ => none
  objects : List (FileBinding κ) := []
  calls : List (LspCall κ) := []
  owners : List κ := []
  released : List ℕ := []
  evicted : List ℕ := []
  counted : List ℕ := []

/-- Requests are counted on a session from some time on, and may be counted when their call has
timed out. -/
inductive LspEvent (κ : Type*)
  | change (file : κ) (text : Option Text)
  | evict (lease : ℕ)
  | count (lease : ℕ)
  | uncount (lease : ℕ)
  | tool (file : κ) (plan : LspPlan)
  | close (file : κ)
  | acquired (i : ℕ)
  | acquireFails (i : ℕ)
  | serve (i : ℕ)
  | released (i : ℕ)
  | lock (i : ℕ)
  | loaded (i : ℕ)
  | loadNotFound (i : ℕ)
  | loadFails (i : ℕ)
  | called (i : ℕ)
  | callNotFound (i : ℕ)

namespace LspStage

/-- The object whose session the call uses next. -/
def object : LspStage → Option ℕ
  | releasing _ b _ => some b
  | locking b _ _ => some b
  | loading b _ _ _ _ => some b
  | rereleasing _ _ fresh _ => some fresh
  | calling b _ _ => some b
  | _ => none

/-- The object that the call puts the session of a new binding into. -/
def rebound : LspStage → Option ℕ
  | rebinding b _ => some b
  | rereleasing _ b _ _ => some b
  | _ => none

/-- The session of a request to the server that is under way. -/
def request : LspStage → Option ℕ
  | loading _ lease _ _ _ => some lease
  | calling _ lease _ => some lease
  | _ => none

/-- The session whose release the server has not handled. -/
def asked : LspStage → Option ℕ
  | releasing old _ _ => old
  | rereleasing old _ _ _ => old
  | closing old => old
  | _ => none

def served : LspStage → LspStage
  | releasing _ b plan => releasing none b plan
  | rereleasing _ b fresh why => rereleasing none b fresh why
  | closing _ => closing none
  | stage => stage

@[simp] theorem object_served (stage : LspStage) : stage.served.object = stage.object := by
  cases stage <;> rfl

@[simp] theorem rebound_served (stage : LspStage) : stage.served.rebound = stage.rebound := by
  cases stage <;> rfl

@[simp] theorem request_served (stage : LspStage) : stage.served.request = stage.request := by
  cases stage <;> rfl

@[simp] theorem asked_served (stage : LspStage) : stage.served.asked = none := by
  cases stage <;> rfl

end LspStage

namespace LspPool

variable {κ : Type*} (s : LspPool κ)

section Calls

def setCall (i : ℕ) (file : κ) (stage : LspStage) : LspPool κ :=
  { s with calls := s.calls.set i ⟨file, stage⟩ }

def addCall (file : κ) (stage : LspStage) : LspPool κ :=
  { s with calls := s.calls ++ [⟨file, stage⟩] }

def setObject (b : ℕ) (f : FileBinding κ → FileBinding κ) : LspPool κ :=
  { s with objects := s.objects.modify b f }

def leaseOf (b : ℕ) : ℕ := ((s.objects[b]?).map FileBinding.lease).getD 0

def lock (b : ℕ) : LspPool κ := s.setObject b fun o => { o with locked := true }

def unlock (b : ℕ) : LspPool κ := s.setObject b fun o => { o with locked := false }

def proceed (i : ℕ) (file : κ) (b : ℕ) : AfterSync → LspPool κ
  | .done => s.setCall i file .done
  | .call => s.setCall i file (.calling b (s.leaseOf b) false)
  | .callAgain => s.setCall i file (.calling b (s.leaseOf b) true)

def enterLock (i : ℕ) (file : κ) (b : ℕ) (text : Text) (next : AfterSync) : LspPool κ :=
  if (s.objects[b]?).any fun o => o.cachedText = some text then s.proceed i file b next
  else (s.lock b).setCall i file (.loading b (s.leaseOf b) text next false)

/-- `sync` raises where the file is missing. -/
def startSync (i : ℕ) (file : κ) (b : ℕ) (next : AfterSync) : LspPool κ :=
  match s.disk file with
  | none => s.setCall i file .done
  | some text =>
    if (s.objects[b]?).any FileBinding.locked then s.setCall i file (.locking b text next)
    else s.enterLock i file b text next

def bound (i : ℕ) (file : κ) (b : ℕ) (plan : LspPlan) : LspPool κ :=
  if plan.sync then s.startSync i file b (if plan.call then .call else .done)
  else s.proceed i file b (if plan.call then .call else .done)

/-- A call goes on behind the creation of a binding. Where it has held one, the session of the new
binding is put into that. -/
def created (i : ℕ) : LspPool κ :=
  match s.calls[i]? with
  | some ⟨file, .releasing none b plan⟩ => s.bound i file b plan
  | some ⟨file, .rereleasing none b fresh why⟩ =>
    let rebound := s.setObject b fun o => { o with lease := s.leaseOf fresh, cachedText := none }
    match why with
    | .sync text next => rebound.setCall i file (.loading b (s.leaseOf fresh) text next true)
    | .call => rebound.startSync i file b .callAgain
  | _ => s

end Calls

variable [DecidableEq κ]

/-- `get_binding`: a call with a binding goes on as behind the creation of one. -/
def tool (file : κ) (plan : LspPlan) : LspPool κ :=
  match s.bindings file with
  | some b => (s.addCall file (.releasing none b plan)).created s.calls.length
  | none => s.addCall file (.acquiring plan)

def popped (file : κ) : Option ℕ := (s.bindings file).map s.leaseOf

def unbind (file : κ) : LspPool κ := { s with bindings := Function.update s.bindings file none }

def enter (file : κ) : LspPool κ :=
  { s with
    bindings := Function.update s.bindings file (some s.objects.length)
    objects := s.objects ++ [{ file, lease := s.owners.length }]
    owners := s.owners ++ [file] }

/-- The end of `_create_binding`: the new binding is stored in the place of another one. Only the
release of that one's session takes a request. -/
def storeCreated (i : ℕ) (file : κ) (stage : Option ℕ → LspStage) : LspPool κ :=
  let stored := ((s.unbind file).enter file).setCall i file (stage (s.popped file))
  if (s.bindings file).isSome then stored else stored.created i

/-- `close_session` behind a binding that is to be destroyed has the checks of a release. -/
def closeBinding (file : κ) : LspPool κ :=
  if (s.bindings file).isSome then (s.unbind file).addCall file (.closing (s.popped file))
  else s.addCall file .done

/-- The server handles a release: it gives up the session, unless it does not have it any more or
is busy with it. -/
def serve (i l : ℕ) (c : LspCall κ) : LspPool κ :=
  { s.setCall i c.file c.stage.served with
    released := if l ∈ s.evicted ∨ l ∈ s.counted then s.released else l :: s.released }

def step (s : LspPool κ) (e : LspEvent κ) : LspPool κ :=
  match e with
  | .change file text => { s with disk := Function.update s.disk file text }
  | .evict lease => { s with evicted := lease :: s.evicted }
  | .count lease => { s with counted := lease :: s.counted }
  | .uncount lease => { s with counted := s.counted.erase lease }
  | .tool file plan => s.tool file plan
  | .close file => s.closeBinding file
  | .acquired i =>
    match s.calls[i]? with
    | some ⟨file, .acquiring plan⟩ =>
      s.storeCreated i file fun old => .releasing old s.objects.length plan
    | some ⟨file, .rebinding b why⟩ =>
      s.storeCreated i file fun old => .rereleasing old b s.objects.length why
    | _ => s
  | .acquireFails i =>
    match s.calls[i]? with
    | some ⟨file, .acquiring _⟩ => s.setCall i file .done
    | some ⟨file, .rebinding b (.sync _ _)⟩ => (s.unlock b).setCall i file .done
    | some ⟨file, .rebinding _ .call⟩ => s.setCall i file .done
    | _ => s
  | .serve i =>
    match s.calls[i]? with
    | some c => (c.stage.asked.map fun l => s.serve i l c).getD s
    | none => s
  | .released i =>
    match s.calls[i]? with
    | some ⟨file, .closing none⟩ => s.setCall i file .done
    | _ => s.created i
  | .lock i =>
    match s.calls[i]? with
    | some ⟨file, .locking b text next⟩ =>
      if (s.objects[b]?).any FileBinding.locked then s else s.enterLock i file b text next
    | _ => s
  | .loaded i =>
    match s.calls[i]? with
    | some ⟨file, .loading b _ text next _⟩ =>
      (s.setObject b fun o => { o with cachedText := some text, locked := false }).proceed
        i file b next
    | _ => s
  | .loadNotFound i =>
    match s.calls[i]? with
    | some ⟨file, .loading b lease text next false⟩ =>
      if lease ∈ s.evicted then s.setCall i file (.rebinding b (.sync text next)) else s
    | _ => s
  | .loadFails i =>
    match s.calls[i]? with
    | some ⟨file, .loading b _ _ _ _⟩ => (s.unlock b).setCall i file .done
    | _ => s
  | .called i =>
    match s.calls[i]? with
    | some ⟨file, .calling _ _ _⟩ => s.setCall i file .done
    | _ => s
  | .callNotFound i =>
    match s.calls[i]? with
    | some ⟨file, .calling b lease false⟩ =>
      if lease ∈ s.evicted then s.setCall i file (.rebinding b .call) else s
    | _ => s

section Leases

/-- The sessions that a call uses: that of the binding it holds, and that of its request. -/
def uses (stage : LspStage) : List ℕ :=
  (stage.object.map s.leaseOf).toList ++ stage.request.toList

def Recorded (file : κ) (l : ℕ) : Prop :=
  ∃ m o, s.bindings file = some m ∧ s.objects[m]? = some o ∧ o.lease = l

/-- The server has the session leased for the file. -/
def Outstanding (file : κ) (l : ℕ) : Prop :=
  s.owners[l]? = some file ∧ l ∉ s.released ∧ l ∉ s.evicted

/-- No call uses a session that the server has released. -/
def UsedKept : Prop :=
  ∀ c ∈ s.calls, ∀ l ∈ s.uses c.stage, l ∉ s.evicted → l ∉ s.released

/-- Without a call in flight the sessions outstanding are those of the map, as far as the server has
not evicted them. -/
def OneLease : Prop :=
  s.UsedKept ∧ ((∀ c ∈ s.calls, c.stage = .done) →
    ∀ l file, s.Outstanding file l ↔ s.Recorded file l ∧ l ∉ s.evicted)

def Asked (l : ℕ) : Prop := ∃ c ∈ s.calls, c.stage.asked = some l

/-- At every time a session outstanding is that of the map, or its release is to be handled. -/
def NoneLost : Prop := ∀ l file, s.Outstanding file l → s.Recorded file l ∨ s.Asked l

/-- When the server handles a release it has evicted the session, or it counts no request on it and
no call uses it. -/
def ReleasesIdle (e : LspEvent κ) : Prop :=
  match e with
  | .serve i => ∀ c, s.calls[i]? = some c → ∀ l, c.stage.asked = some l →
      l ∈ s.evicted ∨ l ∉ s.counted ∧ ∀ d ∈ s.calls, l ∉ s.uses d.stage
  | _ => True

end Leases

section Bindings

omit [DecidableEq κ]

/-- The release of the session is asked for, by a call or for the one that is popped now. -/
def AskedWith (popped : Option ℕ) (l : ℕ) : Prop := s.Asked l ∨ popped = some l

/-- A binding of the map has the file and a session that was acquired for it, which nobody has asked
to release. -/
def Entry (popped : Option ℕ) (file : κ) (m : ℕ) : Prop :=
  ∃ o, s.objects[m]? = some o ∧ o.file = file ∧ s.owners[o.lease]? = some file ∧
    o.lease ∉ s.released ∧ ¬ s.AskedWith popped o.lease

structure MapGood (popped : Option ℕ) : Prop where
  entry : ∀ file m, s.bindings file = some m → s.Entry popped file m
  early : ∀ l ∈ s.released, l < s.owners.length
  kept : ∀ l file, s.owners[l]? = some file →
    l ∈ s.released ∨ l ∈ s.evicted ∨ s.Recorded file l ∨ s.AskedWith popped l

/-- A release that is asked for is asked for once, and not handled before. -/
structure AskedGood (popped : Option ℕ) : Prop where
  acquired : ∀ l, s.AskedWith popped l → ∃ file, s.owners[l]? = some file
  kept : ∀ l, s.AskedWith popped l → l ∉ s.released
  once : ∀ (i j : ℕ) (c d : LspCall κ) (l : ℕ), s.calls[i]? = some c → s.calls[j]? = some d →
    c.stage.asked = some l → d.stage.asked = some l → i = j
  new : ∀ l, popped = some l → ¬ s.Asked l

/-- The binding is one of the file, and its session is not released. -/
def Held (file : κ) (b : ℕ) : Prop :=
  ∃ o, s.objects[b]? = some o ∧ o.file = file ∧ (o.lease ∉ s.evicted → o.lease ∉ s.released)

structure CallGood (c : LspCall κ) : Prop where
  held : ∀ b, c.stage.object = some b → s.Held c.file b
  request : ∀ l, c.stage.request = some l → l ∉ s.evicted → l ∉ s.released
  rebound : ∀ b, c.stage.rebound = some b → ∃ o, s.objects[b]? = some o ∧ o.file = c.file
  apart : ∀ old b fresh why, c.stage = .rereleasing old b fresh why → s.bindings c.file ≠ some b

structure Good (popped : Option ℕ) : Prop where
  map : s.MapGood popped
  asked : s.AskedGood popped
  calls : ∀ c ∈ s.calls, s.CallGood c

variable {s} {popped : Option ℕ}

theorem askedWith_none {l : ℕ} : s.AskedWith none l ↔ s.Asked l := by simp [AskedWith]

theorem leaseOf_eq {b : ℕ} {o : FileBinding κ} (h : s.objects[b]? = some o) :
    s.leaseOf b = o.lease := by
  simp [leaseOf, h]

theorem Held.leaseOf {file : κ} {b : ℕ} (h : s.Held file b) (hl : s.leaseOf b ∉ s.evicted) :
    s.leaseOf b ∉ s.released := by
  obtain ⟨o, ho, -, hkept⟩ := h
  rw [leaseOf_eq ho] at hl ⊢
  exact hkept hl

theorem MapGood.recorded_entry (h : s.MapGood popped) {file : κ} {l : ℕ} (hl : s.Recorded file l) :
    s.owners[l]? = some file ∧ l ∉ s.released ∧ ¬ s.AskedWith popped l := by
  obtain ⟨m, o, hm, ho, rfl⟩ := hl
  obtain ⟨o', ho', -, howner, hout, hnot⟩ := h.entry file m hm
  obtain rfl : o = o' := by simpa [ho] using ho'
  exact ⟨howner, hout, hnot⟩

theorem CallGood.uses {c : LspCall κ} (h : s.CallGood c) {l : ℕ} (hl : l ∈ s.uses c.stage)
    (hout : l ∉ s.evicted) : l ∉ s.released := by
  simp only [LspPool.uses, List.mem_append, Option.mem_toList, Option.map_eq_some_iff] at hl
  rcases hl with ⟨b, hb, rfl⟩ | hl
  · exact (h.held b hb).leaseOf hout
  · exact h.request l hl hout

theorem Good.usedKept (h : s.Good popped) : s.UsedKept :=
  fun c hc _ hl hout => (h.calls c hc).uses hl hout

theorem Good.noneLost (h : s.Good none) : s.NoneLost := by
  rintro l file ⟨howner, hout, hin⟩
  rcases h.map.kept l file howner with hreleased | hevicted | hrecorded | hasked
  · exact absurd hreleased hout
  · exact absurd hevicted hin
  · exact .inl hrecorded
  · exact .inr (askedWith_none.mp hasked)

theorem Good.oneLease (h : s.Good none) : s.OneLease := by
  refine ⟨h.usedKept, fun hquiet l file => ⟨fun hout => ⟨?_, hout.2.2⟩, ?_⟩⟩
  · refine (h.noneLost l file hout).resolve_right ?_
    rintro ⟨c, hc, hasked⟩
    rw [hquiet c hc] at hasked
    cases hasked
  · rintro ⟨hrecorded, hin⟩
    obtain ⟨howner, hreleased, -⟩ := h.map.recorded_entry hrecorded
    exact ⟨howner, hreleased, hin⟩

section Calls

variable {i : ℕ} {file : κ} {stage : LspStage}

/-- The parts of the state that a change of the calls leaves alone. -/
theorem MapGood.of_asked {t : LspPool κ} (h : s.MapGood popped)
    (hsame : t.bindings = s.bindings ∧ t.objects = s.objects ∧ t.owners = s.owners ∧
      t.released = s.released ∧ t.evicted = s.evicted)
    (hasked : ∀ l, t.Asked l ↔ s.AskedWith popped l) : t.MapGood none := by
  obtain ⟨hbindings, hobjects, howners, hreleased, hevicted⟩ := hsame
  constructor
  case entry =>
    intro file m hm
    unfold Entry
    rw [hobjects, howners, hreleased]
    simp only [askedWith_none, hasked]
    exact h.entry file m (hbindings ▸ hm)
  case early =>
    rw [hreleased, howners]
    exact h.early
  case kept =>
    intro l file
    unfold Recorded
    rw [howners, hreleased, hevicted, hbindings, hobjects, askedWith_none, hasked]
    exact h.kept l file

def Unasked (s : LspPool κ) (i : ℕ) : Prop := ∀ c, s.calls[i]? = some c → c.stage.asked = none

theorem unasked_of {c : LspCall κ} (hcall : s.calls[i]? = some c) (h : c.stage.asked = none) :
    s.Unasked i := by
  intro d hd
  rw [hcall] at hd
  cases hd
  exact h

theorem getElem?_setCall {j : ℕ} {c : LspCall κ} (h : (s.setCall i file stage).calls[j]? = some c) :
    s.calls[j]? = some c ∧ i ≠ j ∨ i = j ∧ c = ⟨file, stage⟩ := by
  have h : (s.calls.set i ⟨file, stage⟩)[j]? = some c := h
  rw [List.getElem?_set] at h
  split at h
  · split at h
    · exact .inr ⟨‹i = j›, (Option.some.inj h).symm⟩
    · cases h
  · exact .inl ⟨h, ‹¬ i = j›⟩

theorem asked_setCall (hlt : i < s.calls.length) (hfree : s.Unasked i) (l : ℕ) :
    (s.setCall i file stage).Asked l ↔ s.AskedWith stage.asked l := by
  constructor
  · rintro ⟨c, hc, hl⟩
    rcases List.mem_or_eq_of_mem_set hc with hold | rfl
    · exact .inl ⟨c, hold, hl⟩
    · exact .inr hl
  · rintro (⟨c, hc, hl⟩ | hl)
    · obtain ⟨j, hj⟩ := List.mem_iff_getElem?.mp hc
      have hne : i ≠ j := by
        rintro rfl
        rw [hfree c hj] at hl
        cases hl
      refine ⟨c, List.mem_of_getElem? (i := j) ?_, hl⟩
      show (s.calls.set i _)[j]? = _
      rw [List.getElem?_set_ne hne, hj]
    · exact ⟨⟨file, stage⟩, List.mem_of_getElem? (List.getElem?_set_self hlt), hl⟩

/-- A call takes over the release of the session that is popped. -/
theorem Good.setCall (stage : LspStage) (h : s.Good stage.asked) (hlt : i < s.calls.length)
    (hfree : s.Unasked i) (hc : s.CallGood ⟨file, stage⟩) : (s.setCall i file stage).Good none where
  map := h.map.of_asked ⟨rfl, rfl, rfl, rfl, rfl⟩ (asked_setCall hlt hfree)
  asked :=
    { acquired := fun l hl =>
        h.asked.acquired l ((asked_setCall hlt hfree l).mp (askedWith_none.mp hl))
      kept := fun l hl => h.asked.kept l ((asked_setCall hlt hfree l).mp (askedWith_none.mp hl))
      once := by
        intro j k c d l hj hk hcl hdl
        rcases getElem?_setCall hj with ⟨hj, -⟩ | ⟨rfl, rfl⟩
        · rcases getElem?_setCall hk with ⟨hk, -⟩ | ⟨rfl, rfl⟩
          · exact h.asked.once j k c d l hj hk hcl hdl
          · exact absurd ⟨c, List.mem_of_getElem? hj, hcl⟩ (h.asked.new l hdl)
        · rcases getElem?_setCall hk with ⟨hk, -⟩ | ⟨hik, -⟩
          · exact absurd ⟨d, List.mem_of_getElem? hk, hdl⟩ (h.asked.new l hcl)
          · exact hik
      new := fun _ hl => by cases hl }
  calls := by
    intro c hmem
    rcases List.mem_or_eq_of_mem_set hmem with hold | rfl
    · have hgood := h.calls c hold
      exact ⟨hgood.held, hgood.request, hgood.rebound, hgood.apart⟩
    · exact ⟨hc.held, hc.request, hc.rebound, hc.apart⟩

theorem asked_addCall (l : ℕ) :
    (s.addCall file stage).Asked l ↔ s.AskedWith stage.asked l := by
  constructor
  · rintro ⟨c, hc, hl⟩
    rcases List.mem_append.mp hc with hold | hnew
    · exact .inl ⟨c, hold, hl⟩
    · obtain rfl := List.mem_singleton.mp hnew
      exact .inr hl
  · rintro (⟨c, hc, hl⟩ | hl)
    · exact ⟨c, List.mem_append_left _ hc, hl⟩
    · exact ⟨⟨file, stage⟩, List.mem_append_right _ (List.mem_singleton.mpr rfl), hl⟩

theorem getElem?_addCall {j : ℕ} {c : LspCall κ} (h : (s.addCall file stage).calls[j]? = some c) :
    s.calls[j]? = some c ∨ j = s.calls.length ∧ c = ⟨file, stage⟩ := by
  have h : (s.calls ++ [⟨file, stage⟩])[j]? = some c := h
  rcases Nat.lt_or_ge j s.calls.length with hlt | hge
  · rw [List.getElem?_append_left hlt] at h
    exact .inl h
  · rw [List.getElem?_append_right hge, List.getElem?_singleton] at h
    split at h
    · exact .inr ⟨by omega, (Option.some.inj h).symm⟩
    · cases h

theorem Good.addCall (stage : LspStage) (h : s.Good stage.asked)
    (hc : s.CallGood ⟨file, stage⟩) :
    (s.addCall file stage).Good none where
  map := h.map.of_asked ⟨rfl, rfl, rfl, rfl, rfl⟩ asked_addCall
  asked :=
    { acquired := fun l hl => h.asked.acquired l ((asked_addCall l).mp (askedWith_none.mp hl))
      kept := fun l hl => h.asked.kept l ((asked_addCall l).mp (askedWith_none.mp hl))
      once := by
        intro j k c d l hj hk hcl hdl
        rcases getElem?_addCall hj with hj | ⟨rfl, rfl⟩
        · rcases getElem?_addCall hk with hk | ⟨rfl, rfl⟩
          · exact h.asked.once j k c d l hj hk hcl hdl
          · exact absurd ⟨c, List.mem_of_getElem? hj, hcl⟩ (h.asked.new l hdl)
        · rcases getElem?_addCall hk with hk | ⟨rfl, -⟩
          · exact absurd ⟨d, List.mem_of_getElem? hk, hdl⟩ (h.asked.new l hcl)
          · rfl
      new := fun _ hl => by cases hl }
  calls := by
    intro c hmem
    rcases List.mem_append.mp hmem with hold | hnew
    · have hgood := h.calls c hold
      exact ⟨hgood.held, hgood.request, hgood.rebound, hgood.apart⟩
    · obtain rfl := List.mem_singleton.mp hnew
      exact ⟨hc.held, hc.request, hc.rebound, hc.apart⟩

end Calls

/-- A call at one of the stages behind `get_binding`. -/
theorem Held.callGood {file : κ} {b : ℕ} (h : s.Held file b) {stage : LspStage}
    (hobject : stage.object = some b) (hrebound : stage.rebound = none)
    (hrequest : ∀ l, stage.request = some l → l = s.leaseOf b) : s.CallGood ⟨file, stage⟩ where
  held := by
    intro b' hb
    obtain rfl : b = b' := by simpa [hobject] using hb
    exact h
  request := by
    intro l hl hout
    rw [hrequest l hl] at hout ⊢
    exact h.leaseOf hout
  rebound := by simp [hrebound]
  apart := by
    rintro old b' fresh why rfl
    simp [LspStage.rebound] at hrebound

theorem callGood_of_none {file : κ} {stage : LspStage} (hobject : stage.object = none)
    (hrequest : stage.request = none) (hrebound : stage.rebound = none) :
    s.CallGood ⟨file, stage⟩ where
  held := by simp [hobject]
  request := by simp [hrequest]
  rebound := by simp [hrebound]
  apart := by
    rintro old b fresh why rfl
    simp [LspStage.object] at hobject

theorem CallGood.rebinding {file : κ} {b : ℕ} (why : Rebind)
    (h : ∃ o, s.objects[b]? = some o ∧ o.file = file) : s.CallGood ⟨file, .rebinding b why⟩ where
  held := by simp [LspStage.object]
  request := by simp [LspStage.request]
  rebound := by
    intro b' hb
    obtain rfl : b = b' := by simpa [LspStage.rebound] using hb
    exact h
  apart := by simp

section Running

variable {i : ℕ} (hlt : i < s.calls.length) (hfree : s.Unasked i)

include hlt hfree

theorem Good.done (h : s.Good none) (file : κ) : (s.setCall i file .done).Good none :=
  Good.setCall .done h hlt hfree (callGood_of_none rfl rfl rfl)

theorem Good.proceed (h : s.Good none) {file : κ} {b : ℕ} (hb : s.Held file b)
    (next : AfterSync) : (s.proceed i file b next).Good none := by
  cases next with
  | done => exact h.done hlt hfree file
  | call =>
    exact Good.setCall (.calling b (s.leaseOf b) false) h hlt hfree
      (hb.callGood rfl rfl (by simp [LspStage.request]))
  | callAgain =>
    exact Good.setCall (.calling b (s.leaseOf b) true) h hlt hfree
      (hb.callGood rfl rfl (by simp [LspStage.request]))

end Running

theorem Good.evict (h : s.Good none) (lease : ℕ) :
    ({ s with evicted := lease :: s.evicted } : LspPool κ).Good none := by
  refine ⟨⟨h.map.entry, h.map.early, ?_⟩, ⟨h.asked.acquired, h.asked.kept, h.asked.once,
    h.asked.new⟩, ?_⟩
  · intro l file hl
    exact (h.map.kept l file hl).imp_right (Or.imp_left (List.mem_cons_of_mem _))
  · intro c hc
    have hgood := h.calls c hc
    refine ⟨?_, ?_, hgood.rebound, hgood.apart⟩
    · intro b hb
      obtain ⟨o, ho, hfile, hkept⟩ := hgood.held b hb
      exact ⟨o, ho, hfile, fun hout => hkept fun hmem => hout (List.mem_cons_of_mem _ hmem)⟩
    · intro l hl hout
      exact hgood.request l hl fun hmem => hout (List.mem_cons_of_mem _ hmem)

theorem Good.counting (h : s.Good none) (counted : List ℕ) :
    ({ s with counted } : LspPool κ).Good none :=
  ⟨⟨h.map.entry, h.map.early, h.map.kept⟩, ⟨h.asked.acquired, h.asked.kept, h.asked.once,
    h.asked.new⟩, fun c hc => have hgood := h.calls c hc
      ⟨hgood.held, hgood.request, hgood.rebound, hgood.apart⟩⟩

section Objects

variable {b : ℕ} {g : FileBinding κ → FileBinding κ}

/-- The update keeps the file; it keeps the session too, or the object is not in the map and gets
a session that is not released. -/
structure Update (s : LspPool κ) (b : ℕ) (g : FileBinding κ → FileBinding κ) : Prop where
  file : ∀ o, (g o).file = o.file
  lease : (∀ o, (g o).lease = o.lease) ∨
    (∀ file, s.bindings file ≠ some b) ∧
      ∀ o, s.objects[b]? = some o → (g o).lease ∉ s.evicted → (g o).lease ∉ s.released

theorem objects_setObject (x : ℕ) : (s.setObject b g).objects[x]? =
    if b = x then (s.objects[x]?).map g else s.objects[x]? := by
  simp only [setObject, List.getElem?_modify]
  split <;> simp

theorem Update.recorded (hu : s.Update b g) {file : κ} {l : ℕ} (h : s.Recorded file l) :
    (s.setObject b g).Recorded file l := by
  obtain ⟨m, o, hm, ho, hl⟩ := h
  by_cases hbm : b = m
  · refine ⟨m, g o, hm, by simp [objects_setObject, hbm, ho], ?_⟩
    rcases hu.lease with hsame | ⟨hout, -⟩
    · rw [hsame, hl]
    · exact absurd (hbm ▸ hm) (hout file)
  · exact ⟨m, o, hm, by simp [objects_setObject, hbm, ho], hl⟩

theorem Update.held (hu : s.Update b g) {file : κ} {x : ℕ} (h : s.Held file x) :
    (s.setObject b g).Held file x := by
  obtain ⟨o, ho, hfile, hkept⟩ := h
  by_cases hbx : b = x
  · refine ⟨g o, by simp [objects_setObject, hbx, ho], by rw [hu.file, hfile], ?_⟩
    rcases hu.lease with hsame | ⟨-, hnew⟩
    · rw [hsame]
      exact hkept
    · exact hnew o (hbx ▸ ho)
  · exact ⟨o, by simp [objects_setObject, hbx, ho], hfile, hkept⟩

theorem Good.setObject (h : s.Good none) (hu : s.Update b g) : (s.setObject b g).Good none where
  map :=
    { entry := by
        intro file m hm
        obtain ⟨o, ho, hfile, hrest⟩ := h.map.entry file m hm
        by_cases hbm : b = m
        · have hsame : (g o).lease = o.lease := by
            rcases hu.lease with hsame | ⟨hfree, -⟩
            · exact hsame o
            · exact absurd (hbm ▸ hm) (hfree file)
          refine ⟨g o, by simp [objects_setObject, hbm, ho], by rw [hu.file, hfile], ?_⟩
          rw [hsame]
          exact hrest
        · exact ⟨o, by simp [objects_setObject, hbm, ho], hfile, hrest⟩
      early := h.map.early
      kept := fun l file hl =>
        (h.map.kept l file hl).imp_right (Or.imp_right (Or.imp_left hu.recorded)) }
  asked := ⟨h.asked.acquired, h.asked.kept, h.asked.once, h.asked.new⟩
  calls := by
    intro c hc
    have hgood := h.calls c hc
    refine ⟨fun x hx => hu.held (hgood.held x hx), hgood.request, ?_, hgood.apart⟩
    intro x hx
    obtain ⟨o, ho, hfile⟩ := hgood.rebound x hx
    by_cases hbx : b = x
    · exact ⟨g o, by simp [objects_setObject, hbx, ho], by rw [hu.file, hfile]⟩
    · exact ⟨o, by simp [objects_setObject, hbx, ho], hfile⟩

theorem Good.unlock (h : s.Good none) (b : ℕ) : (s.unlock b).Good none :=
  h.setObject ⟨fun _ => rfl, Or.inl fun _ => rfl⟩

end Objects

theorem leaseOf_lock (b x : ℕ) : (s.lock b).leaseOf x = s.leaseOf x := by
  unfold leaseOf lock
  rw [objects_setObject]
  split
  · rw [Option.map_map]
    rfl
  · rfl

section Creating

variable {i : ℕ} (hlt : i < s.calls.length) (hfree : s.Unasked i)

include hlt hfree

theorem Good.unlocked (h : s.Good none) (file : κ) (b : ℕ) :
    ((s.unlock b).setCall i file .done).Good none :=
  Good.done (s := s.unlock b) hlt hfree (h.unlock b) file

theorem Good.enterLock (h : s.Good none) {file : κ} {b : ℕ} (hb : s.Held file b) (text : Text)
    (next : AfterSync) : (s.enterLock i file b text next).Good none := by
  unfold LspPool.enterLock
  split
  · exact h.proceed hlt hfree hb next
  · have hu : s.Update b fun o => { o with locked := true } := ⟨fun _ => rfl, Or.inl fun _ => rfl⟩
    apply Good.setCall (.loading b (s.leaseOf b) text next false) (s := s.lock b)
      (h.setObject hu) hlt hfree
    apply (hu.held hb).callGood rfl rfl
    rintro l hl
    obtain rfl : s.leaseOf b = l := by simpa [LspStage.request] using hl
    exact (leaseOf_lock b b).symm

theorem Good.startSync (h : s.Good none) {file : κ} {b : ℕ} (hb : s.Held file b)
    (next : AfterSync) : (s.startSync i file b next).Good none := by
  unfold LspPool.startSync
  split
  · exact h.done hlt hfree file
  · rename_i text _
    split
    · exact Good.setCall (.locking b text next) h hlt hfree
        (hb.callGood rfl rfl (by simp [LspStage.request]))
    · exact h.enterLock hlt hfree hb _ next

theorem Good.bound (h : s.Good none) {file : κ} {b : ℕ} (hb : s.Held file b) (plan : LspPlan) :
    (s.bound i file b plan).Good none := by
  unfold LspPool.bound
  split
  · exact h.startSync hlt hfree hb _
  · exact h.proceed hlt hfree hb _

end Creating

/-- The session of the new binding is put into the one that the call holds. -/
theorem CallGood.update {file : κ} {old : Option ℕ} {b fresh : ℕ} {why : Rebind}
    (hmap : s.MapGood popped) (h : s.CallGood ⟨file, .rereleasing old b fresh why⟩) :
    s.Update b fun o => { o with lease := s.leaseOf fresh, cachedText := none } := by
  obtain ⟨o, ho, hfile⟩ := h.rebound b rfl
  refine ⟨fun _ => rfl, Or.inr ⟨?_, fun _ _ hout => (h.held fresh rfl).leaseOf hout⟩⟩
  intro file' hm
  obtain ⟨o', ho', hfile', -⟩ := hmap.entry file' b hm
  obtain rfl : o = o' := by simpa [ho] using ho'
  obtain rfl : file = file' := hfile.symm.trans hfile'
  exact h.apart old b fresh why rfl hm

theorem Good.created (h : s.Good none) (i : ℕ) : (s.created i).Good none := by
  unfold LspPool.created
  split
  · rename_i file b plan hcall
    exact h.bound (List.getElem?_eq_some_iff.mp hcall).1 (unasked_of hcall rfl)
      ((h.calls _ (List.mem_of_getElem? hcall)).held b rfl) plan
  · rename_i file b fresh why hcall
    have hlt : i < s.calls.length := (List.getElem?_eq_some_iff.mp hcall).1
    have hfree : s.Unasked i := unasked_of hcall rfl
    have hgood := h.calls _ (List.mem_of_getElem? hcall)
    obtain ⟨o, ho, hfile⟩ := hgood.rebound b rfl
    have hu := hgood.update h.map
    have hlease : (s.setObject b fun o =>
        { o with lease := s.leaseOf fresh, cachedText := none }).leaseOf b = s.leaseOf fresh := by
      simp [leaseOf, objects_setObject, ho]
    have hb : (s.setObject b fun o =>
        { o with lease := s.leaseOf fresh, cachedText := none }).Held file b :=
      ⟨{ o with lease := s.leaseOf fresh, cachedText := none }, by
        simp [objects_setObject, ho], hfile, (hgood.held fresh rfl).leaseOf⟩
    cases why with
    | sync text next =>
      apply Good.setCall _ (s := s.setObject b _) (h.setObject hu) hlt hfree
      apply hb.callGood rfl rfl
      intro l hl
      rw [hlease]
      simpa [LspStage.request] using hl.symm
    | call => exact Good.startSync (s := s.setObject b _) hlt hfree (h.setObject hu) hb .callAgain
  · exact h

theorem Good.tool [DecidableEq κ] (h : s.Good none) (file : κ) (plan : LspPlan) :
    (s.tool file plan).Good none := by
  unfold LspPool.tool
  split
  · rename_i b hb
    obtain ⟨o, ho, hfile, howner, hout, -⟩ := h.map.entry file b hb
    have hheld : s.Held file b := ⟨o, ho, hfile, fun _ => hout⟩
    exact (Good.addCall (.releasing none b plan) h
      (hheld.callGood rfl rfl (by simp [LspStage.request]))).created _
  · exact Good.addCall (.acquiring plan) h (callGood_of_none rfl rfl rfl)

end Bindings

section Steps

variable {s}

section Unbind

theorem Recorded.of_unbind {file file' : κ} {l : ℕ} (hne : file' ≠ file)
    (h : s.Recorded file' l) : (s.unbind file).Recorded file' l := by
  obtain ⟨m, o, hm, ho, hl⟩ := h
  refine ⟨m, o, ?_, ho, hl⟩
  rw [← hm]
  exact Function.update_of_ne hne _ _

omit [DecidableEq κ] in
theorem recorded_of_popped (hmap : s.MapGood none) {file : κ} {l : ℕ}
    (h : s.popped file = some l) : s.Recorded file l := by
  obtain ⟨m, hm, rfl⟩ := Option.map_eq_some_iff.mp h
  obtain ⟨o, ho, -⟩ := hmap.entry file m hm
  exact ⟨m, o, hm, ho, (leaseOf_eq ho).symm⟩

omit [DecidableEq κ] in
theorem popped_of_recorded {file : κ} {l : ℕ} (h : s.Recorded file l) :
    s.popped file = some l := by
  obtain ⟨m, o, hm, ho, rfl⟩ := h
  rw [popped, hm, Option.map_some, leaseOf_eq ho]

theorem bindings_of_unbind {file file' : κ} {m : ℕ} (h : (s.unbind file).bindings file' = some m) :
    file' ≠ file ∧ s.bindings file' = some m := by
  have hne : file' ≠ file := by
    rintro rfl
    simp [LspPool.unbind] at h
  refine ⟨hne, ?_⟩
  rw [← h]
  exact (Function.update_of_ne hne _ _).symm

/-- The release of the session that is popped is to be asked for. -/
theorem Good.unbind (h : s.Good none) (file : κ) : (s.unbind file).Good (s.popped file) where
  map :=
    { entry := by
        intro file' m hm
        obtain ⟨hne, hold⟩ := bindings_of_unbind hm
        obtain ⟨o, ho, hfile, howner, hout, hnot⟩ := h.map.entry file' m hold
        refine ⟨o, ho, hfile, howner, hout, ?_⟩
        rintro (hasked | hpopped)
        · exact hnot (.inl hasked)
        · -- the session that is popped was acquired for the other file
          have howner' := (h.map.recorded_entry (recorded_of_popped h.map hpopped)).1
          rw [howner] at howner'
          exact hne (Option.some.inj howner')
      early := h.map.early
      kept := by
        intro l file' hl
        rcases h.map.kept l file' hl with hold | hold | hrec | hasked
        · exact .inl hold
        · exact .inr (.inl hold)
        · by_cases hne : file' = file
          · exact .inr (.inr (.inr (.inr (hne ▸ popped_of_recorded hrec))))
          · exact .inr (.inr (.inl (hrec.of_unbind hne)))
        · exact .inr (.inr (.inr (.inl (askedWith_none.mp hasked)))) }
  asked :=
    { acquired := by
        rintro l (hasked | hpopped)
        · exact h.asked.acquired l (.inl hasked)
        · exact ⟨file, (h.map.recorded_entry (recorded_of_popped h.map hpopped)).1⟩
      kept := by
        rintro l (hasked | hpopped)
        · exact h.asked.kept l (.inl hasked)
        · exact (h.map.recorded_entry (recorded_of_popped h.map hpopped)).2.1
      once := h.asked.once
      new := fun l hpopped hasked =>
        (h.map.recorded_entry (recorded_of_popped h.map hpopped)).2.2 (.inl hasked) }
  calls := by
    intro c hc
    have hgood := h.calls c hc
    exact ⟨hgood.held, hgood.request, hgood.rebound,
      fun old b fresh why hstage hm => hgood.apart old b fresh why hstage (bindings_of_unbind hm).2⟩

end Unbind

section Enter

variable {popped : Option ℕ}

theorem objects_enter {file : κ} {b : ℕ} {o : FileBinding κ} (h : s.objects[b]? = some o) :
    (s.enter file).objects[b]? = some o := by
  have hlt := (List.getElem?_eq_some_iff.mp h).1
  show (s.objects ++ _)[b]? = some o
  rw [List.getElem?_append_left hlt, h]

theorem objects_enter_new (file : κ) : (s.enter file).objects[s.objects.length]? =
    some { file, lease := s.owners.length } := by
  show (s.objects ++ _)[s.objects.length]? = _
  rw [List.getElem?_append_right (Nat.le_refl _), Nat.sub_self]
  rfl

theorem owners_enter {file file' : κ} {l : ℕ} (h : s.owners[l]? = some file') :
    (s.enter file).owners[l]? = some file' := by
  have hlt := (List.getElem?_eq_some_iff.mp h).1
  show (s.owners ++ _)[l]? = some file'
  rw [List.getElem?_append_left hlt, h]

theorem recorded_enter_new (file : κ) : (s.enter file).Recorded file s.owners.length :=
  ⟨s.objects.length, _, Function.update_self _ _ _, objects_enter_new file, rfl⟩

theorem Recorded.enter {file file' : κ} {l : ℕ} (hfree : s.bindings file = none)
    (h : s.Recorded file' l) : (s.enter file).Recorded file' l := by
  obtain ⟨m, o, hm, ho, hl⟩ := h
  refine ⟨m, o, ?_, objects_enter ho, hl⟩
  have hne : file' ≠ file := by
    rintro rfl
    simp [hfree] at hm
  rw [← hm]
  exact Function.update_of_ne hne _ _

theorem MapGood.enter (h : s.MapGood popped) (hasked : s.AskedGood popped) {file : κ}
    (hfree : s.bindings file = none) : (s.enter file).MapGood popped where
  entry := by
    intro file' m hm
    by_cases hne : file' = file
    · subst hne
      obtain rfl : s.objects.length = m := by simpa [LspPool.enter] using hm
      refine ⟨_, objects_enter_new file', rfl, by simp [LspPool.enter], ?_, ?_⟩
      · exact fun hmem => absurd (h.early _ hmem) (Nat.lt_irrefl _)
      · intro hnew
        obtain ⟨file, howner⟩ := hasked.acquired _ hnew
        exact absurd (List.getElem?_eq_some_iff.mp howner).1 (Nat.lt_irrefl _)
    · have hold : s.bindings file' = some m := by
        rw [← hm]
        exact (Function.update_of_ne hne _ _).symm
      obtain ⟨o, ho, hfile, howner, hrest⟩ := h.entry file' m hold
      exact ⟨o, objects_enter ho, hfile, owners_enter howner, hrest⟩
  early := by
    intro l hl
    have hlt := h.early l hl
    show l < (s.owners ++ [file]).length
    rw [List.length_append]
    exact Nat.lt_add_right _ hlt
  kept := by
    intro l file' hl
    rcases Nat.lt_or_ge l s.owners.length with hlt | hge
    · have hold : s.owners[l]? = some file' := by
        rw [← hl]
        exact (List.getElem?_append_left hlt).symm
      exact (h.kept l file' hold).imp_right (Or.imp_right (Or.imp_left (Recorded.enter hfree)))
    · have hnew : (s.owners ++ [file])[l]? = some file' := hl
      rw [List.getElem?_append_right hge, List.getElem?_singleton] at hnew
      split at hnew
      · obtain rfl := Option.some.inj hnew
        obtain rfl : l = s.owners.length := by omega
        exact .inr (.inr (.inl (recorded_enter_new file)))
      · cases hnew

theorem CallGood.enter {file : κ} {c : LspCall κ} (h : s.CallGood c) :
    (s.enter file).CallGood c where
  held := by
    intro b hb
    obtain ⟨o, ho, hfile, hkept⟩ := h.held b hb
    exact ⟨o, objects_enter ho, hfile, hkept⟩
  request := h.request
  rebound := by
    intro b hb
    obtain ⟨o, ho, hfile⟩ := h.rebound b hb
    exact ⟨o, objects_enter ho, hfile⟩
  apart := by
    intro old b fresh why hstage
    obtain ⟨o, ho, -⟩ := h.rebound b (by rw [hstage]; rfl)
    have hlt := (List.getElem?_eq_some_iff.mp ho).1
    by_cases hc : c.file = file
    · intro hm
      have : s.objects.length = b := by simpa [LspPool.enter, hc] using hm
      omega
    · intro hm
      refine h.apart old b fresh why hstage ?_
      rw [← hm]
      exact (Function.update_of_ne hc _ _).symm

theorem Good.enter (h : s.Good popped) {file : κ} (hfree : s.bindings file = none) :
    (s.enter file).Good popped where
  map := h.map.enter h.asked hfree
  asked :=
    { acquired := fun l hl => (h.asked.acquired l hl).imp fun _ => owners_enter
      kept := h.asked.kept
      once := h.asked.once
      new := h.asked.new }
  calls := fun c hc => (h.calls c hc).enter

theorem held_enter_new (hearly : ∀ l ∈ s.released, l < s.owners.length) (file : κ) :
    (s.enter file).Held file s.objects.length :=
  ⟨_, objects_enter_new file, rfl, fun _ hmem => Nat.lt_irrefl _ (hearly _ hmem)⟩

end Enter

section Store

variable {i : ℕ} {file : κ}

theorem Good.storeCreated (h : s.Good none) (hlt : i < s.calls.length) (hfree : s.Unasked i)
    {stage : Option ℕ → LspStage} (hasked : ∀ old, (stage old).asked = old)
    (hc : ((s.unbind file).enter file).CallGood ⟨file, stage (s.popped file)⟩) :
    (s.storeCreated i file stage).Good none := by
  have hentered : ((s.unbind file).enter file).Good (stage (s.popped file)).asked := by
    rw [hasked]
    exact (h.unbind file).enter (Function.update_self _ _ _)
  have hstore := Good.setCall _ hentered hlt hfree hc
  unfold LspPool.storeCreated
  dsimp only
  split
  · exact hstore
  · exact hstore.created i

theorem MapGood.held_stored (h : s.MapGood none) :
    ((s.unbind file).enter file).Held file s.objects.length :=
  held_enter_new (s := s.unbind file) h.early file

theorem MapGood.callGood_rereleasing (h : s.MapGood none) {b : ℕ} (old : Option ℕ) (why : Rebind)
    (hb : ∃ o, s.objects[b]? = some o ∧ o.file = file) :
    ((s.unbind file).enter file).CallGood ⟨file, .rereleasing old b s.objects.length why⟩ where
  held := by
    intro b' hb'
    obtain rfl : s.objects.length = b' := by simpa [LspStage.object] using hb'
    exact h.held_stored
  request := by simp [LspStage.request]
  rebound := by
    intro b' hb'
    obtain rfl : b = b' := by simpa [LspStage.rebound] using hb'
    obtain ⟨o, ho, hfile⟩ := hb
    exact ⟨o, objects_enter (s := s.unbind file) ho, hfile⟩
  apart := by
    rintro old' b' fresh why' hstage hm
    obtain ⟨o, ho, -⟩ := hb
    have hlt := (List.getElem?_eq_some_iff.mp ho).1
    obtain rfl : b = b' := by
      cases hstage
      rfl
    have : s.objects.length = b := by simpa [LspPool.enter, LspPool.unbind] using hm
    omega

theorem Good.closeBinding (h : s.Good none) (file : κ) : (s.closeBinding file).Good none := by
  unfold LspPool.closeBinding
  split
  · exact Good.addCall (.closing (s.popped file)) (h.unbind file)
      (callGood_of_none rfl rfl rfl)
  · exact Good.addCall .done h (callGood_of_none rfl rfl rfl)

end Store

section Serve

omit [DecidableEq κ]

variable {i l : ℕ} {c : LspCall κ} (hcall : s.calls[i]? = some c) (hl : c.stage.asked = some l)

include hcall hl

theorem asked_serve (h : s.AskedGood none) (x : ℕ) :
    (s.serve i l c).Asked x ↔ s.Asked x ∧ x ≠ l := by
  constructor
  · rintro ⟨d, hd, hx⟩
    obtain ⟨j, hj⟩ := List.mem_iff_getElem?.mp hd
    rcases getElem?_setCall hj with ⟨hold, hne⟩ | ⟨-, rfl⟩
    · refine ⟨⟨d, List.mem_of_getElem? hold, hx⟩, ?_⟩
      rintro rfl
      exact hne (h.once i j c d x hcall hold hl hx)
    · rw [LspStage.asked_served] at hx
      cases hx
  · rintro ⟨⟨d, hd, hx⟩, hne⟩
    obtain ⟨j, hj⟩ := List.mem_iff_getElem?.mp hd
    have hij : i ≠ j := by
      rintro rfl
      rw [hcall] at hj
      cases hj
      rw [hl] at hx
      exact hne (Option.some.inj hx).symm
    refine ⟨d, List.mem_of_getElem? (i := j) ?_, hx⟩
    show (s.calls.set i _)[j]? = _
    rw [List.getElem?_set_ne hij, hj]

omit hcall hl in
theorem mem_released_serve {x : ℕ} (h : x ∈ (s.serve i l c).released) :
    x ∈ s.released ∨ x = l ∧ l ∉ s.evicted ∧ l ∉ s.counted := by
  unfold LspPool.serve at h
  dsimp only at h
  split_ifs at h with hkept
  · exact .inl h
  · rw [not_or] at hkept
    exact (List.mem_cons.mp h).symm.imp id fun heq => ⟨heq, hkept⟩

omit hcall hl in
theorem released_subset_serve {x : ℕ} (h : x ∈ s.released) : x ∈ (s.serve i l c).released := by
  unfold LspPool.serve
  dsimp only
  split_ifs
  · exact h
  · exact List.mem_cons_of_mem _ h

omit hcall hl in
theorem mem_released_serve_self (hevicted : l ∉ s.evicted) (hcounted : l ∉ s.counted) :
    l ∈ (s.serve i l c).released := by
  unfold LspPool.serve
  dsimp only
  rw [if_neg (not_or.mpr ⟨hevicted, hcounted⟩)]
  exact List.mem_cons_self

theorem AskedGood.serve (h : s.AskedGood none) : (s.serve i l c).AskedGood none where
  acquired x hx := h.acquired x (.inl ((asked_serve hcall hl h x).mp (askedWith_none.mp hx)).1)
  kept := by
    intro x hx hin
    obtain ⟨hasked, hne⟩ := (asked_serve hcall hl h x).mp (askedWith_none.mp hx)
    rcases mem_released_serve hin with hold | ⟨heq, -⟩
    · exact h.kept x (.inl hasked) hold
    · exact hne heq
  once := by
    intro j k d e x hj hk hdx hex
    rcases getElem?_setCall hj with ⟨hj, -⟩ | ⟨-, rfl⟩
    · rcases getElem?_setCall hk with ⟨hk, -⟩ | ⟨-, rfl⟩
      · exact h.once j k d e x hj hk hdx hex
      · rw [LspStage.asked_served] at hex
        cases hex
    · rw [LspStage.asked_served] at hdx
      cases hdx
  new _ hx := by cases hx

/-- A session that the server does not count is given up or evicted behind its release. -/
theorem MapGood.serve (h : s.MapGood none) (hasked : s.AskedGood none)
    (hidle : l ∈ s.evicted ∨ l ∉ s.counted) : (s.serve i l c).MapGood none := by
  have hmem : s.Asked l := ⟨c, List.mem_of_getElem? hcall, hl⟩
  constructor
  case entry =>
    intro file m hm
    obtain ⟨o, ho, hfile, howner, hout, hnot⟩ := h.entry file m hm
    refine ⟨o, ho, hfile, howner, fun hin => ?_, fun hin => ?_⟩
    · rcases mem_released_serve hin with hold | ⟨heq, -⟩
      · exact hout hold
      · exact hnot (.inl (heq ▸ hmem))
    · exact hnot (.inl ((asked_serve hcall hl hasked _).mp (askedWith_none.mp hin)).1)
  case early =>
    intro x hx
    rcases mem_released_serve hx with hold | ⟨rfl, -⟩
    · exact h.early x hold
    · obtain ⟨file, howner⟩ := hasked.acquired x (.inl hmem)
      exact (List.getElem?_eq_some_iff.mp howner).1
  case kept =>
    intro x file hx
    rcases h.kept x file hx with hold | hold | hrec | hin
    · exact .inl (released_subset_serve hold)
    · exact .inr (.inl hold)
    · exact .inr (.inr (.inl hrec))
    · by_cases heq : x = l
      · subst heq
        by_cases hevicted : x ∈ s.evicted
        · exact .inr (.inl hevicted)
        · exact .inl (mem_released_serve_self hevicted (hidle.resolve_left hevicted))
      · exact .inr (.inr (.inr (.inl ((asked_serve hcall hl hasked x).mpr
          ⟨askedWith_none.mp hin, heq⟩))))

omit hcall hl in
/-- The session that is released is none that the call uses. -/
theorem CallGood.serve {d : LspCall κ} (h : s.CallGood d)
    (hidle : l ∈ s.evicted ∨ l ∉ s.uses d.stage) : (s.serve i l c).CallGood d := by
  have hkept : ∀ x ∈ s.uses d.stage, x ∉ s.evicted → x ∉ (s.serve i l c).released := by
    intro x hx hin hreleased
    rcases mem_released_serve hreleased with hold | ⟨rfl, -⟩
    · exact h.uses hx hin hold
    · exact hidle.resolve_left hin hx
  refine ⟨?_, ?_, h.rebound, h.apart⟩
  · intro b hb
    obtain ⟨o, ho, hfile, -⟩ := h.held b hb
    exact ⟨o, ho, hfile, hkept o.lease (by simp [LspPool.uses, hb, leaseOf_eq ho])⟩
  · intro x hx
    exact hkept x (by simp [LspPool.uses, hx])

omit hcall hl in
theorem CallGood.served (h : s.CallGood c) : s.CallGood ⟨c.file, c.stage.served⟩ := by
  refine ⟨by simpa using h.held, by simpa using h.request, by simpa using h.rebound, ?_⟩
  intro old b fresh why hstage
  cases hc : c.stage with
  | rereleasing old' b' fresh' why' =>
    rw [hc] at hstage
    cases hstage
    exact h.apart old' _ _ _ hc
  | _ => rw [hc] at hstage; cases hstage

theorem Good.serve (h : s.Good none)
    (hidle : l ∈ s.evicted ∨ l ∉ s.counted ∧ ∀ d ∈ s.calls, l ∉ s.uses d.stage) :
    (s.serve i l c).Good none where
  map := h.map.serve hcall hl h.asked (hidle.imp_right And.left)
  asked := h.asked.serve hcall hl
  calls := by
    have hcalls : ∀ d ∈ s.calls, (s.serve i l c).CallGood d := fun d hd =>
      (h.calls d hd).serve (hidle.imp_right fun hbusy => hbusy.2 d hd)
    intro d hd
    rcases List.mem_or_eq_of_mem_set hd with hold | rfl
    · exact hcalls d hold
    · exact (hcalls c (List.mem_of_getElem? hcall)).served

end Serve

/-- Every step keeps the state good, where a release is handled while the session is idle. -/
theorem Good.step (h : s.Good none) {e : LspEvent κ} (hidle : s.ReleasesIdle e) :
    (LspPool.step s e).Good none := by
  cases e with
  | change file text =>
    refine ⟨⟨h.map.entry, h.map.early, h.map.kept⟩, ⟨h.asked.acquired, h.asked.kept, h.asked.once,
      h.asked.new⟩, ?_⟩
    intro c hc
    have hgood := h.calls c hc
    exact ⟨hgood.held, hgood.request, hgood.rebound, hgood.apart⟩
  | evict lease => exact h.evict lease
  | count lease => exact h.counting _
  | uncount lease => exact h.counting _
  | tool file plan => exact h.tool file plan
  | close file => exact h.closeBinding file
  | acquired i =>
    dsimp only [LspPool.step]
    split
    · rename_i file plan hcall
      exact h.storeCreated (List.getElem?_eq_some_iff.mp hcall).1 (unasked_of hcall rfl)
        (fun _ => rfl) (h.map.held_stored.callGood rfl rfl (by simp [LspStage.request]))
    · rename_i file b why hcall
      exact h.storeCreated (List.getElem?_eq_some_iff.mp hcall).1 (unasked_of hcall rfl)
        (fun _ => rfl) (h.map.callGood_rereleasing _ why
          ((h.calls _ (List.mem_of_getElem? hcall)).rebound b rfl))
    · exact h
  | acquireFails i =>
    dsimp only [LspPool.step]
    split
    · rename_i hcall
      exact h.done (List.getElem?_eq_some_iff.mp hcall).1 (unasked_of hcall rfl) _
    · rename_i hcall
      exact h.unlocked (List.getElem?_eq_some_iff.mp hcall).1 (unasked_of hcall rfl) _ _
    · rename_i hcall
      exact h.done (List.getElem?_eq_some_iff.mp hcall).1 (unasked_of hcall rfl) _
    · exact h
  | serve i =>
    dsimp only [LspPool.step]
    split
    · rename_i c hcall
      cases hl : c.stage.asked with
      | none => exact h
      | some l => exact h.serve hcall hl (hidle c hcall l hl)
    · exact h
  | released i =>
    dsimp only [LspPool.step]
    split
    · rename_i hcall
      exact h.done (List.getElem?_eq_some_iff.mp hcall).1 (unasked_of hcall rfl) _
    · exact h.created i
  | lock i =>
    dsimp only [LspPool.step]
    split
    · rename_i file b text next hcall
      split
      · exact h
      · exact h.enterLock (List.getElem?_eq_some_iff.mp hcall).1 (unasked_of hcall rfl)
          ((h.calls _ (List.mem_of_getElem? hcall)).held b rfl) text next
    · exact h
  | loaded i =>
    dsimp only [LspPool.step]
    split
    · rename_i file b lease text next again hcall
      have hu : s.Update b fun o => { o with cachedText := some text, locked := false } :=
        ⟨fun _ => rfl, Or.inl fun _ => rfl⟩
      exact Good.proceed (s := s.setObject b _) (List.getElem?_eq_some_iff.mp hcall).1
        (unasked_of hcall rfl) (h.setObject hu)
        (hu.held ((h.calls _ (List.mem_of_getElem? hcall)).held b rfl)) next
    · exact h
  | loadNotFound i =>
    dsimp only [LspPool.step]
    split
    · rename_i file b lease text next hcall
      obtain ⟨o, ho, hfile, -⟩ := (h.calls _ (List.mem_of_getElem? hcall)).held b rfl
      split
      · exact Good.setCall (.rebinding b (.sync text next)) h
          (List.getElem?_eq_some_iff.mp hcall).1 (unasked_of hcall rfl)
          (CallGood.rebinding _ ⟨o, ho, hfile⟩)
      · exact h
    · exact h
  | loadFails i =>
    dsimp only [LspPool.step]
    split
    · rename_i hcall
      exact h.unlocked (List.getElem?_eq_some_iff.mp hcall).1 (unasked_of hcall rfl) _ _
    · exact h
  | called i =>
    dsimp only [LspPool.step]
    split
    · rename_i hcall
      exact h.done (List.getElem?_eq_some_iff.mp hcall).1 (unasked_of hcall rfl) _
    · exact h
  | callNotFound i =>
    dsimp only [LspPool.step]
    split
    · rename_i file b lease hcall
      obtain ⟨o, ho, hfile, -⟩ := (h.calls _ (List.mem_of_getElem? hcall)).held b rfl
      split
      · exact Good.setCall (.rebinding b .call) h
          (List.getElem?_eq_some_iff.mp hcall).1 (unasked_of hcall rfl)
          (CallGood.rebinding _ ⟨o, ho, hfile⟩)
      · exact h
    · exact h

/-- A release that is handled while the session is in use takes it from a call, or leaves it with
the server for good. -/
theorem Good.releasesIdle (h : s.Good none) {e : LspEvent κ}
    (hkept : (LspPool.step s e).UsedKept) (hlost : (LspPool.step s e).NoneLost) :
    s.ReleasesIdle e := by
  cases e with
  | serve i =>
    intro c hcall l hl
    by_contra hbusy
    rw [not_or] at hbusy
    obtain ⟨hin, hbusy⟩ := hbusy
    have hstep : LspPool.step s (.serve i) = s.serve i l c := by
      simp [LspPool.step, hcall, hl]
    rw [hstep] at hkept hlost
    have hmem : s.Asked l := ⟨c, List.mem_of_getElem? hcall, hl⟩
    by_cases hcounted : l ∈ s.counted
    · obtain ⟨file, howner⟩ := h.asked.acquired l (.inl hmem)
      have hout : (s.serve i l c).Outstanding file l := by
        refine ⟨howner, fun hreleased => ?_, hin⟩
        rcases mem_released_serve hreleased with hold | ⟨-, -, hnot⟩
        · exact h.asked.kept l (.inl hmem) hold
        · exact hnot hcounted
      rcases hlost l file hout with hrec | hasked
      · exact (h.map.recorded_entry (l := l) hrec).2.2 (.inl hmem)
      · exact ((asked_serve hcall hl h.asked l).mp hasked).2 rfl
    · have hreleased : l ∈ (s.serve i l c).released := mem_released_serve_self hin hcounted
      refine hbusy ⟨hcounted, fun d hd huse => ?_⟩
      obtain ⟨j, hj⟩ := List.mem_iff_getElem?.mp hd
      by_cases hij : i = j
      · subst hij
        rw [hcall] at hj
        cases hj
        refine hkept ⟨c.file, c.stage.served⟩ ?_ l ?_ hin hreleased
        · exact List.mem_of_getElem?
            (List.getElem?_set_self (List.getElem?_eq_some_iff.mp hcall).1)
        · show l ∈ s.uses c.stage.served
          simpa [LspPool.uses] using huse
      · refine hkept d (List.mem_of_getElem? (i := j) ?_) l huse hin hreleased
        show (s.calls.set i _)[j]? = _
        rw [List.getElem?_set_ne hij, hj]
  | _ => trivial

end Steps

omit [DecidableEq κ] in
theorem good_initial (disk : κ → Option Text) : ({ disk } : LspPool κ).Good none where
  map := ⟨by simp, by simp, by simp⟩
  asked := ⟨by simp [AskedWith, Asked], by simp [AskedWith, Asked], by simp, by simp⟩
  calls := by simp

/-- In a run in which every release is handled while its session is idle, the leases are as they
should be in all states. Exactly in these runs no session in use is ever released, and none is ever
left with the server. -/
theorem oneLease_of_releasesIdle (disk : κ → Option Text) (es : List (LspEvent κ)) :
    (Runs.EveryStep step ReleasesIdle { disk } es →
      Runs.EveryStep step (fun s e => (step s e).OneLease) { disk } es) ∧
    (Runs.EveryStep step (fun s e => (step s e).UsedKept ∧ (step s e).NoneLost) { disk } es ↔
      Runs.EveryStep step ReleasesIdle { disk } es) := by
  have hkeep : ∀ (s : LspPool κ) (e : LspEvent κ), s.Good none → s.ReleasesIdle e →
      (step s e).Good none := fun s e h hidle => h.step hidle
  constructor
  · exact Runs.everyStep_of_invariant hkeep (fun s e h hidle => (hkeep s e h hidle).oneLease)
      (good_initial disk)
  · apply Runs.everyStep_iff_of_invariant hkeep _ (good_initial disk)
    intro s e h
    constructor
    · rintro ⟨hkept, hlost⟩
      exact h.releasesIdle hkept hlost
    · intro hidle
      exact ⟨(hkeep s e h hidle).usedKept, (hkeep s e h hidle).noneLost⟩

/-- Two calls open the file at once, and the second one asks for the release of the session that the
first one loads the file into. -/
def secondOpen : LspPool Text :=
  let file : Text := "A.thy".toList
  [LspEvent.tool file ⟨true, false⟩, .tool file ⟨true, false⟩, .acquired 0, .acquired 1].foldl step
    { disk := fun _ => some "theory A imports Main begin end".toList }

/-- Where the server does not count the load yet, the session is released under the call; where it
does, the session stays with the server when both calls are through. -/
theorem second_open_releases_first :
    ¬ (step secondOpen (.serve 1)).OneLease ∧
    ¬ ([LspEvent.count 0, .serve 1, .released 1, .uncount 0, .loaded 0, .count 1, .uncount 1,
      .loaded 1].foldl step secondOpen).OneLease := by
  constructor
  · intro h
    refine h.1 ⟨"A.thy".toList,
      .loading 0 0 "theory A imports Main begin end".toList .done false⟩ ?_ 0 ?_ ?_ ?_
    all_goals decide
  · intro h
    have hrecorded := (h.2 (by decide) 0 "A.thy".toList).mp ⟨by decide, by decide, by decide⟩
    obtain ⟨⟨m, o, hm, ho, hlease⟩, -⟩ := hrecorded
    obtain rfl : 1 = m := Option.some.inj hm
    obtain rfl := Option.some.inj ho
    exact absurd hlease (by decide)

end LspPool

end IsabelleGym
