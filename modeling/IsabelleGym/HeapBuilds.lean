import IsabelleGym.HeapPool
import IsabelleGym.Runs

/-!
# Builds and their processes

One build request for a key is under way at a time, and no more of them than the
semaphore admits. Their processes are another matter: a request that times out or
is cancelled gives the lock and the semaphore back, and its process goes on.
-/

namespace IsabelleGym

namespace BuildCall

def inFlight (c : BuildCall) : Bool :=
  match c.stage with
  | .ended => false
  | _ => true

def isAdmitted (c : BuildCall) : Bool :=
  match c.stage with
  | .registered _ | .running _ _ => true
  | .queued | .ended => false

def isRegistered (c : BuildCall) : Bool :=
  match c.stage with
  | .registered _ => true
  | _ => false

/-- The process that the request waits for. -/
def process (c : BuildCall) : Option ℕ :=
  match c.stage with
  | .running _ p => some p
  | _ => none

theorem isAdmitted_of_process {c : BuildCall} {p : ℕ} (h : c.process = some p) :
    c.isAdmitted = true := by
  unfold process at h
  unfold isAdmitted
  split at h
  · rename_i hstage
    rw [hstage]
  · cases h

theorem inFlight_of_process {c : BuildCall} {p : ℕ} (h : c.process = some p) :
    c.inFlight = true := by
  unfold process at h
  unfold inFlight
  split at h
  · rename_i hstage
    rw [hstage]
  · cases h

end BuildCall

namespace HeapPool

variable (cfg : HeapConfig) (s : HeapPool)

def alive : List ℕ :=
  (List.range s.processes.length).filter fun p => (s.processes[p]?).any fun x => x.exit.isNone

def aliveFor (key : HeapKey) : List ℕ :=
  s.alive.filter fun p => (s.processes[p]?).any fun x => x.key = key

def waited : List ℕ := s.builds.filterMap BuildCall.process

/-- One process is alive for a key, and not more than the semaphore has room for in total. -/
def SingleFlight (cfg : HeapConfig) (s : HeapPool) : Prop :=
  (∀ key, (s.aliveFor key).length ≤ 1) ∧ s.alive.length ≤ cfg.maxConcurrentBuilds

/-- The processes that are alive although their request is over. -/
def abandoned : List ℕ := s.alive.filter fun p => p ∉ s.waited

/-- Where a process starts, none of its key is abandoned, and the abandoned ones would find room
beside the requests that have the semaphore. -/
def StartsAlone (cfg : HeapConfig) (s : HeapPool) (e : RegistryEvent) : Prop :=
  match e with
  | .pool (.spawn i) => ∀ c ∈ s.builds[i]?, c.isRegistered = true →
    (∀ p ∈ s.abandoned, p ∉ s.aliveFor c.key) ∧
      s.abandoned.length + s.admitted ≤ cfg.maxConcurrentBuilds
  | _ => True

instance (cfg : HeapConfig) (s : HeapPool) : (e : RegistryEvent) → Decidable (StartsAlone cfg s e)
  | .pool (.spawn _) => inferInstanceAs (Decidable (∀ c ∈ _, _ → _))
  | .pool (.build ..) | .pool (.register _) | .pool (.spawnFails ..) | .pool (.processEnds ..)
  | .pool (.finish ..) | .pool (.timeOut ..) | .pool (.cancel _) | .pool (.resolveForSession ..)
  | .pool (.changeProject ..) | .pool (.changeRoot ..) | .delete _ | .deleteGroup _ =>
    inferInstanceAs (Decidable True)

/-- The requests and the processes behind an event. -/
inductive BuildsStep (cfg : HeapConfig) (s : HeapPool) :
    RegistryEvent → List BuildCall → List BuildProcess → Prop
  | same {e : RegistryEvent} : BuildsStep cfg s e s.builds s.processes
  | request {e : RegistryEvent} {c : BuildCall} : s.locked c.key = false → c.stage = .queued →
    BuildsStep cfg s e (s.builds ++ [c]) s.processes
  | enter {e : RegistryEvent} {i : ℕ} {c : BuildCall} {entry : HeapEntry} :
    s.builds[i]? = some c → c.stage = .queued → s.admitted < cfg.maxConcurrentBuilds →
    BuildsStep cfg s e (s.builds.set i { c with stage := .registered entry }) s.processes
  | spawn {i : ℕ} {c : BuildCall} {entry : HeapEntry} : s.builds[i]? = some c →
    c.stage = .registered entry →
    BuildsStep cfg s (.pool (.spawn i))
      (s.builds.set i { c with stage := .running entry s.processes.length })
      (s.processes ++ [⟨c.key, entry.sessionName, none⟩])
  | ends {e : RegistryEvent} {i : ℕ} {c : BuildCall} : s.builds[i]? = some c →
    BuildsStep cfg s e (s.builds.set i { c with stage := .ended }) s.processes
  | exit {e : RegistryEvent} {p : ℕ} {x : BuildProcess} {ok : Bool} : s.processes[p]? = some x →
    BuildsStep cfg s e s.builds (s.processes.set p { x with exit := some ok })

variable {cfg s}

theorem admitted_eq (s : HeapPool) : s.admitted = s.builds.countP BuildCall.isAdmitted := rfl

theorem locked_of_inFlight {j : ℕ} {d : BuildCall} (hd : s.builds[j]? = some d)
    (hin : d.inFlight = true) : s.locked d.key = true := by
  have hlocked : s.locked d.key = s.builds.any fun c => c.key = d.key && c.inFlight := rfl
  rw [hlocked]
  exact List.any_eq_true.mpr ⟨d, List.mem_of_getElem? hd, by simpa using hin⟩

theorem builds_deleteKeys (cfg : HeapConfig) (keys : List HeapKey) (s : HeapPool) :
    (deleteKeys cfg keys s).builds = s.builds ∧
      (deleteKeys cfg keys s).processes = s.processes := by
  refine deleteKeys_of (P := fun s' => s'.builds = s.builds ∧ s'.processes = s.processes) cfg keys
    ⟨rfl, rfl⟩ fun s' key _ h => ?_
  rcases delete_cases cfg s' key with heq | ⟨entry, -, roots, heaps, heq⟩
  · rwa [heq]
  · rwa [heq]

theorem builds_record (cfg : HeapConfig) (s : HeapPool) (i : ℕ) (c : BuildCall) (entry : HeapEntry)
    (ok : Bool) (log : Text) (time : ℕ) :
    (s.record cfg i c entry ok log time).builds = s.builds.set i { c with stage := .ended } ∧
      (s.record cfg i c entry ok log time).processes = s.processes := by
  simp only [record, persist, setBuild]
  split <;> exact ⟨rfl, rfl⟩

theorem builds_step (cfg : HeapConfig) (s : HeapPool) (e : RegistryEvent) :
    BuildsStep cfg s e (s.registryStep cfg e).builds (s.registryStep cfg e).processes := by
  have hsame : BuildsStep cfg s e s.builds s.processes := .same
  have hbuild : ∀ {i : ℕ} {f : BuildCall → HeapPool},
      (∀ c, s.builds[i]? = some c → BuildsStep cfg s e (f c).builds (f c).processes) →
      BuildsStep cfg s e (s.withBuild i f).builds (s.withBuild i f).processes :=
    fun hf => withBuild_of (P := fun s' => BuildsStep cfg s e s'.builds s'.processes) hsame hf
  have hrecord : ∀ {i : ℕ} {c : BuildCall} {entry : HeapEntry} {ok : Bool} {log : Text} {time : ℕ},
      s.builds[i]? = some c → BuildsStep cfg s e (s.record cfg i c entry ok log time).builds
        (s.record cfg i c entry ok log time).processes := by
    intro i c entry ok log time hc
    obtain ⟨hbuilds, hprocesses⟩ := builds_record cfg s i c entry ok log time
    rw [hbuilds, hprocesses]
    exact .ends hc
  cases e with
  | delete key =>
    rw [registryStep]
    rcases delete_cases cfg s key with heq | ⟨entry, -, roots, heaps, heq⟩
    · rw [heq]
      exact hsame
    · rw [heq]
      exact hsame
  | deleteGroup taskGroup =>
    simp only [registryStep, deleteGroup, (builds_deleteKeys cfg _ s).1,
      (builds_deleteKeys cfg _ s).2]
    exact hsame
  | pool e =>
    cases e with
    | build key sessionName builtBy =>
      simp only [registryStep, step, build]
      split_ifs with hlocked
      · exact hsame
      · exact .request (by simpa using hlocked) rfl
    | register i =>
      refine hbuild fun c hc => ?_
      unfold register
      split
      case h_1 hqueued =>
        by_cases hroom : s.admitted < cfg.maxConcurrentBuilds
        · rw [if_pos hroom]
          obtain ⟨roots, hnew⟩ := newEntry_frame cfg s c.key c.sessionName c.builtBy
          generalize s.newEntry cfg c.key c.sessionName c.builtBy = r at hnew ⊢
          obtain ⟨s', _ | entry⟩ := r
          · cases hnew
            exact .ends hc
          · cases hnew
            dsimp only
            split_ifs
            · exact .enter hc hqueued hroom
            · exact .ends hc
        · rw [if_neg hroom]
          exact hsame
      all_goals exact hsame
    | spawn i =>
      refine hbuild fun c hc => ?_
      unfold spawn
      split
      case h_1 entry hregistered => exact .spawn hc hregistered
      case h_2 => exact hsame
    | spawnFails i error =>
      refine hbuild fun c hc => ?_
      unfold spawnFails
      split
      · exact hrecord hc
      · exact hsame
    | finish i log time =>
      refine hbuild fun c hc => ?_
      unfold finish
      (repeat' split) <;> first | exact hsame | exact hrecord hc
    | timeOut i message =>
      refine hbuild fun c hc => ?_
      unfold timeOut
      split
      · exact hrecord hc
      · exact hsame
    | cancel i => exact hbuild fun c hc => .ends hc
    | processEnds p ok =>
      simp only [registryStep, step, processEnds]
      split
      · exact hsame
      case h_2 x hx =>
        split_ifs
        · exact hsame
        · exact .exit hx
        · exact .exit hx
    | resolveForSession taskGroup heapSession project =>
      simp only [registryStep, step, resolveForSession, markStale, persist]
      (repeat' split) <;> exact hsame
    | changeProject project dir => exact hsame
    | changeRoot dir rootText => exact hsame

structure InFlight (cfg : HeapConfig) (s : HeapPool) : Prop where
  keys {i j : ℕ} {c d : BuildCall} : s.builds[i]? = some c → s.builds[j]? = some d →
    c.inFlight = true → d.inFlight = true → c.key = d.key → i = j
  room : s.admitted ≤ cfg.maxConcurrentBuilds
  process {i p : ℕ} {c : BuildCall} : s.builds[i]? = some c → c.process = some p →
    ∃ x, s.processes[p]? = some x ∧ x.key = c.key

section Alive

theorem mem_alive {p : ℕ} :
    p ∈ s.alive ↔ ∃ x, s.processes[p]? = some x ∧ x.exit = none := by
  rw [alive, List.mem_filter, List.mem_range]
  constructor
  · rintro ⟨hp, hany⟩
    rw [List.getElem?_eq_getElem hp] at hany
    exact ⟨_, List.getElem?_eq_getElem hp, by simpa using hany⟩
  · rintro ⟨x, hx, hexit⟩
    exact ⟨(List.getElem?_eq_some_iff.mp hx).1, by rw [hx]; simpa using hexit⟩

theorem mem_aliveFor {key : HeapKey} {p : ℕ} :
    p ∈ s.aliveFor key ↔ ∃ x, s.processes[p]? = some x ∧ x.exit = none ∧ x.key = key := by
  rw [aliveFor, List.mem_filter, mem_alive]
  constructor
  · rintro ⟨⟨x, hx, hexit⟩, hkey⟩
    exact ⟨x, hx, hexit, by simpa [hx] using hkey⟩
  · rintro ⟨x, hx, hexit, hkey⟩
    exact ⟨⟨x, hx, hexit⟩, by simpa [hx] using hkey⟩

theorem nodup_alive (s : HeapPool) : s.alive.Nodup := List.nodup_range.filter _

theorem nodup_aliveFor (s : HeapPool) (key : HeapKey) : (s.aliveFor key).Nodup :=
  (nodup_alive s).filter _

theorem alive_length_le : s.alive.length ≤ s.abandoned.length + s.waited.length := by
  rw [← List.length_append]
  refine (nodup_alive s).length_le_of_subset fun p hp => ?_
  rw [List.mem_append]
  by_cases hwaited : p ∈ s.waited
  · exact .inr hwaited
  · exact .inl (List.mem_filter.mpr ⟨hp, by simpa using hwaited⟩)

/-- A request that has the semaphore and no process leaves room beside those that wait. -/
theorem waited_length_lt {i : ℕ} {c : BuildCall} (hc : s.builds[i]? = some c)
    (hadmitted : c.isAdmitted = true) (hprocess : c.process = none) :
    s.waited.length < s.admitted := by
  rw [admitted_eq, waited, List.length_filterMap_eq_countP]
  generalize s.builds = builds at hc ⊢
  have hle : ∀ l : List BuildCall,
      l.countP (fun c => c.process.isSome) ≤ l.countP BuildCall.isAdmitted := by
    intro l
    refine List.countP_mono_left fun d _ hd => ?_
    obtain ⟨p, hp⟩ := Option.isSome_iff_exists.mp hd
    exact BuildCall.isAdmitted_of_process hp
  induction builds generalizing i with
  | nil => cases hc
  | cons d builds ih =>
    cases i with
    | zero =>
      cases hc
      simp only [List.countP_cons, hprocess, hadmitted, if_true]
      have hrest := hle builds
      simp
      omega
    | succ i =>
      have hrest := ih hc
      have hd := hle [d]
      simp only [List.countP_cons, List.countP_nil] at hd ⊢
      omega

end Alive

namespace InFlight

variable {s' : HeapPool} {e : RegistryEvent}

theorem of_nil (hbuilds : s.builds = []) : InFlight cfg s where
  keys hc := by simp [hbuilds] at hc
  room := by simp [admitted, hbuilds]
  process hc := by simp [hbuilds] at hc

/-- A request moves on: it keeps its key, and takes the semaphore only where there is room. -/
theorem set (h : InFlight cfg s) {i : ℕ} {c c' : BuildCall} (hc : s.builds[i]? = some c)
    (hbuilds : s'.builds = s.builds.set i c') (hkey : c'.key = c.key)
    (hflight : c'.inFlight = true → c.inFlight = true)
    (hroom : c'.isAdmitted = true → c.isAdmitted = true ∨ s.admitted < cfg.maxConcurrentBuilds)
    (hprocess : ∀ p, c'.process = some p → ∃ x, s'.processes[p]? = some x ∧ x.key = c.key)
    (hkept : ∀ (p : ℕ) (x : BuildProcess), s.processes[p]? = some x →
      ∃ y : BuildProcess, s'.processes[p]? = some y ∧ y.key = x.key) :
    InFlight cfg s' where
  keys {j k d d'} hd hd' hin hin' heq := by
    -- whatever stands at an index has the key and was under way before
    have hback : ∀ {j : ℕ} {d : BuildCall}, s'.builds[j]? = some d → d.inFlight = true →
        ∃ b, s.builds[j]? = some b ∧ b.inFlight = true ∧ b.key = d.key := by
      intro j d hd hin
      rw [hbuilds] at hd
      by_cases hij : i = j
      · subst hij
        rw [List.getElem?_set_self (List.getElem?_eq_some_iff.mp hc).1] at hd
        cases hd
        exact ⟨c, hc, hflight hin, hkey.symm⟩
      · rw [List.getElem?_set_ne hij] at hd
        exact ⟨d, hd, hin, rfl⟩
    obtain ⟨b, hb, hbin, hbkey⟩ := hback hd hin
    obtain ⟨b', hb', hbin', hbkey'⟩ := hback hd' hin'
    exact h.keys hb hb' hbin hbin' (hbkey.trans (heq.trans hbkey'.symm))
  room := by
    have hcount := Runs.countP_set_add BuildCall.isAdmitted hc c'
    have hold := h.room
    rw [admitted_eq, hbuilds]
    rw [admitted_eq] at hold hroom
    by_cases hin : c.isAdmitted = true
    · rw [if_pos hin] at hcount
      split_ifs at hcount <;> omega
    · by_cases hin' : c'.isAdmitted = true
      · have hlt' := (hroom hin').resolve_left hin
        rw [if_neg hin, if_pos hin'] at hcount
        omega
      · rw [if_neg hin, if_neg hin'] at hcount
        omega
  process {j p d} hd hdp := by
    rw [hbuilds] at hd
    by_cases hij : i = j
    · subst hij
      rw [List.getElem?_set_self (List.getElem?_eq_some_iff.mp hc).1] at hd
      cases hd
      rw [hkey]
      exact hprocess p hdp
    · rw [List.getElem?_set_ne hij] at hd
      obtain ⟨x, hx, hxkey⟩ := h.process hd hdp
      obtain ⟨y, hy, hykey⟩ := hkept p x hx
      exact ⟨y, hy, hykey.trans hxkey⟩

theorem of_step (h : InFlight cfg s) (hstep : BuildsStep cfg s e s'.builds s'.processes) :
    InFlight cfg s' := by
  have hkept : s'.processes = s.processes → ∀ (p : ℕ) (x : BuildProcess),
      s.processes[p]? = some x → ∃ y : BuildProcess, s'.processes[p]? = some y ∧ y.key = x.key :=
    fun heq p x hx => ⟨x, by rw [heq]; exact hx, rfl⟩
  generalize hb : s'.builds = builds at hstep
  generalize hp : s'.processes = processes at hstep
  cases hstep with
  | same =>
    exact
      { keys := fun hd hd' => by rw [hb] at hd hd'; exact h.keys hd hd'
        room := by
          rw [admitted_eq, hb]
          exact h.room
        process := fun hd hdp => by rw [hb] at hd; rw [hp]; exact h.process hd hdp }
  | @request _ c hlocked hqueued =>
    -- no request under way has the key of the new one
    have hfree : ∀ {j : ℕ} {d : BuildCall}, s.builds[j]? = some d → d.inFlight = true →
        d.key ≠ c.key := by
      intro j d hd hin heq
      exact ne_true_of_eq_false hlocked (heq ▸ locked_of_inFlight hd hin)
    have hold : ∀ {j : ℕ} {d : BuildCall}, s'.builds[j]? = some d →
        s.builds[j]? = some d ∨ j = s.builds.length ∧ d = c := by
      intro j d hd
      rw [hb] at hd
      rcases Nat.lt_or_ge j s.builds.length with hlt | hge
      · rw [List.getElem?_append_left hlt] at hd
        exact .inl hd
      · rw [List.getElem?_append_right hge, List.getElem?_singleton] at hd
        split_ifs at hd with hzero
        cases hd
        exact .inr ⟨by omega, rfl⟩
    refine ⟨?_, ?_, ?_⟩
    · intro j k d d' hd hd' hin hin' heq
      rcases hold hd with hd | ⟨rfl, rfl⟩ <;> rcases hold hd' with hd' | ⟨rfl, rfl⟩
      · exact h.keys hd hd' hin hin' heq
      · exact absurd heq (hfree hd hin)
      · exact absurd heq.symm (hfree hd' hin')
      · rfl
    · rw [admitted_eq, hb, List.countP_append, List.countP_singleton, ← admitted_eq]
      simpa [BuildCall.isAdmitted, hqueued] using h.room
    · intro j p d hd hdp
      rw [hp]
      rcases hold hd with hd | ⟨_, rfl⟩
      · exact h.process hd hdp
      · simp [BuildCall.process, hqueued] at hdp
  | @enter _ i c entry hc hqueued hroom =>
    refine h.set hc hb rfl (fun _ => by simp [BuildCall.inFlight, hqueued])
      (fun _ => .inr hroom) (fun _ hcontra => by cases hcontra) (hkept hp)
  | @spawn i c entry hc hregistered =>
    refine h.set hc hb rfl (fun _ => by simp [BuildCall.inFlight, hregistered])
      (fun _ => .inl (by simp [BuildCall.isAdmitted, hregistered])) ?_ ?_
    · intro p hprocess
      cases hprocess
      exact ⟨_, by rw [hp, List.getElem?_concat_length], rfl⟩
    · intro p x hx
      refine ⟨x, ?_, rfl⟩
      rw [hp, List.getElem?_append_left (List.getElem?_eq_some_iff.mp hx).1]
      exact hx
  | @ends _ i c hc =>
    refine h.set hc hb rfl (fun hcontra => by cases hcontra) (fun hcontra => by cases hcontra)
      (fun _ hcontra => by cases hcontra) (hkept hp)
  | @exit _ p x ok hx =>
    refine
      { keys := fun hd hd' => by rw [hb] at hd hd'; exact h.keys hd hd'
        room := by
          rw [admitted_eq, hb]
          exact h.room
        process := ?_ }
    intro j q d hd hdp
    rw [hb] at hd
    obtain ⟨y, hy, hykey⟩ := h.process hd hdp
    rw [hp, List.getElem?_set]
    split_ifs with hpq hlt
    · subst hpq
      rw [hx] at hy
      cases hy
      exact ⟨_, rfl, hykey⟩
    · exact absurd (List.getElem?_eq_some_iff.mp hx).1 hlt
    · exact ⟨y, hy, hykey⟩

end InFlight

/-- A process that runs behind a step has run before it. -/
theorem SingleFlight.of_kept (h : SingleFlight cfg s) {s' : HeapPool}
    (hkept : ∀ (p : ℕ) (x : BuildProcess), s'.processes[p]? = some x → x.exit = none →
      s.processes[p]? = some x) : SingleFlight cfg s' := by
  constructor
  · intro key
    refine le_trans ((nodup_aliveFor s' key).length_le_of_subset fun p hp => ?_) (h.1 key)
    obtain ⟨x, hx, hexit, hkey⟩ := mem_aliveFor.mp hp
    exact mem_aliveFor.mpr ⟨x, hkept p x hx hexit, hexit, hkey⟩
  · refine le_trans ((nodup_alive s').length_le_of_subset fun p hp => ?_) h.2
    obtain ⟨x, hx, hexit⟩ := mem_alive.mp hp
    exact mem_alive.mpr ⟨x, hkept p x hx hexit, hexit⟩

/-- The new process is the only one of its key: another one would be abandoned, or the request
that waits for it would have the lock of the key. -/
theorem SingleFlight.spawn (h : SingleFlight cfg s) (hflight : InFlight cfg s) {i : ℕ}
    {c : BuildCall} {entry : HeapEntry} (hc : s.builds[i]? = some c)
    (hstage : c.stage = .registered entry) (halone : StartsAlone cfg s (.pool (.spawn i)))
    {s' : HeapPool} (hs' : s'.processes = s.processes ++ [⟨c.key, entry.sessionName, none⟩]) :
    SingleFlight cfg s' := by
  obtain ⟨hkey, hroom⟩ := halone c hc (by simp [BuildCall.isRegistered, hstage])
  have hin : c.inFlight = true := by simp [BuildCall.inFlight, hstage]
  have hnone : s.aliveFor c.key = [] := by
    refine List.eq_nil_iff_forall_not_mem.mpr fun p hp => ?_
    by_cases hwaited : p ∈ s.waited
    · obtain ⟨d, hd, hdp⟩ := List.mem_filterMap.mp hwaited
      obtain ⟨j, hj⟩ := List.mem_iff_getElem?.mp hd
      obtain ⟨x, hx, -, hxkey⟩ := mem_aliveFor.mp hp
      obtain ⟨y, hy, hykey⟩ := hflight.process hj hdp
      rw [hx] at hy
      cases hy
      obtain rfl := hflight.keys hj hc (BuildCall.inFlight_of_process hdp) hin
        (hykey.symm.trans hxkey)
      rw [hc] at hj
      cases hj
      simp [BuildCall.process, hstage] at hdp
    · have halive : p ∈ s.alive := (List.mem_filter.mp hp).1
      exact hkey p (List.mem_filter.mpr ⟨halive, by simpa using hwaited⟩) hp
  have hold : ∀ (p : ℕ) (x : BuildProcess), s'.processes[p]? = some x →
      s.processes[p]? = some x ∨ p = s.processes.length ∧ x.key = c.key := by
    intro p x hx
    rw [hs'] at hx
    rcases Nat.lt_or_ge p s.processes.length with hlt | hge
    · rw [List.getElem?_append_left hlt] at hx
      exact .inl hx
    · rw [List.getElem?_append_right hge, List.getElem?_singleton] at hx
      split_ifs at hx with hzero
      cases hx
      exact .inr ⟨by omega, rfl⟩
  constructor
  · intro key
    by_cases heq : key = c.key
    · subst heq
      have hsub : s'.aliveFor c.key ⊆ [s.processes.length] := by
        intro p hp
        obtain ⟨x, hx, hexit, hxkey⟩ := mem_aliveFor.mp hp
        rcases hold p x hx with hx | ⟨rfl, -⟩
        · have hmem : p ∈ s.aliveFor c.key := mem_aliveFor.mpr ⟨x, hx, hexit, hxkey⟩
          rw [hnone] at hmem
          cases hmem
        · exact List.mem_singleton_self _
      exact (nodup_aliveFor s' c.key).length_le_of_subset hsub
    · refine le_trans ((nodup_aliveFor s' key).length_le_of_subset fun p hp => ?_) (h.1 key)
      obtain ⟨x, hx, hexit, hxkey⟩ := mem_aliveFor.mp hp
      rcases hold p x hx with hx | ⟨-, hxc⟩
      · exact mem_aliveFor.mpr ⟨x, hx, hexit, hxkey⟩
      · exact absurd (hxkey.symm.trans hxc) heq
  · have hle : s'.alive.length ≤ (s.processes.length :: s.alive).length := by
      refine (nodup_alive s').length_le_of_subset fun p hp => ?_
      obtain ⟨x, hx, hexit⟩ := mem_alive.mp hp
      rcases hold p x hx with hx | ⟨rfl, -⟩
      · exact List.mem_cons_of_mem _ (mem_alive.mpr ⟨x, hx, hexit⟩)
      · exact List.mem_cons_self
    have hsum : s.alive.length ≤ s.abandoned.length + s.waited.length := alive_length_le
    have hwaits : s.waited.length < s.admitted := waited_length_lt hc
      (by simp [BuildCall.isAdmitted, hstage]) (by simp [BuildCall.process, hstage])
    rw [List.length_cons] at hle
    omega

theorem singleFlight_step (h : SingleFlight cfg s) (hflight : InFlight cfg s) {e : RegistryEvent}
    (halone : StartsAlone cfg s e) : SingleFlight cfg (s.registryStep cfg e) := by
  have hstep := builds_step cfg s e
  generalize s.registryStep cfg e = s' at hstep ⊢
  generalize hb : s'.builds = builds at hstep
  generalize hp : s'.processes = processes at hstep
  cases hstep with
  | spawn hc hstage => exact h.spawn hflight hc hstage halone hp
  | @exit _ p x ok hx =>
    refine h.of_kept fun q y hy hexit => ?_
    rw [hp, List.getElem?_set] at hy
    split_ifs at hy
    · cases hy
      cases hexit
    · exact hy
  | _ => exact h.of_kept fun q y hy _ => by rwa [hp] at hy

/-- Builds are single-flight while no process that a request has given up is in their way. -/
theorem singleFlight (cfg : HeapConfig) {s : HeapPool} (hbuilds : s.builds = [])
    (hprocesses : s.processes = []) (es : List RegistryEvent)
    (halone : Runs.EveryStep (HeapPool.registryStep cfg) (StartsAlone cfg) s es) :
    Runs.EveryStep (HeapPool.registryStep cfg)
      (fun s e => SingleFlight cfg (s.registryStep cfg e)) s es := by
  have hstart : InFlight cfg s ∧ SingleFlight cfg s := by
    refine ⟨.of_nil hbuilds, fun key => ?_, ?_⟩
    · simp [aliveFor, alive, hprocesses]
    · simp [alive, hprocesses]
  have hstep : ∀ (s : HeapPool) (e : RegistryEvent), InFlight cfg s ∧ SingleFlight cfg s →
      StartsAlone cfg s e →
      InFlight cfg (s.registryStep cfg e) ∧ SingleFlight cfg (s.registryStep cfg e) :=
    fun s e h halone =>
      ⟨h.1.of_step (builds_step cfg s e), singleFlight_step h.2 h.1 halone⟩
  exact Runs.everyStep_of_invariant hstep (fun s e h halone => (hstep s e h halone).2) hstart halone

def twoBuilds (key : HeapKey) : List RegistryEvent :=
  [.pool (.build key none none), .pool (.register 0), .pool (.spawn 0),
    .pool (.processEnds 0 true), .pool (.finish 0 [] 0),
    .pool (.build key none none), .pool (.register 1), .pool (.spawn 1)]

theorem singleFlight_twoBuilds :
    Runs.EveryStep (HeapPool.registryStep .sample)
      (fun s e => SingleFlight .sample (s.registryStep .sample e))
      (.sample ["/p".toList]) (twoBuilds ("g".toList, "/p".toList)) :=
  singleFlight .sample rfl rfl _ (by decide)

/-- The second request finds the lock free, while the process of the first one goes on. -/
theorem two_processes_after_timeOut :
    ¬ ∀ (cfg : HeapConfig) (s : HeapPool), s.builds = [] → s.processes = [] →
      ∀ es : List RegistryEvent, Runs.EveryStep (HeapPool.registryStep cfg)
        (fun s e => SingleFlight cfg (s.registryStep cfg e)) s es := by
  intro h
  have hrun := h .sample (.sample ["/p".toList]) rfl rfl
    [.pool (.build ("g".toList, "/p".toList) none none), .pool (.register 0), .pool (.spawn 0),
      .pool (.timeOut 0 []), .pool (.build ("g".toList, "/p".toList) none none),
      .pool (.register 1), .pool (.spawn 1)]
  obtain ⟨-, -, -, -, -, -, ⟨hkey, -⟩, -⟩ := hrun
  exact absurd (hkey ("g".toList, "/p".toList)) (by decide)

end HeapPool
end IsabelleGym
