import IsabelleGym.HeapManifests

/-!
# The image of a ready heap

The registry has an entry for each group and project, and Isabelle has one image
for each session name. The image of a ready entry is the one that its own build
wrote as long as no other build writes an image of the same name behind it.
-/

namespace IsabelleGym
namespace HeapPool

variable (cfg : HeapConfig) (s : HeapPool)

def image (session : Text) : Option ℕ :=
  match s.heaps.node (cfg.imagePath session) with
  | some (.file p) => p
  | _ => none

def succeeded (i : ℕ) : Option (HeapKey × ℕ) :=
  (s.builds[i]?).bind fun c =>
    (c.process.filter fun p => (s.processes[p]?).bind BuildProcess.exit = some true).map
      fun p => (c.key, p)

def successes (s : HeapPool) (e : HeapEvent) : List (HeapKey × ℕ) :=
  match e with
  | .finish i _ _ => (s.succeeded i).toList
  | _ => []

def builtStep : HeapPool × List (HeapKey × ℕ) → HeapEvent → HeapPool × List (HeapKey × ℕ) :=
  Runs.logged (HeapPool.step cfg) successes

/-- What `resolve_for_session` returns has its image from its own last successful build. -/
def ResolvesOwnImage (x : HeapPool × List (HeapKey × ℕ)) (e : HeapEvent) : Prop :=
  match e with
  | .resolveForSession taskGroup heapSession project => ∀ entry,
    (x.1.resolveForSession cfg taskGroup heapSession project).2 = .ok entry →
      ∃ p, x.2.lookup entry.key = some p ∧ x.1.image cfg entry.sessionName = some p
  | _ => True

/-- A build that succeeds writes over no image of a ready entry, nor over the one of another build
that has succeeded and is not recorded yet. -/
def WritesApart (s : HeapPool) (e : HeapEvent) : Prop :=
  match e with
  | .processEnds p true => ∀ x ∈ s.processes[p]?, x.exit = none →
    (∀ e ∈ s.entries, e.2.status = .ready → e.2.sessionName ≠ x.session) ∧
      ∀ q ∈ s.waited, q ≠ p → ∀ y ∈ s.processes[q]?,
        y.exit = some true → y.session ≠ x.session
  | _ => True

instance (s : HeapPool) : (e : HeapEvent) → Decidable (WritesApart s e)
  | .processEnds _ true => inferInstanceAs (Decidable (∀ x ∈ s.processes[_]?, _ → _))
  | .processEnds _ false | .build .. | .register _ | .spawn _ | .spawnFails .. | .finish ..
  | .timeOut .. | .cancel _ | .resolveForSession .. | .changeProject .. | .changeRoot .. =>
    inferInstanceAs (Decidable True)

structure Imaged (cfg : HeapConfig) (s : HeapPool) (log : List (HeapKey × ℕ)) : Prop where
  nodup : (s.entries.map Prod.fst).Nodup
  key {key : HeapKey} {entry : HeapEntry} : s.entries.lookup key = some entry → entry.key = key
  ready {key : HeapKey} {entry : HeapEntry} : s.entries.lookup key = some entry →
    entry.status = .ready →
    ∃ p, log.lookup key = some p ∧ s.image cfg entry.sessionName = some p
  own {c : BuildCall} {entry : HeapEntry} : c ∈ s.builds → c.entry = some entry →
    entry.key = c.key
  ended {c : BuildCall} {entry : HeapEntry} {p : ℕ} : c ∈ s.builds → c.stage = .running entry p →
    ∃ x, s.processes[p]? = some x ∧ x.session = entry.sessionName ∧
      (x.exit = some true → s.image cfg entry.sessionName = some p)

variable {cfg s}

theorem image_congr {s' : HeapPool} (h : s'.heaps = s.heaps) (session : Text) :
    s'.image cfg session = s.image cfg session := by
  rw [image, image, h]

/-- A build writes the image of its session and leaves the others. -/
theorem image_write {s' : HeapPool} {session : Text} {p : ℕ}
    (h : s'.heaps = s.heaps.write (cfg.imagePath session) (some p)) (session' : Text) :
    s'.image cfg session' = if session' = session then some p else s.image cfg session' := by
  split_ifs with heq
  · rw [image, h, FileTree.node_write_of_eq _ _ (by rw [heq])]
  · have hne : PosixPath.resolve (cfg.imagePath session') ≠
        PosixPath.resolve (cfg.imagePath session) := by
      intro hpath
      refine heq (PosixPath.resolve_concat_injective
        (cfg.homeUser ++ ["heaps".toList, cfg.platform]) ?_)
      simpa [HeapConfig.imagePath] using hpath
    rw [image, h, FileTree.node_write_of_ne _ _ hne, image]

namespace Imaged

variable {log : List (HeapKey × ℕ)} {s' : HeapPool}

theorem of_nil (hentries : s.entries = []) (hbuilds : s.builds = []) : Imaged cfg s log where
  nodup := by rw [hentries]; exact List.nodup_nil
  key h := by rw [hentries] at h; cases h
  ready h := by rw [hentries] at h; cases h
  own h := by rw [hbuilds] at h; cases h
  ended h := by rw [hbuilds] at h; cases h

/-- The requests move on, and new ones wait. -/
theorem frame (h : Imaged cfg s log) (hentries : s'.entries = s.entries)
    (hheaps : s'.heaps = s.heaps)
    (hprocesses : ∀ (p : ℕ) (x : BuildProcess), s.processes[p]? = some x →
      s'.processes[p]? = some x)
    (hbuilds : ∀ c ∈ s'.builds, c ∈ s.builds ∨ (∀ entry, c.entry = some entry →
      entry.key = c.key) ∧ ∀ entry p, c.stage = .running entry p →
        ∃ x, s'.processes[p]? = some x ∧ x.session = entry.sessionName ∧ x.exit = none) :
    Imaged cfg s' log where
  nodup := by rw [hentries]; exact h.nodup
  key hlookup := h.key (by rwa [hentries] at hlookup)
  ready hlookup hready := by
    rw [hentries] at hlookup
    rw [image_congr hheaps]
    exact h.ready hlookup hready
  own hc hentry := by
    rcases hbuilds _ hc with hc | hnew
    · exact h.own hc hentry
    · exact hnew.1 _ hentry
  ended {c entry p} hc hstage := by
    rcases hbuilds c hc with hc | hnew
    · obtain ⟨x, hx, hsession, himage⟩ := h.ended hc hstage
      exact ⟨x, hprocesses p x hx, hsession, by rwa [image_congr hheaps]⟩
    · obtain ⟨x, hx, hsession, hexit⟩ := hnew.2 entry p hstage
      refine ⟨x, hx, hsession, fun hcontra => ?_⟩
      rw [hexit] at hcontra
      cases hcontra

/-- An entry is written; the log may grow by a build of its key. -/
theorem put (h : Imaged cfg s log) {key : HeapKey} {entry : HeapEntry}
    {log' : List (HeapKey × ℕ)} (hentries : s'.entries = Dict.put s.entries key entry)
    (hheaps : s'.heaps = s.heaps) (hbuilds : s'.builds = s.builds)
    (hprocesses : s'.processes = s.processes) (hkey : entry.key = key)
    (hlog : ∀ k, k ≠ key → log'.lookup k = log.lookup k)
    (hready : entry.status = .ready →
      ∃ p, log'.lookup key = some p ∧ s.image cfg entry.sessionName = some p) :
    Imaged cfg s' log' where
  nodup := by rw [hentries]; exact Dict.nodup_put h.nodup
  key {k e} hlookup := by
    rw [hentries] at hlookup
    by_cases hk : k = key
    · rw [hk, Dict.lookup_put_self] at hlookup
      cases hlookup
      rw [hk, hkey]
    · rw [Dict.lookup_put_of_ne hk] at hlookup
      exact h.key hlookup
  ready {k e} hlookup hstatus := by
    rw [hentries] at hlookup
    rw [image_congr hheaps]
    by_cases hk : k = key
    · rw [hk, Dict.lookup_put_self] at hlookup
      cases hlookup
      rw [hk]
      exact hready hstatus
    · rw [Dict.lookup_put_of_ne hk] at hlookup
      rw [hlog k hk]
      exact h.ready hlookup hstatus
  own hc := h.own (by rwa [hbuilds] at hc)
  ended hc hstage := by
    rw [hbuilds] at hc
    rw [hprocesses, image_congr hheaps]
    exact h.ended hc hstage

theorem setBuild (h : Imaged cfg s log) {i : ℕ} {c : BuildCall} (stage : BuildStage)
    (hown : ∀ entry, ({ c with stage } : BuildCall).entry = some entry → entry.key = c.key)
    (hended : ∀ entry p, stage = .running entry p →
      ∃ x, s'.processes[p]? = some x ∧ x.session = entry.sessionName ∧ x.exit = none)
    (hentries : s'.entries = s.entries) (hheaps : s'.heaps = s.heaps)
    (hprocesses : ∀ (p : ℕ) (x : BuildProcess), s.processes[p]? = some x →
      s'.processes[p]? = some x)
    (hbuilds : s'.builds = s.builds.set i { c with stage }) : Imaged cfg s' log := by
  refine h.frame hentries hheaps hprocesses fun d hd => ?_
  rw [hbuilds] at hd
  rcases List.mem_or_eq_of_mem_set hd with hd | rfl
  · exact .inl hd
  · exact .inr ⟨hown, hended⟩

theorem leave (h : Imaged cfg s log) (i : ℕ) (c : BuildCall) :
    Imaged cfg (s.setBuild i c .ended) log :=
  h.setBuild .ended (fun _ hcontra => by cases hcontra) (fun _ _ hcontra => by cases hcontra)
    rfl rfl (fun _ _ hx => hx) rfl

theorem register (h : Imaged cfg s log) (i : ℕ) (c : BuildCall) :
    Imaged cfg (s.register cfg i c) log := by
  unfold HeapPool.register
  split
  case h_2 => exact h
  case h_1 hqueued =>
    by_cases hroom : s.admitted < cfg.maxConcurrentBuilds
    · rw [if_pos hroom]
      obtain ⟨roots, hnew⟩ := newEntry_frame cfg s c.key c.sessionName c.builtBy
      cases hresult : s.newEntry cfg c.key c.sessionName c.builtBy with
      | mk s' result =>
        rw [hresult] at hnew
        cases hnew
        have hroots : Imaged cfg { s with roots } log :=
          h.frame rfl rfl (fun _ _ hx => hx) fun _ hc => .inl hc
        cases result with
        | error e => exact hroots.leave i c
        | ok entry =>
          obtain ⟨rootDir, name, rootText, files, -, -, -, hentry⟩ := newEntry_ok cfg s hresult
          have hkey : entry.key = c.key := by rw [hentry]; rfl
          have hbuilding : entry.status = .building := by rw [hentry]
          have hput : Imaged cfg { s with roots, entries := Dict.put s.entries c.key entry } log :=
            hroots.put rfl rfl rfl rfl hkey (fun _ _ => rfl) fun hready => by
              rw [hbuilding] at hready
              cases hready
          dsimp only
          split_ifs
          · refine hput.setBuild (.registered entry) (fun e he => ?_)
              (fun _ _ hcontra => by cases hcontra) rfl rfl (fun _ _ hx => hx) rfl
            cases he
            exact hkey
          · exact hput.leave i c
    · rw [if_neg hroom]
      exact h

/-- A build that is recorded as a success waited for the process that wrote the image. -/
theorem record (h : Imaged cfg s log) {i : ℕ} {c : BuildCall} (hc : s.builds[i]? = some c)
    {entry : HeapEntry} (hentry : c.entry = some entry) (ok : Bool) (text : Text) (time : ℕ)
    {log' : List (HeapKey × ℕ)} (hlog : ∀ k, k ≠ c.key → log'.lookup k = log.lookup k)
    (hok : ok = true →
      ∃ p, log'.lookup c.key = some p ∧ s.image cfg entry.sessionName = some p) :
    Imaged cfg (s.record cfg i c entry ok text time) log' := by
  have hkey := h.own (List.mem_of_getElem? hc) hentry
  unfold HeapPool.record
  dsimp only
  generalize hrecorded : HeapEntry.mk _ _ _ _ _ _ _ _ _ _ _ = recorded
  have hkey' : recorded.key = c.key := by rw [← hrecorded, ← hkey]; rfl
  have hname : recorded.sessionName = entry.sessionName := by rw [← hrecorded]
  have hready : recorded.status = .ready →
      ∃ p, log'.lookup c.key = some p ∧ s.image cfg recorded.sessionName = some p := by
    intro hstatus
    rw [hname]
    cases ok with
    | true => exact hok rfl
    | false =>
      rw [← hrecorded] at hstatus
      cases hstatus
  by_cases hin : (s.entries.lookup c.key).isSome = true
  · rw [if_pos hin]
    have hput : Imaged cfg { s with entries := Dict.put s.entries c.key recorded } log' :=
      h.put rfl rfl rfl rfl hkey' hlog hready
    exact hput.setBuild .ended (fun _ hcontra => by cases hcontra)
      (fun _ _ hcontra => by cases hcontra) rfl rfl (fun _ _ hx => hx) rfl
  · rw [if_neg hin]
    -- the key has no entry, so only the other keys look at the log
    have hnone : s.entries.lookup c.key = none := Option.not_isSome_iff_eq_none.mp hin
    have hlogged : Imaged cfg s log' :=
      { h with
        ready := fun {key e} hlookup hstatus => by
          have hne : key ≠ c.key := by
            rintro rfl
            rw [hnone] at hlookup
            cases hlookup
          rw [hlog key hne]
          exact h.ready hlookup hstatus }
    exact hlogged.setBuild .ended (fun _ hcontra => by cases hcontra)
      (fun _ _ hcontra => by cases hcontra) rfl rfl (fun _ _ hx => hx) rfl

/-- A process ends; where it succeeds, it writes an image that nobody else counts on. -/
theorem processEnds (h : Imaged cfg s log) {p : ℕ} {ok : Bool}
    (hapart : WritesApart s (.processEnds p ok)) : Imaged cfg (s.processEnds cfg p ok) log := by
  cases hx : s.processes[p]? with
  | none => simpa only [HeapPool.processEnds, hx] using h
  | some x =>
    by_cases hexit : x.exit.isSome = true
    · simpa only [HeapPool.processEnds, hx, if_pos hexit] using h
    · have hnone : x.exit = none := Option.not_isSome_iff_eq_none.mp hexit
      have hcases : ∃ s' : HeapPool, s.processEnds cfg p ok = s' ∧ s'.entries = s.entries ∧
          s'.builds = s.builds ∧ s'.processes = s.processes.set p { x with exit := some ok } ∧
          ∀ n, s'.image cfg n = if ok = true ∧ n = x.session then some p else s.image cfg n := by
        refine ⟨_, rfl, ?_⟩
        simp only [HeapPool.processEnds, hx, if_neg hexit]
        cases ok with
        | true => exact ⟨rfl, rfl, rfl, fun n => by simpa using image_write rfl n⟩
        | false =>
          exact ⟨rfl, rfl, rfl, fun n => by rw [if_neg (by simp)]; exact image_congr rfl n⟩
      obtain ⟨s', hs', hentries, hbuilds, hprocesses, himage⟩ := hcases
      rw [hs']
      refine ⟨?_, ?_, ?_, ?_, ?_⟩
      · rw [hentries]
        exact h.nodup
      · rw [hentries]
        exact h.key
      · intro key entry hlookup hready
        rw [hentries] at hlookup
        rw [himage, if_neg]
        · exact h.ready hlookup hready
        · rintro ⟨rfl, hsession⟩
          exact (hapart x hx hnone).1 _ (Dict.mem_of_lookup hlookup) hready hsession
      · rw [hbuilds]
        exact h.own
      · intro c entry q hc hstage
        rw [hbuilds] at hc
        obtain ⟨y, hy, hsession, hold⟩ := h.ended hc hstage
        rw [hprocesses, himage]
        by_cases hpq : p = q
        · subst hpq
          rw [hx] at hy
          cases hy
          refine ⟨{ x with exit := some ok }, ?_, hsession, fun hok => ?_⟩
          · rw [List.getElem?_set_self (List.getElem?_eq_some_iff.mp hx).1]
          · cases hok
            rw [if_pos ⟨rfl, hsession.symm⟩]
        · refine ⟨y, by rw [List.getElem?_set_ne hpq]; exact hy, hsession, fun hok => ?_⟩
          rw [if_neg]
          · exact hold hok
          · rintro ⟨rfl, hname⟩
            have hwaits : q ∈ s.waited :=
              List.mem_filterMap.mpr ⟨c, hc, by rw [BuildCall.process, hstage]⟩
            exact (hapart x hx hnone).2 q hwaits (Ne.symm hpq) y hy hok (hsession.trans hname)

theorem succeeded_of_running {i p : ℕ} {c : BuildCall} {entry : HeapEntry} {ok : Bool}
    (hc : s.builds[i]? = some c) (hstage : c.stage = .running entry p)
    (hexit : (s.processes[p]?).bind BuildProcess.exit = some ok) :
    s.succeeded i = if ok = true then some (c.key, p) else none := by
  have hprocess : c.process = some p := by rw [BuildCall.process, hstage]
  simp only [succeeded, hc, Option.bind_some, hprocess, Option.filter_some, hexit]
  cases ok <;> rfl

theorem finish (h : Imaged cfg s log) {i : ℕ} {c : BuildCall} (hc : s.builds[i]? = some c)
    (text : Text) (time : ℕ) :
    Imaged cfg (s.finish cfg i c text time) ((s.succeeded i).toList ++ log) := by
  unfold HeapPool.finish
  split
  case h_1 entry p hstage =>
    have hentry : c.entry = some entry := by rw [BuildCall.entry, hstage]
    have hprocess : c.process = some p := by rw [BuildCall.process, hstage]
    obtain ⟨x, hx, -, himage⟩ := h.ended (List.mem_of_getElem? hc) hstage
    split
    case h_1 ok hexit =>
      rw [succeeded_of_running hc hstage hexit]
      rw [hx, Option.bind_some] at hexit
      refine h.record hc hentry ok text time ?_ ?_
      · intro k hk
        cases ok with
        | true => exact Dict.lookup_cons (c.key, p) log k |>.trans (if_neg hk)
        | false => rfl
      · rintro rfl
        exact ⟨p, by simp, himage hexit⟩
    case h_2 hexit =>
      have hnone : s.succeeded i = none := by
        simp [succeeded, hc, hprocess, hexit]
      rw [hnone]
      exact h
  case h_2 hstage =>
    have hprocess : c.process = none := by
      unfold BuildCall.process
      split
      case h_1 entry p hrunning => exact absurd hrunning (hstage entry p)
      case h_2 => rfl
    have hnone : s.succeeded i = none := by
      simp [succeeded, hc, hprocess]
    rw [hnone]
    exact h

theorem step (h : Imaged cfg s log) {e : HeapEvent} (hapart : WritesApart s e) :
    Imaged cfg (s.step cfg e) (successes s e ++ log) := by
  have hwith : ∀ {i : ℕ} {f : BuildCall → HeapPool},
      (∀ c, s.builds[i]? = some c → Imaged cfg (f c) log) → Imaged cfg (s.withBuild i f) log :=
    fun hf => withBuild_of (P := fun s' => Imaged cfg s' log) h hf
  cases e with
  | build key sessionName builtBy =>
    simp only [HeapPool.step, build]
    split_ifs
    · exact h
    · refine h.frame rfl rfl (fun _ _ hx => hx) fun c hc => ?_
      rcases List.mem_append.mp hc with hc | hc
      · exact .inl hc
      · rw [List.mem_singleton.mp hc]
        refine .inr ⟨fun _ hcontra => ?_, fun _ _ hcontra => ?_⟩
        · cases hcontra
        · cases hcontra
  | register i => exact hwith fun c _ => h.register i c
  | spawn i =>
    refine hwith fun c hc => ?_
    unfold HeapPool.spawn
    split
    case h_1 entry hstage =>
      refine h.setBuild (.running entry s.processes.length) ?_ ?_ rfl rfl ?_ rfl
      · intro e hentry
        refine h.own (List.mem_of_getElem? hc) ?_
        rwa [BuildCall.entry, hstage]
      · rintro e p ⟨⟩
        exact ⟨_, List.getElem?_concat_length, rfl, rfl⟩
      · intro p x hx
        rw [← hx]
        exact List.getElem?_append_left (List.getElem?_eq_some_iff.mp hx).1
    case h_2 => exact h
  | spawnFails i error =>
    refine hwith fun c hc => ?_
    unfold HeapPool.spawnFails
    split
    case h_1 entry hstage =>
      exact h.record hc (by rw [BuildCall.entry, hstage]) false _ _ (fun _ _ => rfl)
        fun hcontra => by cases hcontra
    case h_2 => exact h
  | processEnds p ok => exact h.processEnds hapart
  | finish i text time =>
    simp only [HeapPool.step, successes, withBuild]
    cases hc : s.builds[i]? with
    | none =>
      rw [succeeded, hc]
      exact h
    | some c => exact h.finish hc text time
  | timeOut i message =>
    refine hwith fun c hc => ?_
    unfold HeapPool.timeOut
    split
    case h_1 entry p hstage =>
      exact h.record hc (by rw [BuildCall.entry, hstage]) false _ _ (fun _ _ => rfl)
        fun hcontra => by cases hcontra
    case h_2 => exact h
  | cancel i => exact hwith fun c _ => h.leave i c
  | resolveForSession taskGroup heapSession project =>
    simp only [HeapPool.step, resolveForSession]
    split
    · exact h
    case h_2 entry hselect =>
      obtain ⟨key, hin, -⟩ := mem_of_selectEntry s hselect
      have hkey := h.key (Dict.lookup_of_mem h.nodup hin)
      split
      case h_4 =>
        split
        · exact h
        · exact h.put rfl rfl rfl rfl rfl (fun _ _ => rfl) fun hcontra => by cases hcontra
      all_goals exact h
  | changeProject project dir => exact h.frame rfl rfl (fun _ _ hx => hx) fun _ hc => .inl hc
  | changeRoot dir rootText => exact h.frame rfl rfl (fun _ _ hx => hx) fun _ hc => .inl hc

theorem resolves (h : Imaged cfg s log) (e : HeapEvent) : ResolvesOwnImage cfg (s, log) e := by
  unfold ResolvesOwnImage
  split
  case h_1 taskGroup heapSession project =>
    intro entry hresolve
    obtain ⟨hselect, hready, -⟩ := (resolveForSession_eq_ok cfg s).mp hresolve
    obtain ⟨key, hin, -⟩ := mem_of_selectEntry s hselect
    have hlookup := Dict.lookup_of_mem h.nodup hin
    rw [h.key hlookup]
    exact h.ready hlookup hready
  case h_2 => trivial

end Imaged

/-- Where no build writes over an image that another entry counts on, a ready entry has the image
of its own build. -/
theorem resolvesOwnImage (cfg : HeapConfig) {s : HeapPool} (hentries : s.entries = [])
    (hbuilds : s.builds = []) (es : List HeapEvent)
    (hapart : Runs.EveryStep (builtStep cfg) (fun x e => WritesApart x.1 e) (s, []) es) :
    Runs.EveryStep (builtStep cfg) (ResolvesOwnImage cfg) (s, []) es := by
  have hstep : ∀ (x : HeapPool × List (HeapKey × ℕ)) (e : HeapEvent), Imaged cfg x.1 x.2 →
      WritesApart x.1 e → Imaged cfg (builtStep cfg x e).1 (builtStep cfg x e).2 :=
    fun x e h hapart => h.step hapart
  exact Runs.everyStep_of_invariant hstep (fun x e h _ => h.resolves e)
    (Imaged.of_nil hentries hbuilds) hapart

def builtAt (i : ℕ) (key : HeapKey) (sessionName : Text) : List HeapEvent :=
  [.build key (some sessionName) none, .register i, .spawn i, .processEnds i true, .finish i [] 0]

/-- Two groups build under one session name, and the first one asks for its heap. -/
def sharedName (first second : Text) : List HeapEvent :=
  builtAt 0 ("alpha".toList, "/p".toList) first ++
    builtAt 1 ("beta".toList, "/q".toList) second

theorem resolvesOwnImage_of_distinct_names :
    Runs.EveryStep (builtStep .sample) (ResolvesOwnImage .sample)
      (.sample ["/p".toList, "/q".toList], [])
      (sharedName "A".toList "B".toList ++
        [.resolveForSession "alpha".toList none (some "/p".toList)]) :=
  resolvesOwnImage .sample rfl rfl _ (by decide)

set_option maxRecDepth 20000 in
/-- The entry of the first group is ready and fresh, and its image is the one of the second. -/
theorem image_of_other_group :
    ¬ ∀ (cfg : HeapConfig) (s : HeapPool), s.entries = [] → s.builds = [] →
      ∀ es : List HeapEvent,
        Runs.EveryStep (builtStep cfg) (ResolvesOwnImage cfg) (s, []) es := by
  intro h
  have hrun := h .sample (.sample ["/p".toList, "/q".toList]) rfl rfl
    (sharedName "S".toList "S".toList ++
      [.resolveForSession "alpha".toList none (some "/p".toList)])
  rw [Runs.everyStep_append] at hrun
  obtain ⟨-, hresolves, -⟩ := hrun
  generalize hx : List.foldl _ _ _ = x at hresolves
  have hok : (x.1.resolveForSession .sample "alpha".toList none (some "/p".toList)).2.toOption.map
      (fun e => (e.key, e.sessionName)) =
        some (("alpha".toList, "/p".toList), "S".toList) := by rw [← hx]; decide
  have hlog : x.2.lookup ("alpha".toList, "/p".toList) = some 0 := by rw [← hx]; decide
  have himage : x.1.image .sample "S".toList = some 1 := by rw [← hx]; decide
  cases hresult : (x.1.resolveForSession .sample "alpha".toList none (some "/p".toList)).2 with
  | error e =>
    rw [hresult] at hok
    cases hok
  | ok entry =>
    rw [hresult] at hok
    simp only [Except.toOption, Option.map_some, Option.some.injEq, Prod.mk.injEq] at hok
    obtain ⟨p, hp, hpath⟩ := hresolves entry hresult
    rw [hok.1, hlog] at hp
    rw [hok.2, himage] at hpath
    cases hp
    cases hpath

end HeapPool
end IsabelleGym
