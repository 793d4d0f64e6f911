import IsabelleGym.HeapBuilds

/-!
# The registry and its manifests

Every change of an entry is written to the manifest of its key, so that the
registry can be read back when no build is under way. That asks for a manifest
path that the reload finds and no other entry has, and for builds that come to
their end: a build that is cancelled, or whose entry is deleted under it, leaves
the two apart.
-/

namespace IsabelleGym

def HeapEntry.key (entry : HeapEntry) : HeapKey := (entry.taskGroup, entry.project)

/-- The entry that the request has put into the registry. -/
def BuildCall.entry (c : BuildCall) : Option HeapEntry :=
  match c.stage with
  | .registered entry | .running entry _ => some entry
  | .queued | .ended => none

theorem BuildCall.inFlight_of_entry {c : BuildCall} {entry : HeapEntry}
    (h : c.entry = some entry) : c.inFlight = true := by
  unfold BuildCall.entry at h
  unfold BuildCall.inFlight
  split at h
  case h_1 hstage => rw [hstage]
  case h_2 hstage => rw [hstage]
  all_goals cases h

def HeapConfig.manifestFile (cfg : HeapConfig) (key : HeapKey) : FilePath :=
  cfg.absolute (cfg.manifestPath key)

namespace HeapPool

variable (cfg : HeapConfig) (s : HeapPool)

def saved (key : HeapKey) : Option HeapEntry :=
  (s.manifests.lookup (cfg.manifestFile key)).filter fun m =>
    m.key = key && isManifestPath cfg (cfg.manifestFile key)

def Settled : Prop := ∀ c ∈ s.builds, c.inFlight = false

/-- No entry is being built, and the manifests hold the registry. -/
def Reloads : Prop :=
  (∀ key entry, s.entries.lookup key = some entry → entry.status ≠ .building) ∧
    ∀ key, (s.loadManifests cfg).lookup key = s.entries.lookup key

/-- The server has read the manifests that it finds, each at the path of its own entry. -/
structure Started : Prop where
  builds : s.builds = []
  entries : s.entries = s.loadManifests cfg
  nodup : (s.manifests.map Prod.fst).Nodup
  own {p : FilePath} {m : HeapEntry} : (p, m) ∈ s.manifests → isManifestPath cfg p = true →
    p = cfg.manifestFile m.key

/-- A build that registers its entry has a manifest path that can be written, that the reload
finds, and that no other entry has; a build that has registered its entry is not cancelled, and
the entry is not deleted under it. -/
def KeepsManifests (cfg : HeapConfig) (s : HeapPool) (e : RegistryEvent) : Prop :=
  match e with
  | .pool (.register i) => ∀ c ∈ s.builds[i]?,
    (s.newEntry cfg c.key c.sessionName c.builtBy).2.isOk = true →
      cfg.accepts (cfg.manifestFile c.key) = true ∧
        isManifestPath cfg (cfg.manifestFile c.key) = true ∧
        ∀ e ∈ s.entries, e.1 ≠ c.key → cfg.manifestFile e.1 ≠ cfg.manifestFile c.key
  | .pool (.cancel i) => ∀ c ∈ s.builds[i]?, c.entry = none
  | .delete key => ∀ c ∈ s.builds, c.key = key → c.entry = none
  | .deleteGroup taskGroup => ∀ c ∈ s.builds, c.key.1 = taskGroup → c.entry = none
  | _ => True

instance (cfg : HeapConfig) (s : HeapPool) :
    (e : RegistryEvent) → Decidable (KeepsManifests cfg s e)
  | .pool (.register _) | .pool (.cancel _) => inferInstanceAs (Decidable (∀ c ∈ _, _))
  | .delete _ | .deleteGroup _ => inferInstanceAs (Decidable (∀ c ∈ s.builds, _ → _))
  | .pool (.build ..) | .pool (.spawn _) | .pool (.spawnFails ..) | .pool (.processEnds ..)
  | .pool (.finish ..) | .pool (.timeOut ..) | .pool (.resolveForSession ..)
  | .pool (.changeProject ..) | .pool (.changeRoot ..) => inferInstanceAs (Decidable True)

/-- The entry of the key is the one of a build that has registered it. -/
def Owns (key : HeapKey) (entry : HeapEntry) : Prop :=
  ∃ (i : ℕ) (c : BuildCall), s.builds[i]? = some c ∧ c.key = key ∧ c.entry = some entry

structure Persisted (cfg : HeapConfig) (s : HeapPool) : Prop where
  nodup_entries : (s.entries.map Prod.fst).Nodup
  nodup_manifests : (s.manifests.map Prod.fst).Nodup
  own {p : FilePath} {m : HeapEntry} : (p, m) ∈ s.manifests → isManifestPath cfg p = true →
    p = cfg.manifestFile m.key
  idle {key : HeapKey} : (∀ entry, ¬ s.Owns key entry) →
    s.entries.lookup key = (s.saved cfg key).map interrupted
  busy {key : HeapKey} {entry : HeapEntry} : s.Owns key entry → entry.status = .building ∧
    s.entries.lookup key = some entry ∧ s.saved cfg key = some entry

variable {cfg s}

section Saved

theorem key_interrupted (entry : HeapEntry) : (interrupted entry).key = entry.key := by
  unfold interrupted
  split <;> rfl

theorem interrupted_status (entry : HeapEntry) : (interrupted entry).status ≠ .building := by
  unfold interrupted
  split_ifs with h
  · simp
  · exact h

theorem interrupted_of_status {entry : HeapEntry} (h : entry.status ≠ .building) :
    interrupted entry = entry := if_neg h

theorem saved_eq_some {key : HeapKey} {entry : HeapEntry} :
    s.saved cfg key = some entry ↔ s.manifests.lookup (cfg.manifestFile key) = some entry ∧
      entry.key = key ∧ isManifestPath cfg (cfg.manifestFile key) = true := by
  simp [saved, Option.filter_eq_some_iff]

/-- Two entries do not have one manifest. -/
theorem saved_eq_none_of_ne {key key' : HeapKey} {entry : HeapEntry}
    (h : s.saved cfg key = some entry) (hne : key' ≠ key)
    (hfile : cfg.manifestFile key' = cfg.manifestFile key) : s.saved cfg key' = none := by
  obtain ⟨hlookup, hkey, -⟩ := saved_eq_some.mp h
  cases hsaved : s.saved cfg key' with
  | none => rfl
  | some entry' =>
    obtain ⟨hlookup', hkey', -⟩ := saved_eq_some.mp hsaved
    rw [hfile, hlookup] at hlookup'
    cases hlookup'
    exact absurd (hkey'.symm.trans hkey) hne

/-- The reload reads what is saved. -/
theorem lookup_loadManifests (hnodup : (s.manifests.map Prod.fst).Nodup)
    (hown : ∀ {p : FilePath} {m : HeapEntry}, (p, m) ∈ s.manifests →
      isManifestPath cfg p = true → p = cfg.manifestFile m.key) (key : HeapKey) :
    (s.loadManifests cfg).lookup key = (s.saved cfg key).map interrupted := by
  have hmem : ∀ {x : FilePath × HeapEntry}, x ∈ (s.manifests.filter fun m =>
      isManifestPath cfg m.1).insertionSort (fun m n => pathLE m.1 n.1 = true) ↔
        x ∈ s.manifests ∧ isManifestPath cfg x.1 = true := by
    intro x
    rw [(List.perm_insertionSort _ _).mem_iff, List.mem_filter]
  cases hsaved : s.saved cfg key with
  | none =>
    refine Dict.lookup_foldl_put_of_forall_ne ?_
    intro x hx heq
    obtain ⟨hin, hpath⟩ := hmem.mp hx
    have hfile := hown hin hpath
    have hlookup := Dict.lookup_of_mem hnodup hin
    have hkey : x.2.key = key := heq
    rw [hfile] at hlookup hpath
    rw [hkey] at hlookup hpath
    rw [saved_eq_some.mpr ⟨hlookup, hkey, hpath⟩] at hsaved
    cases hsaved
  | some m =>
    obtain ⟨hlookup, hkey, hpath⟩ := saved_eq_some.mp hsaved
    refine Dict.lookup_foldl_put_of_forall_eq ?_ ?_
    · exact ⟨_, hmem.mpr ⟨Dict.mem_of_lookup hlookup, hpath⟩, hkey⟩
    · intro x hx heq
      obtain ⟨hin, hpath'⟩ := hmem.mp hx
      have hkey' : x.2.key = key := heq
      have hfile := hown hin hpath'
      rw [hkey'] at hfile
      have hlookup' := Dict.lookup_of_mem hnodup hin
      rw [hfile, hlookup] at hlookup'
      cases hlookup'
      rfl

end Saved

section Owners

variable {key : HeapKey} {entry : HeapEntry} {s' : HeapPool}

theorem owns_congr (h : s'.builds = s.builds) : s'.Owns key entry ↔ s.Owns key entry := by
  unfold Owns
  rw [h]

/-- The owner of a key is the one request for it that is under way. -/
theorem Owns.eq (h : s.Owns key entry) (hflight : InFlight cfg s) {i : ℕ} {c : BuildCall}
    (hc : s.builds[i]? = some c) (hin : c.inFlight = true) (hkey : c.key = key) :
    c.entry = some entry := by
  obtain ⟨j, d, hd, hdkey, hentry⟩ := h
  obtain rfl := hflight.keys hd hc (BuildCall.inFlight_of_entry hentry) hin
    (hdkey.trans hkey.symm)
  rw [hc] at hd
  cases hd
  exact hentry

/-- A request moves on: the other keys keep their owners. -/
theorem owns_set (hflight : InFlight cfg s) {i : ℕ} {c : BuildCall} (hc : s.builds[i]? = some c)
    (hin : c.inFlight = true) (stage : BuildStage)
    (hbuilds : s'.builds = s.builds.set i { c with stage }) :
    s'.Owns key entry ↔ key ≠ c.key ∧ s.Owns key entry ∨
      key = c.key ∧ ({ c with stage } : BuildCall).entry = some entry := by
  have hlt : i < s.builds.length := (List.getElem?_eq_some_iff.mp hc).1
  constructor
  · rintro ⟨j, d, hd, rfl, hentry⟩
    rw [hbuilds, List.getElem?_set] at hd
    split_ifs at hd with hij
    · cases hd
      exact .inr ⟨rfl, hentry⟩
    · refine .inl ⟨fun heq => hij ?_, j, d, hd, rfl, hentry⟩
      exact hflight.keys hc hd hin (BuildCall.inFlight_of_entry hentry) heq.symm
  · rintro (⟨hne, j, d, hd, hdkey, hentry⟩ | ⟨rfl, hentry⟩)
    · refine ⟨j, d, ?_, hdkey, hentry⟩
      have hij : i ≠ j := by
        rintro rfl
        rw [hc] at hd
        cases hd
        exact hne hdkey.symm
      rw [hbuilds, List.getElem?_set_ne hij]
      exact hd
    · exact ⟨i, { c with stage }, by rw [hbuilds, List.getElem?_set_self hlt], rfl, hentry⟩

theorem owns_append {c : BuildCall} (hbuilds : s'.builds = s.builds ++ [c]) (hc : c.entry = none) :
    s'.Owns key entry ↔ s.Owns key entry := by
  constructor
  · rintro ⟨j, d, hd, hkey, hentry⟩
    rw [hbuilds] at hd
    rcases List.mem_append.mp (List.mem_of_getElem? hd) with hin | hin
    · obtain ⟨k, hk⟩ := List.mem_iff_getElem?.mp hin
      exact ⟨k, d, hk, hkey, hentry⟩
    · rw [List.mem_singleton.mp hin, hc] at hentry
      cases hentry
  · rintro ⟨j, d, hd, hkey, hentry⟩
    refine ⟨j, d, ?_, hkey, hentry⟩
    rw [hbuilds, List.getElem?_append_left (List.getElem?_eq_some_iff.mp hd).1]
    exact hd

end Owners

namespace Persisted

theorem of_started (h : Started cfg s) : Persisted cfg s where
  nodup_entries := by
    rw [h.entries]
    exact Dict.nodup_foldl_put List.nodup_nil
  nodup_manifests := h.nodup
  own := h.own
  idle _ := by rw [h.entries, lookup_loadManifests h.nodup h.own]
  busy hown := by
    obtain ⟨i, c, hc, -⟩ := hown
    rw [h.builds] at hc
    cases hc

theorem reloads (h : Persisted cfg s) (hsettled : s.Settled) : s.Reloads cfg := by
  have hidle : ∀ key entry, ¬ s.Owns key entry := by
    rintro key entry ⟨i, c, hc, -, hentry⟩
    have hended := hsettled c (List.mem_of_getElem? hc)
    rw [BuildCall.inFlight_of_entry hentry] at hended
    cases hended
  constructor
  · intro key entry hlookup
    rw [h.idle (hidle key)] at hlookup
    obtain ⟨m, -, rfl⟩ := Option.map_eq_some_iff.mp hlookup
    exact interrupted_status m
  · intro key
    rw [lookup_loadManifests h.nodup_manifests h.own, h.idle (hidle key)]

variable {s' : HeapPool} {key : HeapKey} {entry : HeapEntry}

theorem frame (h : Persisted cfg s) (hentries : s'.entries = s.entries)
    (hmanifests : s'.manifests = s.manifests)
    (howns : ∀ key entry, s'.Owns key entry ↔ s.Owns key entry) : Persisted cfg s' := by
  have hsaved : ∀ key, s'.saved cfg key = s.saved cfg key := fun key => by
    rw [saved, saved, hmanifests]
  refine ⟨?_, ?_, ?_, ?_, ?_⟩
  · rw [hentries]
    exact h.nodup_entries
  · rw [hmanifests]
    exact h.nodup_manifests
  · rw [hmanifests]
    exact h.own
  · intro key hidle
    rw [hentries, hsaved]
    exact h.idle fun entry hown => hidle entry ((howns key entry).mpr hown)
  · intro key entry hown
    rw [hentries, hsaved]
    exact h.busy ((howns key entry).mp hown)

theorem saved_eq_none (h : Persisted cfg s) (hnone : s.entries.lookup key = none) :
    s.saved cfg key = none := by
  have hidle : ∀ entry, ¬ s.Owns key entry := fun entry hown => by
    rw [(h.busy hown).2.1] at hnone
    cases hnone
  rw [h.idle hidle] at hnone
  exact Option.map_eq_none_iff.mp hnone

/-- The entry is written to the registry and to its manifest, which no other entry has. -/
theorem put (h : Persisted cfg s) (hentries : s'.entries = Dict.put s.entries key entry)
    (hmanifests : s'.manifests = Dict.put s.manifests (cfg.manifestFile key) entry)
    (hkey : entry.key = key) (hpath : isManifestPath cfg (cfg.manifestFile key) = true)
    (hfree : ∀ k, k ≠ key → cfg.manifestFile k = cfg.manifestFile key → s.saved cfg k = none)
    (howns : ∀ k e, s'.Owns k e ↔
      k ≠ key ∧ s.Owns k e ∨ k = key ∧ e = entry ∧ entry.status = .building) :
    Persisted cfg s' := by
  have hself : s'.saved cfg key = some entry :=
    saved_eq_some.mpr ⟨by rw [hmanifests, Dict.lookup_put_self], hkey, hpath⟩
  have hother : ∀ k, k ≠ key → s'.saved cfg k = s.saved cfg k := by
    intro k hne
    by_cases hfile : cfg.manifestFile k = cfg.manifestFile key
    · rw [hfree k hne hfile, saved_eq_none_of_ne hself hne hfile]
    · rw [saved, saved, hmanifests, Dict.lookup_put_of_ne hfile]
  refine ⟨?_, ?_, ?_, ?_, ?_⟩
  · rw [hentries]
    exact Dict.nodup_put h.nodup_entries
  · rw [hmanifests]
    exact Dict.nodup_put h.nodup_manifests
  · intro p m hin hp
    rw [hmanifests] at hin
    rcases Dict.mem_put.mp hin with heq | ⟨hin, -⟩
    · cases heq
      rw [hkey]
    · exact h.own hin hp
  · intro k hidle
    by_cases hk : k = key
    · subst hk
      have hstatus : entry.status ≠ .building := fun hbuilding =>
        hidle entry ((howns k entry).mpr (.inr ⟨rfl, rfl, hbuilding⟩))
      rw [hentries, Dict.lookup_put_self, hself, Option.map_some, interrupted_of_status hstatus]
    · rw [hentries, Dict.lookup_put_of_ne hk, hother k hk]
      exact h.idle fun e hown => hidle e ((howns k e).mpr (.inl ⟨hk, hown⟩))
  · intro k e hown
    rcases (howns k e).mp hown with ⟨hk, hown⟩ | ⟨rfl, rfl, hstatus⟩
    · rw [hentries, Dict.lookup_put_of_ne hk, hother k hk]
      exact h.busy hown
    · exact ⟨hstatus, by rw [hentries, Dict.lookup_put_self], hself⟩

theorem del (h : Persisted cfg s) (hentries : s'.entries = Dict.del s.entries key)
    (hmanifests : s'.manifests = Dict.del s.manifests (cfg.manifestFile key))
    (hbuilds : s'.builds = s.builds) (hidle : ∀ entry, ¬ s.Owns key entry)
    (hlookup : s.entries.lookup key = some entry) : Persisted cfg s' := by
  obtain ⟨m, hsaved, -⟩ : ∃ m, s.saved cfg key = some m ∧ interrupted m = entry := by
    rw [h.idle hidle] at hlookup
    exact Option.map_eq_some_iff.mp hlookup
  have hself : s'.saved cfg key = none := by
    rw [saved, hmanifests, Dict.lookup_del_self]
    rfl
  have hother : ∀ k, k ≠ key → s'.saved cfg k = s.saved cfg k := by
    intro k hne
    by_cases hfile : cfg.manifestFile k = cfg.manifestFile key
    · rw [saved_eq_none_of_ne hsaved hne hfile, saved, hmanifests, hfile, Dict.lookup_del_self]
      rfl
    · rw [saved, saved, hmanifests, Dict.lookup_del_of_ne hfile]
  refine ⟨?_, ?_, ?_, ?_, ?_⟩
  · rw [hentries]
    exact Dict.nodup_del h.nodup_entries
  · rw [hmanifests]
    exact Dict.nodup_del h.nodup_manifests
  · intro p m hin hp
    rw [hmanifests] at hin
    exact h.own (Dict.mem_del.mp hin).1 hp
  · intro k hk
    by_cases heq : k = key
    · rw [heq, hentries, Dict.lookup_del_self, hself]
      rfl
    · rw [hentries, Dict.lookup_del_of_ne heq, hother k heq]
      exact h.idle fun e hown => hk e ((owns_congr hbuilds).mpr hown)
  · intro k e hown
    have hown := (owns_congr hbuilds).mp hown
    have heq : k ≠ key := fun heq => hidle e (heq ▸ hown)
    rw [hentries, Dict.lookup_del_of_ne heq, hother k heq]
    exact h.busy hown

theorem key_of_lookup (h : Persisted cfg s) (hlookup : s.entries.lookup key = some entry) :
    entry.key = key := by
  by_cases hown : ∃ e, s.Owns key e
  · obtain ⟨e, hown⟩ := hown
    obtain ⟨-, hentry, hsaved⟩ := h.busy hown
    rw [hlookup] at hentry
    cases hentry
    exact (saved_eq_some.mp hsaved).2.1
  · rw [h.idle fun e hown' => hown ⟨e, hown'⟩] at hlookup
    obtain ⟨m, hsaved, rfl⟩ := Option.map_eq_some_iff.mp hlookup
    rw [key_interrupted]
    exact (saved_eq_some.mp hsaved).2.1

/-- An entry of the registry is saved, so its manifest is its own. -/
theorem saved_of_lookup (h : Persisted cfg s) (hlookup : s.entries.lookup key = some entry) :
    ∃ m, s.saved cfg key = some m := by
  cases hsaved : s.saved cfg key with
  | some m => exact ⟨m, rfl⟩
  | none =>
    by_cases hown : ∃ e, s.Owns key e
    · obtain ⟨e, hown⟩ := hown
      rw [(h.busy hown).2.2] at hsaved
      cases hsaved
    · rw [h.idle fun e hown' => hown ⟨e, hown'⟩, hsaved] at hlookup
      cases hlookup

/-- A build leaves without an entry of its own. -/
theorem leave (h : Persisted cfg s) (hflight : InFlight cfg s) {i : ℕ} {c : BuildCall}
    (hc : s.builds[i]? = some c) (hentry : c.entry = none) {roots : Dict FilePath Text} :
    Persisted cfg (({ s with roots } : HeapPool).setBuild i c .ended) := by
  refine h.frame rfl rfl fun key entry => ?_
  by_cases hin : c.inFlight = true
  · rw [owns_set hflight hc hin .ended rfl]
    constructor
    · rintro (⟨-, hown⟩ | ⟨-, hcontra⟩)
      · exact hown
      · cases hcontra
    · intro hown
      refine .inl ⟨fun heq => ?_, hown⟩
      rw [hown.eq hflight hc hin heq.symm] at hentry
      cases hentry
  · refine owns_congr ?_
    have hended : c.stage = .ended := by
      unfold BuildCall.inFlight at hin
      split at hin
      case h_1 hstage => exact hstage
      case h_2 => exact absurd rfl hin
    obtain ⟨key, sessionName, builtBy, stage⟩ := c
    obtain rfl : stage = .ended := hended
    obtain ⟨hlt, hget⟩ := List.getElem?_eq_some_iff.mp hc
    change s.builds.set i _ = s.builds
    rw [← hget, List.set_getElem_self]

theorem register (h : Persisted cfg s) (hflight : InFlight cfg s) {i : ℕ} {c : BuildCall}
    (hc : s.builds[i]? = some c) (hkeeps : KeepsManifests cfg s (.pool (.register i))) :
    Persisted cfg (s.register cfg i c) := by
  have hkeeps := hkeeps c hc
  unfold HeapPool.register
  split
  case h_2 => exact h
  case h_1 hqueued =>
    by_cases hroom : s.admitted < cfg.maxConcurrentBuilds
    · rw [if_pos hroom]
      have hnone : c.entry = none := by rw [BuildCall.entry, hqueued]
      have hin : c.inFlight = true := by rw [BuildCall.inFlight, hqueued]
      obtain ⟨roots, hnew⟩ := newEntry_frame cfg s c.key c.sessionName c.builtBy
      cases hresult : s.newEntry cfg c.key c.sessionName c.builtBy with
      | mk s' result =>
        rw [hresult] at hnew hkeeps
        cases hnew
        cases result with
        | error e => exact h.leave hflight hc hnone
        | ok entry =>
          obtain ⟨rootDir, name, rootText, files, -, -, -, hentry⟩ := newEntry_ok cfg s hresult
          obtain ⟨haccepts, hpath, hfree⟩ := hkeeps rfl
          have haccepts' : cfg.accepts (cfg.absolute (cfg.manifestPath c.key)) = true := haccepts
          have hkey : entry.key = c.key := by rw [hentry]; rfl
          dsimp only
          rw [if_pos haccepts']
          refine h.put rfl ?_ hkey hpath ?_ ?_
          · change Dict.put s.manifests (cfg.manifestFile entry.key) entry = _
            rw [hkey]
          · intro k hne hfile
            refine h.saved_eq_none (Dict.lookup_eq_none.mpr fun e he heq => ?_)
            subst heq
            exact hfree e he hne hfile
          · intro k e
            have hstatus : entry.status = .building := by rw [hentry]
            refine (owns_set hflight hc hin (.registered entry) rfl).trans (or_congr Iff.rfl ?_)
            refine and_congr Iff.rfl ⟨fun heq => ?_, fun heq => ?_⟩
            · cases heq
              exact ⟨rfl, hstatus⟩
            · rw [heq.1]
              rfl
    · rw [if_neg hroom]
      exact h

theorem record (h : Persisted cfg s) (hflight : InFlight cfg s) {i : ℕ} {c : BuildCall}
    (hc : s.builds[i]? = some c) (hentry : c.entry = some entry) (ok : Bool) (log : Text)
    (time : ℕ) : Persisted cfg (s.record cfg i c entry ok log time) := by
  have hown : s.Owns c.key entry := ⟨i, c, hc, rfl, hentry⟩
  obtain ⟨-, hlookup, hsaved⟩ := h.busy hown
  obtain ⟨-, hkey, hpath⟩ := saved_eq_some.mp hsaved
  unfold HeapPool.record
  dsimp only
  rw [if_pos (by rw [hlookup]; rfl)]
  generalize hrecorded : HeapEntry.mk _ _ _ _ _ _ _ _ _ _ _ = recorded
  have hkey' : recorded.key = c.key := by rw [← hrecorded, ← hkey]; rfl
  have hstatus : recorded.status ≠ .building := by
    rw [← hrecorded]
    cases ok
    · simp
    · simp
  refine h.put rfl ?_ hkey' hpath (fun k hne hfile => saved_eq_none_of_ne hsaved hne hfile) ?_
  · change Dict.put s.manifests (cfg.manifestFile recorded.key) recorded = _
    rw [hkey']
  · intro k e
    refine (owns_set hflight hc (BuildCall.inFlight_of_entry hentry) .ended rfl).trans
      (or_congr Iff.rfl (and_congr Iff.rfl ⟨fun hcontra => ?_, fun hcontra => ?_⟩))
    · cases hcontra
    · exact absurd hcontra.2 hstatus

theorem markStale (h : Persisted cfg s) (hlookup : s.entries.lookup key = some entry)
    (hready : entry.status = .ready) : Persisted cfg (s.markStale cfg entry.key entry) := by
  have hkey := h.key_of_lookup hlookup
  obtain ⟨m, hsaved⟩ := h.saved_of_lookup hlookup
  rw [hkey]
  refine h.put rfl ?_ hkey (saved_eq_some.mp hsaved).2.2
    (fun k hne hfile => saved_eq_none_of_ne hsaved hne hfile) ?_
  · change Dict.put s.manifests (cfg.manifestFile entry.key) _ = _
    rw [hkey]
  · intro k e
    constructor
    · intro hown
      refine .inl ⟨fun heq => ?_, hown⟩
      obtain ⟨hbuilding, hlookup', -⟩ := h.busy hown
      rw [heq, hlookup] at hlookup'
      cases hlookup'
      rw [hready] at hbuilding
      cases hbuilding
    · rintro (⟨-, hown⟩ | ⟨-, -, hcontra⟩)
      · exact hown
      · cases hcontra

theorem delete (h : Persisted cfg s) (hidle : ∀ c ∈ s.builds, c.key = key → c.entry = none) :
    Persisted cfg (s.delete cfg key).1 := by
  rcases delete_cases cfg s key with heq | ⟨entry, hlookup, roots, heaps, heq⟩
  · rwa [heq]
  · rw [heq]
    refine h.del rfl rfl rfl ?_ hlookup
    rintro e ⟨i, c, hc, hkey, hentry⟩
    rw [hidle c (List.mem_of_getElem? hc) hkey] at hentry
    cases hentry

theorem step (h : Persisted cfg s) (hflight : InFlight cfg s) {e : RegistryEvent}
    (hkeeps : KeepsManifests cfg s e) : Persisted cfg (s.registryStep cfg e) := by
  have hwith : ∀ {i : ℕ} {f : BuildCall → HeapPool},
      (∀ c, s.builds[i]? = some c → Persisted cfg (f c)) → Persisted cfg (s.withBuild i f) :=
    fun hf => withBuild_of h hf
  cases e with
  | delete key => exact h.delete hkeeps
  | deleteGroup taskGroup =>
    have hboth := deleteKeys_of (P := fun s' => Persisted cfg s' ∧ s'.builds = s.builds) cfg
      ((s.entries.map Prod.fst).filter fun key => key.1 = taskGroup) ⟨h, rfl⟩ ?_
    · exact hboth.1
    · rintro s' key hkey ⟨h', hbuilds⟩
      have hgroup : key.1 = taskGroup := by simpa using (List.mem_filter.mp hkey).2
      refine ⟨h'.delete fun c hc heq => ?_, ?_⟩
      · rw [hbuilds] at hc
        exact hkeeps c hc (by rw [heq, hgroup])
      · rcases delete_cases cfg s' key with heq | ⟨entry, -, roots, heaps, heq⟩
        · rw [heq, hbuilds]
        · rw [heq]
          exact hbuilds
  | pool e =>
    cases e with
    | build key sessionName builtBy =>
      simp only [registryStep, HeapPool.step, build]
      split_ifs
      · exact h
      · exact h.frame rfl rfl fun key entry => owns_append rfl rfl
    | register i => exact hwith fun c hc => h.register hflight hc hkeeps
    | spawn i =>
      refine hwith fun c hc => ?_
      unfold HeapPool.spawn
      split
      case h_1 entry hstage =>
        have hentry : c.entry = some entry := by rw [BuildCall.entry, hstage]
        have hin := BuildCall.inFlight_of_entry hentry
        refine h.frame rfl rfl fun k e => (owns_set hflight hc hin _ rfl).trans ?_
        constructor
        · rintro (⟨-, hown⟩ | ⟨rfl, heq⟩)
          · exact hown
          · exact ⟨i, c, hc, rfl, hentry.trans heq⟩
        · intro hown
          by_cases heq : k = c.key
          · exact .inr ⟨heq, hentry.symm.trans (hown.eq hflight hc hin heq.symm)⟩
          · exact .inl ⟨heq, hown⟩
      case h_2 => exact h
    | spawnFails i error =>
      refine hwith fun c hc => ?_
      unfold HeapPool.spawnFails
      split
      case h_1 entry hstage => exact h.record hflight hc (by rw [BuildCall.entry, hstage]) ..
      case h_2 => exact h
    | finish i log time =>
      refine hwith fun c hc => ?_
      unfold HeapPool.finish
      split
      case h_1 entry p hstage =>
        split
        · exact h.record hflight hc (by rw [BuildCall.entry, hstage]) ..
        · exact h
      case h_2 => exact h
    | timeOut i message =>
      refine hwith fun c hc => ?_
      unfold HeapPool.timeOut
      split
      case h_1 entry p hstage => exact h.record hflight hc (by rw [BuildCall.entry, hstage]) ..
      case h_2 => exact h
    | cancel i => exact hwith fun c hc => h.leave hflight hc (hkeeps c hc)
    | processEnds p ok =>
      simp only [registryStep, HeapPool.step, processEnds]
      (repeat' split) <;> first | exact h | exact h.frame rfl rfl fun _ _ => Iff.rfl
    | resolveForSession taskGroup heapSession project =>
      simp only [registryStep, HeapPool.step, resolveForSession]
      split
      · exact h
      case h_2 entry hselect =>
        obtain ⟨key, hin, -⟩ := mem_of_selectEntry s hselect
        have hlookup := Dict.lookup_of_mem h.nodup_entries hin
        split
        case h_4 hready =>
          split
          · exact h
          · exact h.markStale hlookup hready
        all_goals exact h
    | changeProject project dir => exact h.frame rfl rfl fun _ _ => Iff.rfl
    | changeRoot dir rootText => exact h.frame rfl rfl fun _ _ => Iff.rfl

end Persisted

/-- The registry can be read back from its manifests whenever no build is under way. -/
theorem reloads_of_keepsManifests (cfg : HeapConfig) {s : HeapPool} (hstart : Started cfg s)
    (es : List RegistryEvent)
    (hkeeps : Runs.EveryStep (HeapPool.registryStep cfg) (KeepsManifests cfg) s es) :
    Runs.EveryStep (HeapPool.registryStep cfg)
      (fun s e => (s.registryStep cfg e).Settled → (s.registryStep cfg e).Reloads cfg) s es := by
  have hstep : ∀ (s : HeapPool) (e : RegistryEvent), Persisted cfg s ∧ InFlight cfg s →
      KeepsManifests cfg s e →
      Persisted cfg (s.registryStep cfg e) ∧ InFlight cfg (s.registryStep cfg e) :=
    fun s e h hkeeps => ⟨h.1.step h.2 hkeeps, h.2.of_step (builds_step cfg s e)⟩
  exact Runs.everyStep_of_invariant hstep
    (fun s e h hkeeps hsettled => (hstep s e h hkeeps).1.reloads hsettled)
    ⟨.of_started hstart, .of_nil hstart.builds⟩ hkeeps

theorem started_sample (projects : List Text) : Started .sample (.sample projects) where
  builds := rfl
  entries := rfl
  nodup := List.nodup_nil
  own hin := by cases hin

theorem reloads_twoBuilds :
    Runs.EveryStep (HeapPool.registryStep .sample)
      (fun s e => (s.registryStep .sample e).Settled → (s.registryStep .sample e).Reloads .sample)
      (.sample ["/p".toList]) (twoBuilds ("g".toList, "/p".toList) ++ [.deleteGroup "h".toList]) :=
  reloads_of_keepsManifests .sample (started_sample _) _ (by decide)

/-- The entry of a cancelled build is being built for good. -/
theorem building_after_cancel :
    ¬ ∀ (cfg : HeapConfig) (s : HeapPool), Started cfg s → ∀ es : List RegistryEvent,
      Runs.EveryStep (HeapPool.registryStep cfg)
        (fun s e => (s.registryStep cfg e).Settled → (s.registryStep cfg e).Reloads cfg) s es := by
  intro h
  obtain ⟨-, -, -, hcancel, -⟩ := h .sample (.sample ["/p".toList]) (started_sample _)
    [.pool (.build ("g".toList, "/p".toList) none none), .pool (.register 0), .pool (.spawn 0),
      .pool (.cancel 0)]
  generalize hs : HeapPool.registryStep _ _ _ = s at hcancel
  have hsettled : s.Settled := by rw [← hs, Settled]; decide
  have hstatus : (s.entries.lookup ("g".toList, "/p".toList)).map HeapEntry.status =
      some .building := by rw [← hs]; decide
  obtain ⟨entry, hlookup, hbuilding⟩ := Option.map_eq_some_iff.mp hstatus
  exact (hcancel hsettled).1 _ entry hlookup hbuilding

end HeapPool
end IsabelleGym
