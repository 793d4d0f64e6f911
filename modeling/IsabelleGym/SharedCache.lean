import Mathlib.Tactic.Common
import IsabelleGym.Dict
import IsabelleGym.Runs
import IsabelleGym.SessionManager

/-!
# The session manager shared by many backends

The cache is enabled. A call that finds no session in the cache creates one, and
while it does so other calls run; every other call is one step. Removals are
forked, and run later. A removed session leaves `running_sessions`. A shutdown
removes what is running, waits for the removals, and removes what is filed.
-/

namespace IsabelleGym

/-- `creating` has the calls that create a session. -/
structure SharedManager where
  manager : SessionManager := {}
  runningSessions : List HeadlessId := []
  creating : List (Option SessionOptions) := []
  serverUp : Bool := true

inductive SessionCacheEvent
  | getNewSession (options : SessionOptions) (now : ℕ)
  | created (i now : ℕ)
  | loadFails (i : ℕ)
  | releaseSession (id : HeadlessId)
  | evictIfNeeded
  | removalRuns (id : HeadlessId)
  | shutdown

namespace SharedManager

variable (maxCacheSize : ℤ) (s : SharedManager)

def cacheConfig : CacheConfig := ⟨true, maxCacheSize⟩

def hit (options : SessionOptions) (now : ℕ) : Option HeadlessId :=
  if options.dirs = [] then
    (s.manager.tryGetFromCache (cacheConfig maxCacheSize) now
      (SessionManager.getCacheKey options.initialThys)).1
  else none

/-- `get_new_session` up to the creation of a session. -/
def getNewSession (options : SessionOptions) (now : ℕ) : SharedManager :=
  if (s.hit maxCacheSize options now).isSome then
    { s with manager := (s.manager.tryGetFromCache (cacheConfig maxCacheSize) now
        (SessionManager.getCacheKey options.initialThys)).2 }
  else { s with creating := s.creating ++ [some options] }

def creates (i : ℕ) : Option SessionOptions :=
  if s.serverUp then s.creating[i]?.join else none

def endCreation (i : ℕ) : SharedManager := { s with creating := s.creating.set i none }

def start (options : SessionOptions) : SharedManager :=
  { s with
    manager := { s.manager with created := s.manager.created ++ [options] }
    runningSessions := s.runningSessions ++ [s.manager.created.length] }

/-- The rest of `get_new_session`. -/
def createNew (options : SessionOptions) (now : ℕ) : SharedManager :=
  let id := s.manager.created.length
  let m := (s.start options).manager.incrementSessionRef id
  { s.start options with
    manager := if options.dirs = [] then
      m.putToCache (cacheConfig maxCacheSize) now
        (SessionManager.getCacheKey options.initialThys) id
    else m }

def removalRuns (id : HeadlessId) : SharedManager :=
  if id ∈ s.manager.removed then
    { s with runningSessions := s.runningSessions.filter (· ≠ id) }
  else s

def cachedSessions : List HeadlessId := s.manager.sessionCache.flatMap Prod.snd

def shutdown : SharedManager :=
  { s with
    manager := { s.manager with
      removed := s.manager.removed ++ s.runningSessions ++ s.cachedSessions
      sessionCache := []
      lruOrder := [] }
    runningSessions := []
    serverUp := false }

def step (e : SessionCacheEvent) : SharedManager :=
  match e with
  | .getNewSession options now => s.getNewSession maxCacheSize options now
  | .created i now =>
    match s.creates i with
    | some options => (s.createNew maxCacheSize options now).endCreation i
    | none => s.endCreation i
  | .loadFails i =>
    match s.creates i with
    | some options => (s.start options).endCreation i
    | none => s.endCreation i
  | .releaseSession id =>
    { s with manager := s.manager.releaseSession (cacheConfig maxCacheSize) id }
  | .evictIfNeeded => { s with manager := s.manager.evictIfNeeded (cacheConfig maxCacheSize) }
  | .removalRuns id => s.removalRuns id
  | .shutdown => s.shutdown

section Handouts

def handedOut (e : SessionCacheEvent) : Option HeadlessId :=
  match e with
  | .getNewSession options now => s.hit maxCacheSize options now
  | .created i _ => (s.creates i).map fun _ => s.manager.created.length
  | _ => none

def CreatedFor (options : SessionOptions) (id : HeadlessId) : Prop :=
  ∃ o, s.manager.created[id]? = some o ∧ o.initialThys.Perm options.initialThys ∧
    o.field = options.field

/-- No session with references is removed, and none twice. What is handed out is not removed, and
what the cache hands out was created for the request. -/
structure Safe (e : SessionCacheEvent) : Prop where
  idle : ∀ id ∈ (s.step maxCacheSize e).manager.removed,
    (s.step maxCacheSize e).manager.sessionRefs id = 0
  once : (s.step maxCacheSize e).manager.removed.Nodup
  alive : ∀ id, s.handedOut maxCacheSize e = some id →
    id ∉ (s.step maxCacheSize e).manager.removed
  same : ∀ options now id, e = .getNewSession options now →
    s.hit maxCacheSize options now = some id → s.CreatedFor options id

/-- The first session filed under a key. -/
def Filed (m : SessionManager) (key : CacheKey) (id : HeadlessId) : Prop :=
  ∃ queue, m.sessionCache.lookup key = some (id :: queue)

/-- The sessions that an eviction takes have no references: where there are too many of them, the
first ones under the keys used longest ago. -/
def EvictsIdle (m : SessionManager) : Prop :=
  maxCacheSize < m.totalSessions →
    ∀ key ∈ m.keysToRemove (cacheConfig maxCacheSize), ∀ id, Filed m key id → m.sessionRefs id = 0

def filed (options : SessionOptions) (now : ℕ) : SessionManager :=
  let id := s.manager.created.length
  let key := SessionManager.getCacheKey options.initialThys
  let m := (s.start options).manager.incrementSessionRef id
  { m with
    sessionCache := SessionManager.put key ((m.sessionCache.lookup key).getD [] ++ [id])
      m.sessionCache }.touch now key

/-- A hit is for the field of the session, evictions take sessions without references, no evicted
session is released, and a shutdown finds the cache empty and what runs without references. -/
def Careful (e : SessionCacheEvent) : Prop :=
  match e with
  | .getNewSession options now => ∀ id, s.hit maxCacheSize options now = some id →
      (s.manager.created[id]?).map SessionOptions.field = some options.field
  | .created i now => ∀ options, s.creates i = some options → options.dirs = [] →
      EvictsIdle maxCacheSize (s.filed options now)
  | .releaseSession id => id ∉ s.manager.evictedSessions
  | .evictIfNeeded => EvictsIdle maxCacheSize s.manager
  | .shutdown => s.manager.sessionCache = [] ∧
      ∀ id ∈ s.runningSessions, s.manager.sessionRefs id = 0 ∧ id ∉ s.manager.removed
  | _ => True

end Handouts

end SharedManager

namespace SessionManager

section Maps

variable {α : Type} {key : CacheKey} {value : α} {m : List (CacheKey × α)}

theorem mem_fst_put {k : CacheKey} :
    k ∈ (put key value m).map Prod.fst ↔ k = key ∨ k ∈ m.map Prod.fst := by
  induction m with
  | nil => simp [put]
  | cons entry rest ih =>
    by_cases h : entry.1 = key
    · simp [put, h]
    · simp only [put, if_neg h, List.map_cons, List.mem_cons, ih]
      tauto

theorem nodup_put (h : (m.map Prod.fst).Nodup) : ((put key value m).map Prod.fst).Nodup := by
  induction m with
  | nil => simp [put]
  | cons entry rest ih =>
    rw [List.map_cons, List.nodup_cons] at h
    by_cases heq : entry.1 = key
    · simpa [put, heq] using h
    · simp only [put, if_neg heq, List.map_cons, List.nodup_cons]
      refine ⟨?_, ih h.2⟩
      intro hmem
      exact (mem_fst_put.mp hmem).elim heq h.1

theorem mem_put (h : (m.map Prod.fst).Nodup) {entry : CacheKey × α}
    (hmem : entry ∈ put key value m) : entry = (key, value) ∨ entry ∈ m ∧ entry.1 ≠ key := by
  induction m with
  | nil => exact Or.inl (by simpa [put] using hmem)
  | cons first rest ih =>
    rw [List.map_cons, List.nodup_cons] at h
    by_cases heq : first.1 = key
    · rw [put, if_pos heq] at hmem
      rcases List.mem_cons.mp hmem with rfl | hrest
      · exact Or.inl (by rw [heq])
      · refine Or.inr ⟨List.mem_cons_of_mem _ hrest, ?_⟩
        rintro rfl
        exact h.1 (heq ▸ List.mem_map_of_mem hrest)
    · rw [put, if_neg heq] at hmem
      rcases List.mem_cons.mp hmem with rfl | hrest
      · exact Or.inr ⟨List.mem_cons_self, heq⟩
      · exact (ih h.2 hrest).imp id fun hold => ⟨List.mem_cons_of_mem _ hold.1, hold.2⟩

theorem lookup_put_of_ne {k : CacheKey} (h : k ≠ key) :
    (put key value m).lookup k = m.lookup k := by
  induction m with
  | nil => simp [put, Dict.lookup_cons, h]
  | cons entry rest ih =>
    by_cases heq : entry.1 = key
    · rw [put, if_pos heq, Dict.lookup_cons, Dict.lookup_cons, if_neg (heq ▸ h), if_neg (heq ▸ h)]
    · rw [put, if_neg heq, Dict.lookup_cons, Dict.lookup_cons, ih]

theorem nodup_remove (h : (m.map Prod.fst).Nodup) : ((remove key m).map Prod.fst).Nodup :=
  Dict.nodup_del h

theorem nodup_foldl_remove (keys : List CacheKey) (h : (m.map Prod.fst).Nodup) :
    ((keys.foldl (fun lru key => remove key lru) m).map Prod.fst).Nodup := by
  induction keys generalizing m with
  | nil => exact h
  | cons key keys ih => exact ih (nodup_remove h)

end Maps

section Evictions

variable {m : SessionManager} {key : CacheKey} {id : HeadlessId}

theorem evictKey_eq {queue : List HeadlessId} (h : m.sessionCache.lookup key = some (id :: queue)) :
    m.evictKey key = { m with
      sessionCache := if queue.isEmpty then remove key m.sessionCache
        else put key queue m.sessionCache
      evictedSessions := id :: m.evictedSessions
      removed := m.removed ++ [id] } := by
  simp [evictKey, h]

theorem sessionRefs_evictKey (m : SessionManager) (key : CacheKey) :
    (m.evictKey key).sessionRefs = m.sessionRefs := by
  unfold evictKey
  split <;> rfl

theorem sessionRefs_foldl_evictKey (keys : List CacheKey) (m : SessionManager) :
    (keys.foldl evictKey m).sessionRefs = m.sessionRefs := by
  induction keys generalizing m with
  | nil => rfl
  | cons key keys ih => rw [List.foldl_cons, ih, sessionRefs_evictKey]

theorem lookup_evictKey_of_ne {k : CacheKey} (h : k ≠ key) :
    (m.evictKey key).sessionCache.lookup k = m.sessionCache.lookup k := by
  unfold evictKey
  split
  · dsimp only
    split
    · exact Dict.lookup_del_of_ne h
    · exact lookup_put_of_ne h
  · rfl

theorem removed_subset_foldl_evictKey (keys : List CacheKey) (m : SessionManager) :
    m.removed ⊆ (keys.foldl evictKey m).removed := by
  induction keys generalizing m with
  | nil => exact List.Subset.refl _
  | cons key keys ih =>
    refine List.Subset.trans ?_ (ih (m.evictKey key))
    unfold evictKey
    split
    · exact List.subset_append_left _ _
    · exact List.Subset.refl _

end Evictions

end SessionManager

namespace SharedManager

section Invariant

/-- A session filed under the key can be handed out. -/
def Available (m : SessionManager) (running : List HeadlessId) (key : CacheKey)
    (id : HeadlessId) : Prop :=
  id ∈ running ∧ id ∉ m.removed ∧
    ∃ o, m.created[id]? = some o ∧ SessionManager.getCacheKey o.initialThys = key

structure Good (m : SessionManager) (running : List HeadlessId) : Prop where
  keys : (m.sessionCache.map Prod.fst).Nodup
  lru : (m.lruOrder.map Prod.fst).Nodup
  filed : ∀ key queue, (key, queue) ∈ m.sessionCache →
    queue ≠ [] ∧ queue.Nodup ∧ ∀ id ∈ queue, Available m running key id
  once : m.removed.Nodup
  idle : ∀ id ∈ m.removed, m.sessionRefs id = 0
  evicted : ∀ id ∈ m.evictedSessions, id ∈ m.removed
  nodup : running.Nodup
  runs : ∀ id ∈ running, id < m.created.length
  early : ∀ id ∈ m.removed, id < m.created.length

variable {m : SessionManager} {running : List HeadlessId}

theorem Good.available (h : Good m running) {key : CacheKey} {id : HeadlessId}
    (hfiled : Filed m key id) : Available m running key id := by
  obtain ⟨queue, hqueue⟩ := hfiled
  exact (h.filed key _ (Dict.mem_of_lookup hqueue)).2.2 id List.mem_cons_self

/-- The eviction of a session without references. -/
theorem Good.evictKey (h : Good m running) {key : CacheKey}
    (hidle : ∀ id, Filed m key id → m.sessionRefs id = 0) : Good (m.evictKey key) running := by
  cases hlookup : m.sessionCache.lookup key with
  | none =>
    have hsame : m.evictKey key = m := by simp [SessionManager.evictKey, hlookup]
    rw [hsame]
    exact h
  | some q =>
    have hmem := Dict.mem_of_lookup hlookup
    obtain ⟨hne, hnodup, havailable⟩ := h.filed key q hmem
    cases q with
    | nil => exact absurd rfl hne
    | cons id queue =>
      rw [SessionManager.evictKey_eq hlookup]
      have hid := havailable id List.mem_cons_self
      obtain ⟨o, ho, hkey⟩ := hid.2.2
      have hentry : ∀ entry, (entry ∈ if queue.isEmpty then SessionManager.remove key m.sessionCache
          else SessionManager.put key queue m.sessionCache) →
            (entry = (key, queue) ∧ queue ≠ []) ∨ entry ∈ m.sessionCache ∧ entry.1 ≠ key := by
        intro entry hin
        split at hin
        · exact Or.inr (by simpa [SessionManager.remove] using hin)
        · rename_i hempty
          rcases SessionManager.mem_put h.keys hin with heq | hold
          · exact Or.inl ⟨heq, by simpa using hempty⟩
          · exact Or.inr hold
      have hkeep : ∀ {k : CacheKey} {x : HeadlessId}, Available m running k x → x ≠ id →
          Available { m with removed := m.removed ++ [id] } running k x := by
        rintro k x ⟨hrun, hout, hmade⟩ hx
        exact ⟨hrun, by simpa [hx] using hout, hmade⟩
      exact
        { keys := by
            dsimp only
            split
            · exact SessionManager.nodup_remove h.keys
            · exact SessionManager.nodup_put h.keys
          lru := h.lru
          filed := by
            intro k q hin
            rcases hentry (k, q) hin with ⟨heq, hqueue⟩ | ⟨hold, hk⟩
            · obtain ⟨rfl, rfl⟩ := Prod.mk.inj heq
              rw [List.nodup_cons] at hnodup
              refine ⟨hqueue, hnodup.2, ?_⟩
              intro x hx
              refine hkeep (havailable x (List.mem_cons_of_mem _ hx)) ?_
              rintro rfl
              exact hnodup.1 hx
            · obtain ⟨hq, hqnodup, hall⟩ := h.filed k q hold
              refine ⟨hq, hqnodup, ?_⟩
              intro x hx
              refine hkeep (hall x hx) ?_
              -- the session evicted was created for the other key
              rintro rfl
              obtain ⟨o', ho', hkey'⟩ := (hall x hx).2.2
              rw [ho] at ho'
              obtain rfl := Option.some.inj ho'
              exact hk (hkey'.symm.trans hkey)
          once := by
            have hdisjoint : ∀ x ∈ m.removed, x ≠ id := by
              rintro x hx rfl
              exact hid.2.1 hx
            simpa [List.nodup_append, h.once] using hdisjoint
          idle := by
            intro x hx
            rcases List.mem_append.mp hx with hold | hnew
            · exact h.idle x hold
            · rw [List.mem_singleton.mp hnew]
              exact hidle id ⟨queue, hlookup⟩
          evicted := by
            intro x hx
            rcases List.mem_cons.mp hx with rfl | hold
            · exact List.mem_append_right _ (List.mem_singleton.mpr rfl)
            · exact List.mem_append_left _ (h.evicted x hold)
          nodup := h.nodup
          runs := h.runs
          early := by
            intro x hx
            rcases List.mem_append.mp hx with hold | hnew
            · exact h.early x hold
            · rw [List.mem_singleton.mp hnew]
              exact h.runs id hid.1 }

theorem filed_evictKey {key k : CacheKey} (hne : k ≠ key) {id : HeadlessId} :
    Filed (m.evictKey key) k id ↔ Filed m k id := by
  unfold Filed
  rw [SessionManager.lookup_evictKey_of_ne hne]

theorem Good.foldl_evictKey {keys : List CacheKey} (hkeys : keys.Nodup) (h : Good m running)
    (hidle : ∀ key ∈ keys, ∀ id, Filed m key id → m.sessionRefs id = 0) :
    Good (keys.foldl SessionManager.evictKey m) running := by
  induction keys generalizing m with
  | nil => exact h
  | cons key keys ih =>
    rw [List.nodup_cons] at hkeys
    apply ih hkeys.2 (h.evictKey (hidle key List.mem_cons_self))
    intro k hk id hfiled
    have hne : k ≠ key := by
      rintro rfl
      exact hkeys.1 hk
    rw [SessionManager.sessionRefs_evictKey]
    exact hidle k (List.mem_cons_of_mem _ hk) id ((filed_evictKey hne).mp hfiled)

/-- An eviction removes the first session under each of the keys. -/
theorem Filed.mem_removed {keys : List CacheKey} {key : CacheKey} {id : HeadlessId}
    (hkey : key ∈ keys) (h : Filed m key id) :
    id ∈ (keys.foldl SessionManager.evictKey m).removed := by
  induction keys generalizing m with
  | nil => cases hkey
  | cons k keys ih =>
    by_cases hk : key = k
    · obtain ⟨queue, hqueue⟩ := h
      apply SessionManager.removed_subset_foldl_evictKey keys (m.evictKey k)
      rw [SessionManager.evictKey_eq (hk ▸ hqueue)]
      exact List.mem_append_right _ (List.mem_singleton.mpr rfl)
    · exact ih ((List.mem_cons.mp hkey).resolve_left hk) ((filed_evictKey hk).mpr h)

variable {maxCacheSize : ℤ}

theorem evictIfNeeded_eq (m : SessionManager) :
    m.evictIfNeeded (cacheConfig maxCacheSize) =
      if maxCacheSize < m.totalSessions then
        { (m.keysToRemove (cacheConfig maxCacheSize)).foldl SessionManager.evictKey m with
          lruOrder := (m.keysToRemove (cacheConfig maxCacheSize)).foldl
            (fun lru key => SessionManager.remove key lru)
            ((m.keysToRemove (cacheConfig maxCacheSize)).foldl
              SessionManager.evictKey m).lruOrder }
      else m := rfl

theorem nodup_keysToRemove (h : (m.lruOrder.map Prod.fst).Nodup) :
    (m.keysToRemove (cacheConfig maxCacheSize)).Nodup := by
  have hsorted : ((m.lruOrder.insertionSort fun a b => a.2 ≤ b.2).map Prod.fst).Nodup :=
    ((List.perm_insertionSort _ _).map Prod.fst).nodup_iff.mpr h
  exact hsorted.sublist ((List.take_sublist _ _).map Prod.fst)

theorem sessionRefs_evictIfNeeded (m : SessionManager) :
    (m.evictIfNeeded (cacheConfig maxCacheSize)).sessionRefs = m.sessionRefs := by
  rw [evictIfNeeded_eq]
  split
  · exact SessionManager.sessionRefs_foldl_evictKey _ m
  · rfl

theorem Good.evictIfNeeded (h : Good m running) (hidle : EvictsIdle maxCacheSize m) :
    Good (m.evictIfNeeded (cacheConfig maxCacheSize)) running := by
  rw [evictIfNeeded_eq]
  split
  · rename_i hfull
    have hgood := h.foldl_evictKey (nodup_keysToRemove h.lru) (hidle hfull)
    have hlru := SessionManager.nodup_foldl_remove
      (m.keysToRemove (cacheConfig maxCacheSize)) hgood.lru
    exact ⟨hgood.keys, hlru, hgood.filed, hgood.once, hgood.idle, hgood.evicted, hgood.nodup,
      hgood.runs, hgood.early⟩
  · exact h

/-- An eviction that takes a session with references removes it. -/
theorem exists_removed_of_not_evictsIdle (h : ¬ EvictsIdle maxCacheSize m) :
    ∃ id ∈ (m.evictIfNeeded (cacheConfig maxCacheSize)).removed,
      (m.evictIfNeeded (cacheConfig maxCacheSize)).sessionRefs id ≠ 0 := by
  unfold EvictsIdle at h
  push Not at h
  obtain ⟨hfull, key, hkey, id, hfiled, hrefs⟩ := h
  refine ⟨id, ?_, ?_⟩
  · rw [evictIfNeeded_eq, if_pos hfull]
    exact hfiled.mem_removed hkey
  · rwa [sessionRefs_evictIfNeeded]

theorem Good.increment (h : Good m running) {id : HeadlessId} (hout : id ∉ m.removed) :
    Good (m.incrementSessionRef id) running := by
  refine ⟨h.keys, h.lru, h.filed, h.once, ?_, h.evicted, h.nodup, h.runs, h.early⟩
  intro x hx
  have hne : x ≠ id := by
    rintro rfl
    exact hout hx
  rw [← h.idle x hx]
  exact Function.update_of_ne hne _ _

theorem Good.touch (h : Good m running) (now : ℕ) (key : CacheKey) :
    Good (m.touch now key) running :=
  ⟨h.keys, SessionManager.nodup_put h.lru, h.filed, h.once, h.idle, h.evicted, h.nodup, h.runs,
    h.early⟩

theorem Good.decrement (h : Good m running) (id : HeadlessId) :
    Good (m.decrementSessionRef id) running := by
  refine ⟨h.keys, h.lru, h.filed, h.once, ?_, h.evicted, h.nodup, h.runs, h.early⟩
  intro x hx
  have hzero := h.idle x hx
  show Function.update m.sessionRefs id (m.sessionRefs id - 1) x = 0
  by_cases hne : x = id
  · rw [hne, Function.update_self, ← hne, hzero]
  · rw [Function.update_of_ne hne, hzero]

/-- A release of a session that is not evicted removes nothing. -/
theorem Good.releaseSession (h : Good m running) {id : HeadlessId} (hid : id ∉ m.evictedSessions) :
    Good (m.releaseSession (cacheConfig maxCacheSize) id) running ∧
      (m.releaseSession (cacheConfig maxCacheSize) id).removed = m.removed := by
  have hkeep : m.releaseSession (cacheConfig maxCacheSize) id = m.decrementSessionRef id := by
    have hcontains : (m.decrementSessionRef id).evictedSessions.contains id = false := by
      simpa [SessionManager.decrementSessionRef] using hid
    unfold SessionManager.releaseSession
    simp only [hcontains]
    split <;> rfl
  rw [hkeep]
  exact ⟨h.decrement id, rfl⟩

/-- The release of an evicted session removes it again. -/
theorem Good.not_nodup_releaseSession (h : Good m running) {id : HeadlessId}
    (hid : id ∈ m.evictedSessions) :
    ¬ (m.releaseSession (cacheConfig maxCacheSize) id).removed.Nodup := by
  have hremoved := h.evicted id hid
  have hagain : (m.releaseSession (cacheConfig maxCacheSize) id).removed = m.removed ++ [id] := by
    simp [SessionManager.releaseSession, SessionManager.decrementSessionRef, hid,
      h.idle id hremoved, SessionManager.removeSessionAsync]
  rw [hagain]
  simp [List.nodup_append, hremoved]

theorem Good.start {s : SharedManager} (h : Good s.manager s.runningSessions)
    (options : SessionOptions) :
    Good (s.start options).manager (s.start options).runningSessions where
  keys := h.keys
  lru := h.lru
  filed := by
    intro key queue hin
    obtain ⟨hne, hnodup, hall⟩ := h.filed key queue hin
    refine ⟨hne, hnodup, ?_⟩
    intro id hid
    obtain ⟨hrun, hout, o, ho, hkey⟩ := hall id hid
    refine ⟨List.mem_append_left _ hrun, hout, o, ?_, hkey⟩
    show (s.manager.created ++ [options])[id]? = some o
    rw [List.getElem?_append_left (h.runs id hrun), ho]
  once := h.once
  idle := h.idle
  evicted := h.evicted
  nodup := by
    have hfresh : ∀ id ∈ s.runningSessions, id ≠ s.manager.created.length := by
      intro id hid
      exact Nat.ne_of_lt (h.runs id hid)
    simpa [SharedManager.start, List.nodup_append, h.nodup] using hfresh
  runs := by
    intro id hid
    show id < (s.manager.created ++ [options]).length
    rw [List.length_append, List.length_singleton]
    rcases List.mem_append.mp hid with hold | hnew
    · exact Nat.lt_succ_of_lt (h.runs id hold)
    · rw [List.mem_singleton.mp hnew]
      exact Nat.lt_succ_self _
  early := by
    intro id hid
    show id < (s.manager.created ++ [options]).length
    rw [List.length_append]
    exact Nat.lt_add_right _ (h.early id hid)

variable {s : SharedManager}

/-- The session that starts is in no queue and not removed. -/
theorem Good.fresh (h : Good s.manager s.runningSessions) :
    s.manager.created.length ∉ s.manager.removed ∧
      ∀ key queue, (key, queue) ∈ s.manager.sessionCache → s.manager.created.length ∉ queue := by
  constructor
  · intro hmem
    exact absurd (h.early _ hmem) (Nat.lt_irrefl _)
  · intro key queue hin hmem
    exact absurd (h.runs _ ((h.filed key queue hin).2.2 _ hmem).1) (Nat.lt_irrefl _)

theorem getD_lookup_cases {m : List (CacheKey × List HeadlessId)} (key : CacheKey) :
    (key, (m.lookup key).getD []) ∈ m ∨ (m.lookup key).getD [] = [] := by
  cases hlookup : m.lookup key with
  | none => exact Or.inr rfl
  | some queue => exact Or.inl (Dict.mem_of_lookup hlookup)

theorem Good.filedNew (h : Good s.manager s.runningSessions) (options : SessionOptions)
    (now : ℕ) : Good (s.filed options now) (s.start options).runningSessions := by
  have hstart := (h.start options).increment h.fresh.1
  set key := SessionManager.getCacheKey options.initialThys with hkey
  set queue := (s.manager.sessionCache.lookup key).getD [] with hqueue
  have hold : queue.Nodup ∧ s.manager.created.length ∉ queue ∧
      ∀ id ∈ queue, Available ((s.start options).manager.incrementSessionRef
        s.manager.created.length) (s.start options).runningSessions key id := by
    rcases getD_lookup_cases (m := s.manager.sessionCache) key with hin | hnil
    · obtain ⟨-, hnodup, hall⟩ := hstart.filed key queue hin
      exact ⟨hnodup, h.fresh.2 key queue hin, hall⟩
    · rw [← hqueue] at hnil
      simp [hnil]
  have hnew : Available ((s.start options).manager.incrementSessionRef s.manager.created.length)
      (s.start options).runningSessions key s.manager.created.length := by
    refine ⟨List.mem_append_right _ (List.mem_singleton.mpr rfl), h.fresh.1, options, ?_, rfl⟩
    show (s.manager.created ++ [options])[s.manager.created.length]? = some options
    simp
  refine Good.touch (m := { (s.start options).manager.incrementSessionRef
    s.manager.created.length with
      sessionCache := SessionManager.put key (queue ++ [s.manager.created.length])
        s.manager.sessionCache }) ?_ now key
  refine ⟨SessionManager.nodup_put h.keys, hstart.lru, ?_, hstart.once, hstart.idle,
    hstart.evicted, hstart.nodup, hstart.runs, hstart.early⟩
  intro k q hin
  rcases SessionManager.mem_put h.keys hin with heq | ⟨hrest, -⟩
  · obtain ⟨rfl, rfl⟩ := Prod.mk.inj heq
    refine ⟨by simp, ?_, ?_⟩
    · rw [List.nodup_append]
      refine ⟨hold.1, List.nodup_singleton _, ?_⟩
      rintro x hx y hy rfl
      exact hold.2.1 (List.mem_singleton.mp hy ▸ hx)
    · intro id hid
      rcases List.mem_append.mp hid with hmem | hmem
      · exact hold.2.2 id hmem
      · rw [List.mem_singleton.mp hmem]
        exact hnew
  · exact hstart.filed k q hrest

theorem createNew_manager (h : Good s.manager s.runningSessions) (options : SessionOptions)
    (now : ℕ) : (s.createNew maxCacheSize options now).manager =
      if options.dirs = [] then (s.filed options now).evictIfNeeded (cacheConfig maxCacheSize)
      else (s.start options).manager.incrementSessionRef s.manager.created.length := by
  unfold SharedManager.createNew
  dsimp only
  by_cases hdirs : options.dirs = []
  · rw [if_pos hdirs, if_pos hdirs]
    have hout : s.manager.created.length ∉ (s.manager.sessionCache.lookup
        (SessionManager.getCacheKey options.initialThys)).getD [] := by
      rcases getD_lookup_cases (m := s.manager.sessionCache)
          (SessionManager.getCacheKey options.initialThys) with hin | hnil
      · exact h.fresh.2 _ _ hin
      · simp [hnil]
    unfold SessionManager.putToCache
    exact if_neg hout
  · rw [if_neg hdirs, if_neg hdirs]

theorem sessionRefs_createNew (h : Good s.manager s.runningSessions) (options : SessionOptions)
    (now : ℕ) : (s.createNew maxCacheSize options now).manager.sessionRefs
      s.manager.created.length ≠ 0 := by
  have hcount : (s.filed options now).sessionRefs s.manager.created.length ≠ 0 := by
    simp [SharedManager.filed, SessionManager.touch, SessionManager.incrementSessionRef]
  rw [createNew_manager h]
  split
  · rwa [sessionRefs_evictIfNeeded]
  · simp [SessionManager.incrementSessionRef]

theorem Good.createNew (h : Good s.manager s.runningSessions) {options : SessionOptions} {now : ℕ}
    (hidle : options.dirs = [] → EvictsIdle maxCacheSize (s.filed options now)) :
    Good (s.createNew maxCacheSize options now).manager
      (s.createNew maxCacheSize options now).runningSessions := by
  rw [createNew_manager h]
  split
  · rename_i hdirs
    exact (h.filedNew options now).evictIfNeeded (hidle hdirs)
  · exact (h.start options).increment h.fresh.1

theorem Good.removalRuns (h : Good s.manager s.runningSessions) (id : HeadlessId) :
    Good (s.removalRuns id).manager (s.removalRuns id).runningSessions := by
  unfold SharedManager.removalRuns
  split
  · rename_i hid
    refine ⟨h.keys, h.lru, ?_, h.once, h.idle, h.evicted, h.nodup.filter _,
      fun x hx => h.runs x (List.mem_of_mem_filter hx), h.early⟩
    intro key queue hin
    obtain ⟨hne, hnodup, hall⟩ := h.filed key queue hin
    refine ⟨hne, hnodup, ?_⟩
    intro x hx
    obtain ⟨hrun, hout, hmade⟩ := hall x hx
    refine ⟨List.mem_filter.mpr ⟨hrun, ?_⟩, hout, hmade⟩
    have hneq : x ≠ id := by
      rintro rfl
      exact hout hid
    simpa using hneq
  · exact h

theorem Good.shutdown (h : Good s.manager s.runningSessions) (hcache : s.manager.sessionCache = [])
    (hidle : ∀ id ∈ s.runningSessions, s.manager.sessionRefs id = 0 ∧ id ∉ s.manager.removed) :
    Good s.shutdown.manager s.shutdown.runningSessions := by
  have hremoved : s.shutdown.manager.removed = s.manager.removed ++ s.runningSessions := by
    simp [SharedManager.shutdown, SharedManager.cachedSessions, hcache]
  exact
    { keys := List.nodup_nil
      lru := List.nodup_nil
      filed := by simp [SharedManager.shutdown]
      once := by
        rw [hremoved, List.nodup_append]
        refine ⟨h.once, h.nodup, ?_⟩
        rintro x hx y hy rfl
        exact (hidle x hy).2 hx
      idle := by
        intro id hid
        rw [hremoved] at hid
        exact (List.mem_append.mp hid).elim (h.idle id) fun hmem => (hidle id hmem).1
      evicted := by
        intro id hid
        rw [hremoved]
        exact List.mem_append_left _ (h.evicted id hid)
      nodup := List.nodup_nil
      runs := by simp [SharedManager.shutdown]
      early := by
        intro id hid
        rw [hremoved] at hid
        exact (List.mem_append.mp hid).elim (h.early id) (h.runs id) }

end Invariant

section Steps

variable {maxCacheSize : ℤ} {s : SharedManager}

theorem tryGetFromCache_of_filed {m : SessionManager} {key : CacheKey} {id : HeadlessId}
    (h : Filed m key id) (now : ℕ) :
    m.tryGetFromCache (cacheConfig maxCacheSize) now key =
      (some id, (m.touch now key).incrementSessionRef id) := by
  obtain ⟨queue, hqueue⟩ := h
  simp [SessionManager.tryGetFromCache, cacheConfig, hqueue]

theorem hit_eq_some {options : SessionOptions} {now : ℕ} {id : HeadlessId} :
    s.hit maxCacheSize options now = some id ↔
      options.dirs = [] ∧
        Filed s.manager (SessionManager.getCacheKey options.initialThys) id := by
  unfold hit
  split
  · rename_i hdirs
    unfold SessionManager.tryGetFromCache Filed
    simp only [cacheConfig, Bool.not_true, Bool.false_eq_true, if_false]
    split
    · rename_i first queue hlookup
      simp [hdirs, hlookup]
    · rename_i hnone
      simp only [hdirs, true_and, reduceCtorEq, false_iff]
      rintro ⟨queue, hqueue⟩
      exact hnone id queue hqueue
  · rename_i hdirs
    simp [hdirs]

theorem getNewSession_of_hit {options : SessionOptions} {now : ℕ} {id : HeadlessId}
    (h : s.hit maxCacheSize options now = some id) :
    s.getNewSession maxCacheSize options now = { s with
      manager := (s.manager.touch now
        (SessionManager.getCacheKey options.initialThys)).incrementSessionRef id } := by
  have hfiled := (hit_eq_some.mp h).2
  rw [getNewSession, if_pos (by rw [h]; rfl), tryGetFromCache_of_filed hfiled]

theorem Good.getNewSession (h : Good s.manager s.runningSessions) (options : SessionOptions)
    (now : ℕ) : Good (s.getNewSession maxCacheSize options now).manager
      (s.getNewSession maxCacheSize options now).runningSessions := by
  cases hhit : s.hit maxCacheSize options now with
  | none =>
    rw [SharedManager.getNewSession, if_neg (by simp [hhit])]
    exact h
  | some id =>
    rw [getNewSession_of_hit hhit]
    have havailable := h.available (hit_eq_some.mp hhit).2
    exact (h.touch now _).increment havailable.2.1

theorem Good.step (h : Good s.manager s.runningSessions) {e : SessionCacheEvent}
    (hcareful : s.Careful maxCacheSize e) :
    Good (s.step maxCacheSize e).manager (s.step maxCacheSize e).runningSessions := by
  cases e with
  | getNewSession options now => exact h.getNewSession options now
  | created i now =>
    dsimp only [SharedManager.step]
    split
    · rename_i options hcreates
      exact h.createNew (hcareful options hcreates)
    · exact h
  | loadFails i =>
    dsimp only [SharedManager.step]
    split
    · exact h.start _
    · exact h
  | releaseSession id => exact (h.releaseSession hcareful).1
  | evictIfNeeded => exact h.evictIfNeeded hcareful
  | removalRuns id => exact h.removalRuns id
  | shutdown => exact h.shutdown hcareful.1 hcareful.2

/-- What a call returns has a reference. -/
theorem Good.sessionRefs_handedOut (h : Good s.manager s.runningSessions) {e : SessionCacheEvent}
    {id : HeadlessId} (hid : s.handedOut maxCacheSize e = some id) :
    (s.step maxCacheSize e).manager.sessionRefs id ≠ 0 := by
  cases e with
  | getNewSession options now =>
    show (s.getNewSession maxCacheSize options now).manager.sessionRefs id ≠ 0
    rw [getNewSession_of_hit hid]
    simp [SessionManager.incrementSessionRef]
  | created i now =>
    obtain ⟨options, hcreates, rfl⟩ := Option.map_eq_some_iff.mp hid
    have hstep : s.step maxCacheSize (.created i now) =
        (s.createNew maxCacheSize options now).endCreation i := by
      simp only [SharedManager.step, hcreates]
    rw [hstep]
    exact sessionRefs_createNew h options now
  | _ => cases hid

theorem perm_of_getCacheKey {xs ys : List Text}
    (h : SessionManager.getCacheKey xs = SessionManager.getCacheKey ys) : xs.Perm ys := by
  have hxs : (SessionManager.getCacheKey xs).Perm xs := List.perm_insertionSort _ _
  have hys : (SessionManager.getCacheKey ys).Perm ys := List.perm_insertionSort _ _
  exact hxs.symm.trans (h ▸ hys)

theorem Good.safe (h : Good s.manager s.runningSessions) {e : SessionCacheEvent}
    (hcareful : s.Careful maxCacheSize e) : s.Safe maxCacheSize e where
  idle := (h.step hcareful).idle
  once := (h.step hcareful).once
  alive := by
    intro id hid hmem
    exact h.sessionRefs_handedOut hid ((h.step hcareful).idle id hmem)
  same := by
    rintro options now id rfl hhit
    obtain ⟨-, -, o, ho, hkey⟩ := h.available (hit_eq_some.mp hhit).2
    have hfield := hcareful id hhit
    rw [ho] at hfield
    exact ⟨o, ho, perm_of_getCacheKey hkey, Option.some.inj hfield⟩

theorem Good.not_safe (h : Good s.manager s.runningSessions) {e : SessionCacheEvent}
    (hcareless : ¬ s.Careful maxCacheSize e) : ¬ s.Safe maxCacheSize e := by
  intro hsafe
  cases e with
  | getNewSession options now =>
    apply hcareless
    intro id hhit
    obtain ⟨o, ho, -, hfield⟩ := hsafe.same options now id rfl hhit
    rw [ho, Option.map_some, hfield]
  | created i now =>
    apply hcareless
    intro options hcreates hdirs
    by_contra hbusy
    obtain ⟨id, hid, hrefs⟩ := exists_removed_of_not_evictsIdle hbusy
    have hstep : (s.step maxCacheSize (.created i now)).manager =
        (s.filed options now).evictIfNeeded (cacheConfig maxCacheSize) := by
      simp only [SharedManager.step, hcreates]
      exact (createNew_manager h options now).trans (if_pos hdirs)
    apply hrefs
    rw [← hstep] at hid ⊢
    exact hsafe.idle id hid
  | releaseSession id =>
    apply hcareless
    intro hid
    exact h.not_nodup_releaseSession hid hsafe.once
  | evictIfNeeded =>
    apply hcareless
    by_contra hbusy
    obtain ⟨id, hid, hrefs⟩ := exists_removed_of_not_evictsIdle hbusy
    exact hrefs (hsafe.idle id hid)
  | shutdown =>
    have hremoved : (s.step maxCacheSize .shutdown).manager.removed =
        s.manager.removed ++ s.runningSessions ++ s.cachedSessions := rfl
    have hidle := hsafe.idle
    have honce := hsafe.once
    rw [hremoved] at hidle honce
    rw [List.nodup_append, List.nodup_append] at honce
    obtain ⟨⟨-, -, hrunning⟩, -, hcached⟩ := honce
    apply hcareless
    refine ⟨?_, ?_⟩
    · -- what is filed is running, and removed as such
      apply List.eq_nil_iff_forall_not_mem.mpr
      rintro ⟨key, queue⟩ hin
      obtain ⟨hne, -, hall⟩ := h.filed key queue hin
      obtain ⟨id, hid⟩ := List.exists_mem_of_ne_nil queue hne
      have hmem : id ∈ s.cachedSessions := List.mem_flatMap.mpr ⟨(key, queue), hin, hid⟩
      exact hcached id (List.mem_append_right _ (hall id hid).1) id hmem rfl
    · intro id hid
      refine ⟨hidle id (List.mem_append_left _ (List.mem_append_right _ hid)), ?_⟩
      intro hold
      exact hrunning id hold id hid rfl
  | _ => exact hcareless trivial

end Steps

theorem good_initial : Good ({} : SharedManager).manager ({} : SharedManager).runningSessions where
  keys := List.nodup_nil
  lru := List.nodup_nil
  filed := by simp
  once := List.nodup_nil
  idle := by simp
  evicted := by simp
  nodup := List.nodup_nil
  runs := by simp
  early := by simp

/-- For every size of the cache, a run is safe at every step exactly when every step is careful. -/
theorem safe_iff_careful (maxCacheSize : ℤ) (es : List SessionCacheEvent) :
    Runs.EveryStep (step maxCacheSize) (Safe maxCacheSize) {} es ↔
      Runs.EveryStep (step maxCacheSize) (Careful maxCacheSize) {} es := by
  have hkeep : ∀ (s : SharedManager) (e : SessionCacheEvent), Good s.manager s.runningSessions →
      s.Careful maxCacheSize e →
        Good (s.step maxCacheSize e).manager (s.step maxCacheSize e).runningSessions :=
    fun s e h hcareful => h.step hcareful
  apply Runs.everyStep_iff_of_invariant hkeep _ good_initial
  intro s e h
  constructor
  · intro hsafe
    by_contra hcareless
    exact h.not_safe hcareless hsafe
  · exact h.safe

/-- With room for one session the second backend evicts the session of the first one. -/
theorem second_backend_evicts_first : ¬ Runs.EveryStep (step 1) (Safe 1) {}
    [.getNewSession ⟨["A".toList], "HOL".toList, []⟩ 0, .created 0 0,
      .getNewSession ⟨["B".toList], "HOL".toList, []⟩ 1, .created 1 1] := by
  intro h
  have hidle := h.2.2.2.1.idle 0
  revert hidle
  decide

end SharedManager

end IsabelleGym
