import IsabelleGym.ThyStatus
import Mathlib.Data.List.Sort

/-!
# The session manager and its cache

The manager creates Isabelle sessions and stops them. With the cache enabled it
files a new session under its sorted initial theories, hands the first one filed
there out again, and counts who holds it. The filing evicts the keys used longest
ago. A session is not taken out of the cache when it is handed out.
-/

namespace IsabelleGym

abbrev HeadlessId := ℕ

abbrev CacheKey := List Text

structure SessionOptions where
  initialThys : List Text
  field : Text
  dirs : List Text
deriving DecidableEq

structure CacheConfig where
  enableCache : Bool
  maxCacheSize : ℤ

/-- The maps as lists in the order of insertion. A session is named by the number of sessions
created before it; `removed` lists the removals in the order they are forked. -/
structure SessionManager where
  created : List SessionOptions := []
  sessionCache : List (CacheKey × List HeadlessId) := []
  lruOrder : List (CacheKey × ℕ) := []
  sessionRefs : HeadlessId → ℕ := fun _ => 0
  evictedSessions : List HeadlessId := []
  removed : List HeadlessId := []

namespace SessionManager

/-- `put`, which keeps the place of a key that is there. -/
def put {α : Type} (key : CacheKey) (value : α) : List (CacheKey × α) → List (CacheKey × α)
  | [] => [(key, value)]
  | (k, v) :: rest => if k = key then (k, value) :: rest else (k, v) :: put key value rest

def remove {α : Type} (key : CacheKey) (m : List (CacheKey × α)) : List (CacheKey × α) :=
  m.filter (·.1 ≠ key)

def getCacheKey (initialThys : List Text) : CacheKey :=
  initialThys.insertionSort fun a b => !List.lex b a fun c d => decide (c.toNat < d.toNat)

variable (cfg : CacheConfig) (now : ℕ) (m : SessionManager)

def incrementSessionRef (id : HeadlessId) : SessionManager :=
  { m with sessionRefs := Function.update m.sessionRefs id (m.sessionRefs id + 1) }

def decrementSessionRef (id : HeadlessId) : SessionManager :=
  { m with sessionRefs := Function.update m.sessionRefs id (m.sessionRefs id - 1) }

def removeSessionAsync (id : HeadlessId) : SessionManager :=
  { m with removed := m.removed ++ [id] }

def touch (key : CacheKey) : SessionManager :=
  { m with lruOrder := put key now m.lruOrder }

def totalSessions : ℕ := m.sessionCache.foldl (fun n entry => n + entry.2.length) 0

def tryGetFromCache (key : CacheKey) : Option HeadlessId × SessionManager :=
  if !cfg.enableCache then (none, m)
  else
    match m.sessionCache.lookup key with
    | some (id :: _) => (some id, (m.touch now key).incrementSessionRef id)
    | _ => (none, m)

/-- One key of an eviction: the first session filed there is removed, held or not. -/
def evictKey (key : CacheKey) : SessionManager :=
  match m.sessionCache.lookup key with
  | some (id :: queue) =>
    { m with
      sessionCache := if queue.isEmpty then remove key m.sessionCache
        else put key queue m.sessionCache
      evictedSessions := id :: m.evictedSessions
      removed := m.removed ++ [id] }
  | _ => m

/-- The difference is that of integers, without the wrap of 32 bits next to the least one. -/
def keysToRemove : List CacheKey :=
  ((m.lruOrder.insertionSort fun a b => a.2 ≤ b.2).take
    ((m.totalSessions : ℤ) - cfg.maxCacheSize).toNat).map Prod.fst

def evictIfNeeded : SessionManager :=
  if !cfg.enableCache then m
  else if cfg.maxCacheSize < m.totalSessions then
    let keys := m.keysToRemove cfg
    let evicted := keys.foldl evictKey m
    { evicted with lruOrder := keys.foldl (fun lru key => remove key lru) evicted.lruOrder }
  else m

def putToCache (key : CacheKey) (id : HeadlessId) : SessionManager :=
  if !cfg.enableCache then m
  else
    let queue := (m.sessionCache.lookup key).getD []
    if id ∈ queue then m
    else ({ m with sessionCache := put key (queue ++ [id]) m.sessionCache }.touch now
      key).evictIfNeeded cfg

def createNewSession (options : SessionOptions) : HeadlessId × SessionManager :=
  let id := m.created.length
  (id, { m with created := m.created ++ [options] }.incrementSessionRef id)

def getSessionWithCache (options : SessionOptions) : HeadlessId × SessionManager :=
  let key := getCacheKey options.initialThys
  match m.tryGetFromCache cfg now key with
  | (some id, m) => (id, m)
  | (none, m) =>
    let (id, m) := m.createNewSession options
    (id, m.putToCache cfg now key id)

/-- `get_new_session`; sessions with directories bypass the cache. -/
def getNewSession (options : SessionOptions) : HeadlessId × SessionManager :=
  if cfg.enableCache ∧ options.dirs = [] then m.getSessionWithCache cfg now options
  else m.createNewSession options

/-- `release_session`: the last holder removes the session, unless it stays in the cache. -/
def releaseSession (id : HeadlessId) : SessionManager :=
  let m := m.decrementSessionRef id
  if 0 < m.sessionRefs id then m
  else if !cfg.enableCache || m.evictedSessions.contains id then m.removeSessionAsync id
  else m

variable {cfg} {now} {m}

theorem created_evictKey (key : CacheKey) : (m.evictKey key).created = m.created := by
  unfold evictKey
  split <;> rfl

theorem created_foldl_evictKey (keys : List CacheKey) (m : SessionManager) :
    (keys.foldl evictKey m).created = m.created := by
  induction keys generalizing m with
  | nil => rfl
  | cons key keys ih => rw [List.foldl_cons, ih, created_evictKey]

theorem created_putToCache (key : CacheKey) (id : HeadlessId) :
    (m.putToCache cfg now key id).created = m.created := by
  unfold putToCache evictIfNeeded
  dsimp only
  split_ifs
  · rfl
  · rfl
  · exact created_foldl_evictKey _ _
  · rfl

theorem created_releaseSession (id : HeadlessId) :
    (m.releaseSession cfg id).created = m.created := by
  unfold releaseSession
  dsimp only
  split_ifs <;> rfl

theorem sessionCache_releaseSession (id : HeadlessId) :
    (m.releaseSession cfg id).sessionCache = m.sessionCache := by
  unfold releaseSession
  dsimp only
  split_ifs <;> rfl

theorem lruOrder_releaseSession (id : HeadlessId) :
    (m.releaseSession cfg id).lruOrder = m.lruOrder := by
  unfold releaseSession
  dsimp only
  split_ifs <;> rfl

/-- A session filed in an empty cache stays there, or is evicted at once where the cache has no
room for it. -/
theorem putToCache_of_empty {key : CacheKey} {id : HeadlessId} (hon : cfg.enableCache = true)
    (hcache : m.sessionCache = []) (hlru : m.lruOrder = []) :
    (m.putToCache cfg now key id).sessionCache =
        (if 1 ≤ cfg.maxCacheSize then [(key, [id])] else []) ∧
      (m.putToCache cfg now key id).lruOrder =
        if 1 ≤ cfg.maxCacheSize then [(key, now)] else [] := by
  set filed : SessionManager := { m with sessionCache := [(key, [id])], lruOrder := [(key, now)] }
    with hfiled
  have hput : m.putToCache cfg now key id = filed.evictIfNeeded cfg := by
    simp [putToCache, hon, hcache, touch, hlru, put, hfiled]
  have htotal : filed.totalSessions = 1 := rfl
  by_cases hroom : 1 ≤ cfg.maxCacheSize
  · have hkeep : ¬ cfg.maxCacheSize < (filed.totalSessions : ℤ) := by
      rw [htotal]
      omega
    rw [hput, evictIfNeeded, if_neg (by simp [hon]), if_neg hkeep, if_pos hroom, if_pos hroom]
    exact ⟨rfl, rfl⟩
  · have hevict : cfg.maxCacheSize < (filed.totalSessions : ℤ) := by
      rw [htotal]
      omega
    have hkeys : filed.keysToRemove cfg = [key] := by
      obtain ⟨n, hn⟩ : ∃ n, ((filed.totalSessions : ℤ) - cfg.maxCacheSize).toNat = n + 1 := by
        rw [htotal]
        exact ⟨(-cfg.maxCacheSize).toNat, by omega⟩
      rw [keysToRemove, hn]
      simp [hfiled]
    rw [hput, evictIfNeeded, if_neg (by simp [hon]), if_pos hevict, if_neg hroom, if_neg hroom]
    dsimp only
    rw [hkeys]
    simp [evictKey, hfiled, remove]

/-- A session that is not handed out of the cache is a new one. -/
theorem getNewSession_of_miss (now : ℕ) {options : SessionOptions}
    (hmiss : cfg.enableCache = true → options.dirs = [] →
      m.sessionCache.lookup (getCacheKey options.initialThys) = none) :
    (m.getNewSession cfg now options).1 = m.created.length ∧
      (m.getNewSession cfg now options).2.created = m.created ++ [options] := by
  unfold getNewSession
  split_ifs with hcache
  · have hnone : m.tryGetFromCache cfg now (getCacheKey options.initialThys) = (none, m) := by
      simp [tryGetFromCache, hmiss hcache.1 hcache.2]
    simp only [getSessionWithCache, hnone]
    exact ⟨rfl, created_putToCache _ _⟩
  · exact ⟨rfl, rfl⟩

theorem getNewSession_of_empty (now : ℕ) (options : SessionOptions)
    (hon : cfg.enableCache = true) (hdirs : options.dirs = []) (hcache : m.sessionCache = [])
    (hlru : m.lruOrder = []) :
    (m.getNewSession cfg now options).2.sessionCache =
        (if 1 ≤ cfg.maxCacheSize then
          [(getCacheKey options.initialThys, [m.created.length])] else []) ∧
      (m.getNewSession cfg now options).2.lruOrder =
        if 1 ≤ cfg.maxCacheSize then [(getCacheKey options.initialThys, now)] else [] := by
  have hnone : m.tryGetFromCache cfg now (getCacheKey options.initialThys) = (none, m) := by
    simp [tryGetFromCache, hcache]
  rw [getNewSession, if_pos ⟨hon, hdirs⟩]
  simp only [getSessionWithCache, hnone]
  exact putToCache_of_empty hon hcache hlru

/-- A hit hands out the first session filed under the key and leaves it there. -/
theorem getNewSession_of_hit (now : ℕ) {options : SessionOptions} {id : HeadlessId}
    {queue : List HeadlessId} (hcache : cfg.enableCache = true) (hdirs : options.dirs = [])
    (hhit : m.sessionCache.lookup (getCacheKey options.initialThys) = some (id :: queue)) :
    (m.getNewSession cfg now options).1 = id ∧
      (m.getNewSession cfg now options).2.created = m.created ∧
      (m.getNewSession cfg now options).2.sessionCache = m.sessionCache := by
  simp [getNewSession, getSessionWithCache, tryGetFromCache, hcache, hdirs, hhit,
    incrementSessionRef, touch]

end SessionManager
end IsabelleGym
