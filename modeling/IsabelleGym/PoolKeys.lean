import IsabelleGym.BuildVerify
import IsabelleGym.Concatenation
import IsabelleGym.ManagerSteps
import IsabelleGym.SessionLoss

/-!
# The keys of pooled sessions

A request for a session becomes theories, a field and, with a heap, a suffix of
the task group and the fingerprint of the heap. The pool looks for a session by
the hash of their text. A session keeps the key that it was created with, and
`makers` has the request that it was created for.
-/

namespace IsabelleGym

open PythonStr

structure SessionRequest where
  theories : Option (List Text) := none
  field : Option Text := none
  taskGroup : Option Text := none
  heapSession : Option Text := none
  project : Option Text := none

structure SessionConfig where
  sha256 : Text → Digest
  defaultField : Text
  defaultTaskGroup : Text
  strip_defaultField : strip defaultField = defaultField

/-- What the manager is called with, and the heap that it comes from. -/
structure SessionArgs where
  theories : List Text
  field : Option Text
  taskGroup : Text
  heap : Option HeapEntry

section Router

def isTruthy (t : Option Text) : Bool := t.any fun s => !s.isEmpty

/-- `value.lower() in {"null", "none", "default"}` -/
def isNullWord (field : Text) : Bool :=
  ["null".toList, "none".toList, "default".toList].contains (field.map Char.toLower)

def routerField (field : Option Text) : Option Text :=
  field.filter fun f => !((strip f).isEmpty || isNullWord f)

def heapTheories (entry : HeapEntry) : List Text :=
  entry.theoryFiles.map fun f => entry.sessionName ++ '.' :: (PosixPath.ofText f.path).stem

namespace SessionRequest

variable (cfg : SessionConfig) (heapCfg : HeapConfig) (heapPool : HeapPool) (r : SessionRequest)

def group : Text := if isTruthy r.taskGroup then r.taskGroup.getD [] else cfg.defaultTaskGroup

def sessionArgs : Except HeapError SessionArgs :=
  if isTruthy r.heapSession || isTruthy r.project then
    match (heapPool.resolveForSession heapCfg (r.group cfg) r.heapSession r.project).2 with
    | .error e => .error e
    | .ok entry => .ok
      { theories := sortedSet (r.theories.getD [] ++ heapTheories entry)
        field := some entry.sessionName
        taskGroup := r.group cfg
        heap := some entry }
  else .ok
    { theories := r.theories.getD []
      field := routerField r.field
      taskGroup := r.group cfg
      heap := none }

end SessionRequest

end Router

namespace SessionConfig

variable (cfg : SessionConfig)

def normalizeField : Option Text → Text
  | none => cfg.defaultField
  | some f =>
    if (strip f).isEmpty || isNullWord (strip f) then cfg.defaultField else strip f

def keyText (theories : List Text) (field extra : Option Text) : Text :=
  dependencyKeyText (cfg.normalizeField field) theories ++
    if isTruthy extra then "::".toList ++ extra.getD [] else []

def key (text : Text) : DependencyKey := String.ofList (cfg.sha256 text).hex

end SessionConfig

namespace SessionArgs

variable (cfg : SessionConfig) (a : SessionArgs)

def dependencyExtra : Option Text :=
  a.heap.map fun entry => a.taskGroup ++ ':' :: entry.fingerprint.hex

/-- What `_create_session` hashes; it has normalised the parts before. -/
def createText : Text :=
  cfg.keyText (normalizeTheories a.theories) (some (cfg.normalizeField a.field)) a.dependencyExtra

/-- What `acquire_session` hashes. -/
def acquireText : Text := cfg.keyText a.theories a.field a.dependencyExtra

/-- No separator of the key occurs in the field and the theories. -/
structure Plain : Prop where
  field : ':' ∉ cfg.normalizeField a.field
  theories : ∀ t ∈ normalizeTheories a.theories, ':' ∉ t ∧ '|' ∉ t

/-- The requests agree on the field, on the set of theories, and on having a heap, there also on the
task group and the fingerprint. -/
structure Agree (a a' : SessionArgs) : Prop where
  field : cfg.normalizeField a.field = cfg.normalizeField a'.field
  theories : ∀ t, t ∈ normalizeTheories a.theories ↔ t ∈ normalizeTheories a'.theories
  heap : a.heap.map (fun entry => (a.taskGroup, entry.fingerprint)) =
    a'.heap.map fun entry => (a'.taskGroup, entry.fingerprint)

/-- Two texts that are not the same have one hash. -/
def Collide (a a' : SessionArgs) : Prop :=
  a.createText cfg ≠ a'.acquireText cfg ∧
    cfg.sha256 (a.createText cfg) = cfg.sha256 (a'.acquireText cfg)

end SessionArgs

section Pool

structure KeyedPool (F L : Type) where
  manager : Manager F L
  makers : SessionId → Option SessionArgs := fun _ => none

/-- The requests, with the heap pool as they find it, and the other steps of the manager. -/
inductive KeyedEvent (F : Type)
  | create (sid : SessionId) (lease : Option LeaseId) (r : SessionRequest) (heapPool : HeapPool)
  | acquire (lease : LeaseId) (r : SessionRequest) (heapPool : HeapPool) (reuseDirty : Bool)
  | other (e : ManagerEvent F)

namespace KeyedPool

variable {F L : Type} (B : BackendApi F L) (cfg : SessionConfig) (heapCfg : HeapConfig)
  (s : KeyedPool F L)

def create (sid : SessionId) (lease : Option LeaseId) (a : SessionArgs) : KeyedPool F L :=
  let manager := s.manager.step B (.createSession sid lease (cfg.key (a.createText cfg)))
  { manager
    makers := if (s.manager.creations sid).isNone && (manager.creations sid).isSome then
      Function.update s.makers sid (some a) else s.makers }

/-- The step of a manager that is neither a creation nor an acquisition. -/
def isOther : ManagerEvent F → Bool
  | .createSession _ _ _ => false
  | .serve (.acquireSession _ _ _) => false
  | _ => true

def step (e : KeyedEvent F) : KeyedPool F L :=
  match e with
  | .create sid lease r heapPool =>
    match r.sessionArgs cfg heapCfg heapPool with
    | .error _ => s
    | .ok a => s.create B cfg sid lease a
  | .acquire lease r heapPool reuseDirty =>
    match r.sessionArgs cfg heapCfg heapPool with
    | .error _ => s
    | .ok a =>
      { s with
        manager := s.manager.step B
          (.serve (.acquireSession lease (cfg.key (a.acquireText cfg)) reuseDirty)) }
  | .other e => if isOther e then { s with manager := s.manager.step B e } else s

/-- The session that serves the request, with the parts of the request. -/
def Serves (e : KeyedEvent F) (a : SessionArgs) (sid : SessionId) : Prop :=
  match e with
  | .acquire lease r heapPool reuseDirty => r.sessionArgs cfg heapCfg heapPool = .ok a ∧
      Manager.touched s.manager.server
        (.acquireSession lease (cfg.key (a.acquireText cfg)) reuseDirty : Event F) = some sid
  | _ => False

/-- A request without separators is served with a session for one that it agrees with, where that
has no separators either and the hashes of the two do not collide. -/
def Isolated (e : KeyedEvent F) : Prop :=
  ∀ a sid, s.Serves cfg heapCfg e a sid → ∃ a₀, s.makers sid = some a₀ ∧
    (a₀.Plain cfg → a.Plain cfg → ¬ a₀.Collide cfg a → a₀.Agree cfg a)

end KeyedPool

end Pool

section Normalisation

variable {cfg : SessionConfig}

theorem mem_sortedSet {names : List Text} {t : Text} : t ∈ sortedSet names ↔ t ∈ names := by
  rw [sortedSet, (List.perm_insertionSort _ _).mem_iff, List.mem_dedup]

theorem mem_normalizeTheories {theories : List Text} {t : Text} :
    t ∈ normalizeTheories theories ↔ t ≠ [] ∧ ∃ u ∈ theories, strip u = t := by
  unfold normalizeTheories
  rw [mem_sortedSet, List.mem_filter, List.mem_map, and_comm]
  simp

theorem ne_nil_of_mem_normalizeTheories {theories : List Text} {t : Text}
    (h : t ∈ normalizeTheories theories) : t ≠ [] := (mem_normalizeTheories.mp h).1

/-- The theories of a session are normalised twice. -/
theorem mem_normalizeTheories_twice {theories : List Text} {t : Text} :
    t ∈ normalizeTheories (normalizeTheories theories) ↔ t ∈ normalizeTheories theories := by
  rw [mem_normalizeTheories]
  constructor
  · rintro ⟨-, u, hu, rfl⟩
    obtain ⟨-, v, -, rfl⟩ := mem_normalizeTheories.mp hu
    rwa [strip_strip]
  · intro h
    obtain ⟨hne, u, hu, rfl⟩ := mem_normalizeTheories.mp h
    exact ⟨hne, strip u, h, strip_strip u⟩

theorem normalizeField_twice (field : Option Text) :
    cfg.normalizeField (some (cfg.normalizeField field)) = cfg.normalizeField field := by
  have hdefault : cfg.normalizeField (some cfg.defaultField) = cfg.defaultField := by
    unfold SessionConfig.normalizeField
    dsimp only
    split
    · rfl
    · exact cfg.strip_defaultField
  cases field with
  | none => exact hdefault
  | some f =>
    by_cases hnull : ((strip f).isEmpty || isNullWord (strip f)) = true
    · have hf : cfg.normalizeField (some f) = cfg.defaultField := if_pos hnull
      rw [hf, hdefault]
    · have hf : cfg.normalizeField (some f) = strip f := if_neg hnull
      rw [hf]
      unfold SessionConfig.normalizeField
      dsimp only
      rw [strip_strip, if_neg hnull]

/-- Texts without the bar are what their joined text is split into. -/
theorem eq_of_intercalate_eq {l l' : List Text} (hl : ∀ t ∈ l, t ≠ [] ∧ '|' ∉ t)
    (hl' : ∀ t ∈ l', t ≠ [] ∧ '|' ∉ t)
    (h : ['|'].intercalate l = ['|'].intercalate l') : l = l' := by
  have hnil : ∀ {k : List Text}, (∀ t ∈ k, t ≠ [] ∧ '|' ∉ t) → ['|'].intercalate k = [] →
      k = [] := by
    intro k hk hempty
    cases k with
    | nil => rfl
    | cons t rest =>
      cases rest with
      | nil => exact absurd (by simpa using hempty) (hk t List.mem_cons_self).1
      | cons u rest => simp [List.intercalate, List.intersperse] at hempty
  by_cases hne : l = []
  · subst hne
    exact (hnil hl' h.symm).symm
  · have hne' : l' ≠ [] := by
      rintro rfl
      exact hne (hnil hl h)
    rw [← List.splitOn_intercalate '|' (fun t ht => (hl t ht).2) hne, h,
      List.splitOn_intercalate '|' (fun t ht => (hl' t ht).2) hne']

end Normalisation

section Keys

variable {cfg : SessionConfig}

theorem colon_not_mem_intercalate {l : List Text} (h : ∀ t ∈ l, ':' ∉ t) :
    ':' ∉ ['|'].intercalate l := by
  induction l with
  | nil => simp [List.intercalate]
  | cons t rest ih =>
    have hrest := ih fun u hu => h u (List.mem_cons_of_mem _ hu)
    have ht := h t List.mem_cons_self
    cases rest with
    | nil => simpa [List.intercalate] using ht
    | cons u rest => simpa [List.intercalate, List.intersperse, ht] using hrest

/-- Without separators in the parts the text says what they are. -/
theorem parts_of_keyText_eq {theories theories' : List Text}
    {field field' extra extra' : Option Text}
    (hfield : ':' ∉ cfg.normalizeField field) (hfield' : ':' ∉ cfg.normalizeField field')
    (htheories : ∀ t ∈ normalizeTheories theories, ':' ∉ t ∧ '|' ∉ t)
    (htheories' : ∀ t ∈ normalizeTheories theories', ':' ∉ t ∧ '|' ∉ t)
    (h : cfg.keyText theories field extra = cfg.keyText theories' field' extra') :
    cfg.normalizeField field = cfg.normalizeField field' ∧
      normalizeTheories theories = normalizeTheories theories' ∧
      (if isTruthy extra then "::".toList ++ extra.getD [] else []) =
        if isTruthy extra' then "::".toList ++ extra'.getD [] else [] := by
  have hmark : ':' ∈ "::".toList := by decide
  simp only [SessionConfig.keyText, dependencyKeyText, List.append_assoc] at h
  have hf : cfg.normalizeField field = cfg.normalizeField field' :=
    Concatenation.eq_of_append_eq hmark hfield hfield' (Or.inr (List.prefix_append _ _))
      (Or.inr (List.prefix_append _ _)) h
  rw [hf] at h
  have hrest := List.append_cancel_left (List.append_cancel_left h)
  have hsuffix : ∀ e : Option Text,
      (if isTruthy e then "::".toList ++ e.getD [] else []) = [] ∨
        "::".toList <+: if isTruthy e then "::".toList ++ e.getD [] else [] := by
    intro e
    split
    · exact Or.inr (List.prefix_append _ _)
    · exact Or.inl rfl
  have hjoined := Concatenation.eq_of_append_eq hmark
    (colon_not_mem_intercalate fun t ht => (htheories t ht).1)
    (colon_not_mem_intercalate fun t ht => (htheories' t ht).1)
    (hsuffix extra) (hsuffix extra') hrest
  rw [hjoined] at hrest
  have hlists : normalizeTheories theories = normalizeTheories theories' := by
    apply eq_of_intercalate_eq _ _ hjoined
    · exact fun t ht => ⟨ne_nil_of_mem_normalizeTheories ht, (htheories t ht).2⟩
    · exact fun t ht => ⟨ne_nil_of_mem_normalizeTheories ht, (htheories' t ht).2⟩
  exact ⟨hf, hlists, List.append_cancel_left hrest⟩

theorem isTruthy_dependencyExtra (a : SessionArgs) :
    isTruthy a.dependencyExtra = a.heap.isSome := by
  unfold SessionArgs.dependencyExtra
  cases a.heap with
  | none => rfl
  | some entry => cases a.taskGroup <;> rfl

/-- The suffix of the key has the task group and the fingerprint. -/
theorem heap_of_suffix_eq {a a' : SessionArgs}
    (h : (if isTruthy a.dependencyExtra then "::".toList ++ a.dependencyExtra.getD [] else []) =
      if isTruthy a'.dependencyExtra then "::".toList ++ a'.dependencyExtra.getD [] else []) :
    a.heap.map (fun entry => (a.taskGroup, entry.fingerprint)) =
      a'.heap.map fun entry => (a'.taskGroup, entry.fingerprint) := by
  rw [isTruthy_dependencyExtra, isTruthy_dependencyExtra] at h
  unfold SessionArgs.dependencyExtra at h
  cases hheap : a.heap with
  | none =>
    cases hheap' : a'.heap with
    | none => rfl
    | some entry' => simp [hheap, hheap'] at h
  | some entry =>
    cases hheap' : a'.heap with
    | none => simp [hheap, hheap'] at h
    | some entry' =>
      simp only [hheap, hheap', Option.isSome_some, if_true, Option.map_some, Option.getD_some] at h
      have hlength : (':' :: entry.fingerprint.hex).length =
          (':' :: entry'.fingerprint.hex).length := by
        rw [List.length_cons, List.length_cons, entry.fingerprint.length_hex,
          entry'.fingerprint.length_hex]
      obtain ⟨hgroup, hhex⟩ := List.append_inj' (List.append_cancel_left h) hlength
      have hfingerprint : entry.fingerprint = entry'.fingerprint :=
        Digest.ext (List.cons.inj hhex).2
      simp [hgroup, hfingerprint]

namespace SessionArgs

theorem agree_of_text_eq {a a' : SessionArgs} (ha : a.Plain cfg) (ha' : a'.Plain cfg)
    (h : a.createText cfg = a'.acquireText cfg) : a.Agree cfg a' := by
  have hfield : ':' ∉ cfg.normalizeField (some (cfg.normalizeField a.field)) := by
    rw [normalizeField_twice]
    exact ha.field
  have htheories : ∀ t ∈ normalizeTheories (normalizeTheories a.theories), ':' ∉ t ∧ '|' ∉ t :=
    fun t ht => ha.theories t (mem_normalizeTheories_twice.mp ht)
  obtain ⟨hf, hlists, hsuffix⟩ :=
    parts_of_keyText_eq hfield ha'.field htheories ha'.theories h
  refine ⟨?_, ?_, heap_of_suffix_eq hsuffix⟩
  · rwa [normalizeField_twice] at hf
  · intro t
    rw [← mem_normalizeTheories_twice, hlists]

/-- Requests of one key agree, or their texts collide. -/
theorem agree_of_key_eq {a a' : SessionArgs} (ha : a.Plain cfg) (ha' : a'.Plain cfg)
    (h : cfg.key (a.createText cfg) = cfg.key (a'.acquireText cfg)) (hsha : ¬ a.Collide cfg a') :
    a.Agree cfg a' := by
  have hdigest : cfg.sha256 (a.createText cfg) = cfg.sha256 (a'.acquireText cfg) :=
    Digest.ext (String.ofList_injective h)
  apply agree_of_text_eq ha ha'
  by_contra hne
  exact hsha ⟨hne, hdigest⟩

end SessionArgs

end Keys

section Runs

variable {F L : Type} {B : BackendApi F L}

/-- A session keeps the key that it was created with. -/
theorem dependencyKey_step {s : Server F L} {e : Event F} {n : SessionId} {x' : Session F L}
    (h : (s.step B e).sessions n = some x') :
    (∃ x, s.sessions n = some x ∧ x'.dependencyKey = x.dependencyKey) ∨
      ∃ lease, e = .createSession n lease x'.dependencyKey := by
  have hstep := Server.sessions_step B s e
  generalize (s.step B e).sessions = sessions' at h hstep
  cases hstep with
  | same => exact Or.inl ⟨x', h, rfl⟩
  | @create sid lease key hcreate _ =>
    by_cases hn : n = sid
    · subst hn
      rw [Function.update_self] at h
      obtain rfl := Option.some.inj h
      exact Or.inr ⟨lease, hcreate⟩
    · rw [Function.update_of_ne hn] at h
      exact Or.inl ⟨x', h, rfl⟩
  | @change sid x y hx hchange =>
    by_cases hn : n = sid
    · subst hn
      rw [Function.update_self] at h
      obtain rfl := Option.some.inj h
      refine Or.inl ⟨x, hx, ?_⟩
      cases hchange <;> rfl
    · rw [Function.update_of_ne hn] at h
      exact Or.inl ⟨x', h, rfl⟩

/-- A session of the manager has its key from its creation. -/
theorem dependencyKey_managerStep {m : Manager F L} {e : ManagerEvent F} {n : SessionId}
    {x' : Session F L} (h : (m.step B e).server.sessions n = some x') :
    (∃ x, m.server.sessions n = some x ∧ x'.dependencyKey = x.dependencyKey) ∨
      ∃ c, m.creations n = some c ∧ x'.dependencyKey = c.key := by
  have hstep := Manager.server_step B m e
  generalize (m.step B e).server = server' at h hstep
  cases hstep with
  | same => exact Or.inl ⟨x', h, rfl⟩
  | @serve e hallows =>
    rcases dependencyKey_step h with hold | ⟨lease, rfl⟩
    · exact Or.inl hold
    · simp [Manager.allows] at hallows
  | @register sid c hc _ _ =>
    rcases dependencyKey_step h with hold | ⟨lease, hcreate⟩
    · exact Or.inl hold
    · obtain ⟨rfl, -, hkey⟩ := Event.createSession.inj hcreate
      exact Or.inr ⟨c, hc, hkey.symm⟩
  | purge => exact Or.inl ⟨x', h, rfl⟩
  | shutdown => exact Or.inl ⟨x', h, rfl⟩
  | reap =>
    rcases dependencyKey_step h with hold | ⟨lease, hcreate⟩
    · exact Or.inl hold
    · cases hcreate
  | beginClose =>
    rcases dependencyKey_step h with hold | ⟨lease, hcreate⟩
    · exact Or.inl hold
    · cases hcreate

namespace KeyedPool

variable {cfg : SessionConfig} {heapCfg : HeapConfig} {s : KeyedPool F L}

/-- The key of what was created for the request. -/
def MadeFor (cfg : SessionConfig) (s : KeyedPool F L) (sid : SessionId) (key : DependencyKey) :
    Prop :=
  ∃ a, s.makers sid = some a ∧ key = cfg.key (a.createText cfg)

structure Known (cfg : SessionConfig) (s : KeyedPool F L) : Prop where
  creations : ∀ sid c, s.manager.creations sid = some c → s.MadeFor cfg sid c.key
  sessions : ∀ sid x, s.manager.server.sessions sid = some x → s.MadeFor cfg sid x.dependencyKey

/-- A step that creates nothing keeps the keys. -/
theorem Known.step (h : s.Known cfg) {e : ManagerEvent F}
    (he : ∀ sid lease key, e ≠ .createSession sid lease key) :
    Known cfg { s with manager := s.manager.step B e } where
  creations := by
    intro sid c' hc'
    rcases Manager.continues_step B s.manager e sid c' hc' with ⟨c, hc, -, hkey, -⟩ | ⟨hcreate, -⟩
    · rw [hkey]
      exact h.creations sid c hc
    · exact absurd hcreate (he sid _ _)
  sessions := by
    intro sid x' hx'
    rcases dependencyKey_managerStep hx' with ⟨x, hx, hkey⟩ | ⟨c, hc, hkey⟩
    · rw [hkey]
      exact h.sessions sid x hx
    · rw [hkey]
      exact h.creations sid c hc

theorem Known.create (h : s.Known cfg) (sid : SessionId) (lease : Option LeaseId)
    (a : SessionArgs) : (s.create B cfg sid lease a).Known cfg := by
  set key := cfg.key (a.createText cfg) with hkey
  have hcontinues := Manager.continues_step B s.manager (.createSession sid lease key)
  by_cases hnew : (s.manager.creations sid).isNone &&
      ((s.manager.step B (.createSession sid lease key)).creations sid).isSome
  · have hmakers : (s.create B cfg sid lease a).makers = Function.update s.makers sid (some a) :=
      if_pos hnew
    simp only [Bool.and_eq_true, Option.isNone_iff_eq_none] at hnew
    obtain ⟨c, hc⟩ := Option.isSome_iff_exists.mp hnew.2
    have hfree : s.manager.server.sessions sid = none := by
      rcases hcontinues sid c hc with ⟨c', hc', -⟩ | ⟨-, -, hnone, -⟩
      · rw [hnew.1] at hc'
        cases hc'
      · exact hnone
    have hother : ∀ {n : SessionId} {k : DependencyKey}, n ≠ sid → s.MadeFor cfg n k →
        (s.create B cfg sid lease a).MadeFor cfg n k := by
      rintro n k hn ⟨a', ha', hk⟩
      exact ⟨a', by rw [hmakers, Function.update_of_ne hn, ha'], hk⟩
    constructor
    · intro n c' hc'
      rcases hcontinues n c' hc' with ⟨d, hd, -, hd', -⟩ | ⟨hcreate, -⟩
      · have hn : n ≠ sid := by
          rintro rfl
          rw [hnew.1] at hd
          cases hd
        rw [hd']
        exact hother hn (h.creations n d hd)
      · obtain ⟨rfl, -, hk⟩ := ManagerEvent.createSession.inj hcreate
        exact ⟨a, by rw [hmakers, Function.update_self], hk.symm⟩
    · intro n x' hx'
      rcases dependencyKey_managerStep hx' with ⟨x, hx, hk⟩ | ⟨d, hd, hk⟩
      · have hn : n ≠ sid := by
          rintro rfl
          rw [hfree] at hx
          cases hx
        rw [hk]
        exact hother hn (h.sessions n x hx)
      · have hn : n ≠ sid := by
          rintro rfl
          rw [hnew.1] at hd
          cases hd
        rw [hk]
        exact hother hn (h.creations n d hd)
  · have hmakers : (s.create B cfg sid lease a).makers = s.makers := if_neg hnew
    have hsame : ∀ {n : SessionId} {k : DependencyKey}, s.MadeFor cfg n k →
        (s.create B cfg sid lease a).MadeFor cfg n k := by
      rintro n k ⟨a', ha', hk⟩
      exact ⟨a', by rw [hmakers, ha'], hk⟩
    constructor
    · intro n c' hc'
      rcases hcontinues n c' hc' with ⟨d, hd, -, hd', -⟩ | ⟨hcreate, hnone, -⟩
      · rw [hd']
        exact hsame (h.creations n d hd)
      · obtain ⟨rfl, -, -⟩ := ManagerEvent.createSession.inj hcreate
        refine absurd ?_ hnew
        have hsome : ((s.manager.step B (.createSession sid lease key)).creations sid).isSome :=
          Option.isSome_iff_exists.mpr ⟨c', hc'⟩
        simp [hnone, hsome]
    · intro n x' hx'
      rcases dependencyKey_managerStep hx' with ⟨x, hx, hk⟩ | ⟨d, hd, hk⟩
      · rw [hk]
        exact hsame (h.sessions n x hx)
      · rw [hk]
        exact hsame (h.creations n d hd)

theorem Known.keyedStep (h : s.Known cfg) (e : KeyedEvent F) :
    (s.step B cfg heapCfg e).Known cfg := by
  cases e with
  | create sid lease r heapPool =>
    dsimp only [KeyedPool.step]
    split
    · exact h
    · exact h.create sid lease _
  | acquire lease r heapPool reuseDirty =>
    dsimp only [KeyedPool.step]
    split
    · exact h
    · exact h.step (by simp)
  | other e =>
    dsimp only [KeyedPool.step]
    split
    · rename_i hother
      apply h.step
      rintro sid lease key rfl
      simp [isOther] at hother
    · exact h

/-- A session that may be reused has the key that is looked for. -/
theorem dependencyKey_of_findReusable {server : Server F L} {key : DependencyKey}
    {reuseDirty : Bool} {sid : SessionId} (h : server.findReusable key reuseDirty = some sid) :
    ∃ x, server.sessions sid = some x ∧ x.dependencyKey = key := by
  have hfound := List.find?_some h
  obtain ⟨x, hx, hfits⟩ := Option.any_eq_true _ _ |>.mp hfound
  simp only [Bool.and_eq_true, decide_eq_true_eq] at hfits
  exact ⟨x, hx, hfits.1.2⟩

theorem Known.isolated (h : s.Known cfg) (e : KeyedEvent F) : s.Isolated cfg heapCfg e := by
  intro a sid hserves
  cases e with
  | acquire lease r heapPool reuseDirty =>
    have htouched := hserves.2
    simp only [Manager.touched] at htouched
    split at htouched
    · cases htouched
    · obtain ⟨x, hx, hkey⟩ := dependencyKey_of_findReusable htouched
      obtain ⟨a₀, ha₀, hmade⟩ := h.sessions sid x hx
      refine ⟨a₀, ha₀, ?_⟩
      intro hplain₀ hplain hsha
      exact SessionArgs.agree_of_key_eq hplain₀ hplain (hmade.symm.trans hkey) hsha
  | _ => exact hserves.elim

/-- In every run a request without separators is served only with sessions for requests that it
agrees with, as long as the hash does not collide. -/
theorem everyStep_isolated (B : BackendApi F L) (cfg : SessionConfig) (heapCfg : HeapConfig)
    (poolSize idleTimeout maxLeaseAge : ℕ) (es : List (KeyedEvent F)) :
    Runs.EveryStep (step B cfg heapCfg) (Isolated cfg heapCfg)
      { manager := { server := { poolSize }, idleTimeout, maxLeaseAge } } es := by
  have hinitial : Known cfg ({ manager := { server := { poolSize }, idleTimeout, maxLeaseAge } } :
      KeyedPool F L) := ⟨by simp, by simp⟩
  have hkeep : ∀ (s : KeyedPool F L) (e : KeyedEvent F), s.Known cfg →
      (s.step B cfg heapCfg e).Known cfg := fun s e h => h.keyedStep e
  exact Runs.everyStep_of_kept hinitial hkeep (fun s e h => h.isolated e) es

section Example

def sampleConfig : SessionConfig where
  sha256 := sampleDigest
  defaultField := "HOL".toList
  defaultTaskGroup := "default".toList
  strip_defaultField := by decide

/-- A request is served, its session released, and another request comes. -/
def handOverEvents (r₀ r : SessionRequest) : List (KeyedEvent BackendFn) :=
  [.create 0 (some "a") r₀ {}] ++
    ([.ensureGateway (some 0), .startGateway true, .callGateway 0, .threadReturns 0, .wrap 0,
      .build 0, .register 0, .serve (.releaseSession 0 "a"), .serve .continueLeaseEnd].map
        KeyedEvent.other ++ [.acquire "b" r {} true])

/-- Without heaps a session goes from one task group to another; and a theory with a bar in its name
is taken for two. -/
theorem shared_between_requests :
    ¬ Runs.EveryStep (step Server.wordBackend sampleConfig HeapConfig.sample)
        (fun s e => ∀ a sid, s.Serves sampleConfig HeapConfig.sample e a sid →
          ∃ a₀, s.makers sid = some a₀ ∧ a₀.taskGroup = a.taskGroup)
        { manager := { server := { poolSize := 1 }, idleTimeout := 1800, maxLeaseAge := 7200 } }
        (handOverEvents { taskGroup := some "alpha".toList }
          { taskGroup := some "beta".toList }) ∧
      ¬ Runs.EveryStep (step Server.wordBackend sampleConfig HeapConfig.sample)
        (fun s e => ∀ a sid, s.Serves sampleConfig HeapConfig.sample e a sid →
          ∃ a₀, s.makers sid = some a₀ ∧
            ∀ t, t ∈ normalizeTheories a₀.theories ↔ t ∈ normalizeTheories a.theories)
        { manager := { server := { poolSize := 1 }, idleTimeout := 1800, maxLeaseAge := 7200 } }
        (handOverEvents { theories := some ["A".toList, "B".toList] }
          { theories := some ["A|B".toList] }) := by
  constructor
  · rintro ⟨_, _, _, _, _, _, _, _, _, _, hacquire, _⟩
    obtain ⟨a₀, ha₀, hgroup⟩ := hacquire
      { theories := [], field := none, taskGroup := "beta".toList, heap := none } 0
      ⟨rfl, by decide +kernel⟩
    have hmaker : Option.map SessionArgs.taskGroup (some a₀) = some "alpha".toList := by
      rw [← ha₀]
      decide +kernel
    rw [Option.map_some, hgroup] at hmaker
    exact absurd hmaker (by decide)
  · rintro ⟨_, _, _, _, _, _, _, _, _, _, hacquire, _⟩
    obtain ⟨a₀, ha₀, htheories⟩ := hacquire
      { theories := ["A|B".toList], field := none, taskGroup := "default".toList, heap := none } 0
      ⟨rfl, by decide +kernel⟩
    have hmaker : Option.map SessionArgs.theories (some a₀) = some ["A".toList, "B".toList] := by
      rw [← ha₀]
      decide +kernel
    rw [Option.map_some] at hmaker
    have hone := (htheories "A".toList).mp (by rw [Option.some.inj hmaker]; decide)
    exact absurd hone (by decide)

end Example

end KeyedPool

end Runs

end IsabelleGym
