import IsabelleGym.BuildVerify

/-!
# What the cache of the build verifier answers

Beside the verifier stands the request that each cached result was built for. A
hit answers what a build of the request would answer where the request passes
the checks of the build, Isabelle keeps its timeout, and the cached result is
one for the same parent.
-/

namespace IsabelleGym

open TheoryParsing Runs

abbrev Makers := Dict Digest VerifyRequest

namespace VerifyRequest

variable (env : BuildEnv) (r r₀ : VerifyRequest)

def hashed : Text := theoryHashText r.parentSession (r.dependencyKey env) r.theoryText

/-- Where a hit on what was cached for the other request is what a build answers. -/
def HitAgrees : Prop :=
  extractTheoryName r.theoryText = some r.theoryName ∧ ∃ run, env.build (r.files env) = some run ∧
    run.duration ≤ r.timeout ∧ (r.parentSession = r₀.parentSession ∨ run.exitCode = 0)

variable {env r r₀}

theorem success_resultOf (run : BuildRun) : (r.resultOf run).success = true ↔
    run.duration ≤ r.timeout ∧ run.exitCode = 0 := by
  unfold resultOf
  split_ifs with hlate
  · simp [failed, not_le.mpr hlate]
  · simp [not_lt.mp hlate]

/-- A successful result has no error. -/
theorem error_of_runBuild {result : BigStepExecuteResult} (h : r.runBuild env = some result)
    (hok : result.success = true) : result.error = none := by
  unfold runBuild at h
  split at h
  · obtain rfl := Option.some.inj h
    cases hok
  · obtain ⟨run, -, rfl⟩ := Option.map_eq_some_iff.mp h
    obtain ⟨hdur, hexit⟩ := (success_resultOf run).mp hok
    simp [resultOf, not_lt.mpr hdur, hexit]

theorem success_of_runBuild_iff :
    (∃ result, r.runBuild env = some result ∧ result.success = true) ↔
      extractTheoryName r.theoryText = some r.theoryName ∧
        ∃ run, env.build (r.files env) = some run ∧ run.duration ≤ r.timeout ∧
          run.exitCode = 0 := by
  rw [← nameError_eq_none_iff]
  unfold runBuild
  cases r.nameError with
  | some error => simp [failed]
  | none =>
    simp only [Option.map_eq_some_iff, true_and]
    constructor
    · rintro ⟨_, ⟨run, hrun, rfl⟩, hok⟩
      exact ⟨run, hrun, (success_resultOf run).mp hok⟩
    · rintro ⟨run, hrun, hdone⟩
      exact ⟨_, ⟨run, hrun, rfl⟩, (success_resultOf run).mpr hdone⟩

/-- With parents of one length the hashed text says what the parts are. -/
theorem eq_of_hashed_eq (hparent : r.parentSession = r₀.parentSession)
    (h : r.hashed env = r₀.hashed env) :
    r.dependencyKey env = r₀.dependencyKey env ∧ r.theoryText = r₀.theoryText := by
  simp only [hashed, theoryHashText, hparent, List.append_assoc] at h
  have hrest := List.append_cancel_left (List.append_cancel_left h)
  obtain ⟨hkey, htext⟩ := List.append_inj hrest
    ((r.dependencyKey env).length_hex.trans (r₀.dependencyKey env).length_hex.symm)
  exact ⟨Digest.ext hkey, List.append_cancel_left htext⟩

/-- The files are made of the name, the parent, the text and the key of the dependencies. -/
theorem files_eq (hname : r.theoryName = r₀.theoryName)
    (hparent : r.parentSession = r₀.parentSession)
    (hkey : r.dependencyKey env = r₀.dependencyKey env) (htext : r.theoryText = r₀.theoryText) :
    r.files env = r₀.files env := by
  have hsession : r.sessionName env = r₀.sessionName env := by
    unfold sessionName
    rw [hkey, htext]
  have hwritten : r.normalised env = r₀.normalised env := by
    unfold normalised
    rw [htext]
  unfold files
  rw [hname, hparent, hsession, hwritten]

/-- A request that has the key of a request that has been built succeeds exactly where a hit
agrees. -/
theorem success_iff_hitAgrees {result₀ : BigStepExecuteResult}
    (hhash : r.hashed env = r₀.hashed env) (h₀ : r₀.runBuild env = some result₀)
    (hok : result₀.success = true) :
    (∃ result, r.runBuild env = some result ∧ result.success = true) ↔ r.HitAgrees env r₀ := by
  rw [success_of_runBuild_iff]
  constructor
  · rintro ⟨hname, run, hrun, hdur, hexit⟩
    exact ⟨hname, run, hrun, hdur, Or.inr hexit⟩
  · rintro ⟨hname, run, hrun, hdur, hsame⟩
    refine ⟨hname, run, hrun, hdur, ?_⟩
    rcases hsame with hparent | hexit
    · obtain ⟨hname₀, run₀, hrun₀, -, hexit⟩ := success_of_runBuild_iff.mp ⟨result₀, h₀, hok⟩
      obtain ⟨hkey, htext⟩ := eq_of_hashed_eq hparent hhash
      rw [htext, hname₀] at hname
      have hfiles := files_eq (Option.some.inj hname).symm hparent hkey htext
      rw [hfiles, hrun₀] at hrun
      rwa [← Option.some.inj hrun]
    · exact hexit

end VerifyRequest

def BigStepExecuteResult.outcome (result : BigStepExecuteResult) : Bool × Option Text :=
  (result.success, result.error)

namespace BuildVerifier

variable (env : BuildEnv)

def recordMaker (v : BuildVerifier) (makers : Makers) : VerifyEvent → Makers
  | .finish i =>
    match v.calls[i]? with
    | some ⟨r, .building⟩ =>
      if (r.runBuild env).any BigStepExecuteResult.success then Dict.put makers (r.theoryHash env) r
      else makers
    | _ => makers
  | _ => makers

def cacheStep (x : BuildVerifier × Makers) (e : VerifyEvent) : BuildVerifier × Makers :=
  (x.1.step env e, x.1.recordMaker env x.2 e)

/-- Every answer is that of a build for the request. -/
def AnswersAsBuilt (v : BuildVerifier) : Prop :=
  ∀ c ∈ v.calls, ∀ result, c.stage = .answered result →
    result.map BigStepExecuteResult.outcome =
      (c.request.runBuild env).map BigStepExecuteResult.outcome

def looksUp (v : BuildVerifier) : VerifyEvent → Option VerifyRequest
  | .verify r => some r
  | .lock i =>
    match v.calls[i]? with
    | some ⟨r, .waiting⟩ => if (v.locks (r.theoryHash env)).isSome then none else some r
    | _ => none
  | _ => none

/-- A request that hits the cache agrees with the request that the result was built for. -/
def HitsAgree (x : BuildVerifier × Makers) (e : VerifyEvent) : Prop :=
  ∀ r ∈ x.1.looksUp env e, ∀ r₀ ∈ x.2.lookup (r.theoryHash env), r.HitAgrees env r₀

/-- SHA-256 has no collision between the key of a request that looks up the cache and those of the
cached results. -/
def NoKeyCollision (x : BuildVerifier × Makers) (e : VerifyEvent) : Prop :=
  ∀ r ∈ x.1.looksUp env e, ∀ r₀ ∈ x.2.lookup (r.theoryHash env),
    env.sha256 (r.hashed env) = env.sha256 (r₀.hashed env) → r.hashed env = r₀.hashed env

instance (x : BuildVerifier × Makers) (e : VerifyEvent) : Decidable (NoKeyCollision env x e) :=
  inferInstanceAs (Decidable (∀ r ∈ x.1.looksUp env e, ∀ r₀ ∈ x.2.lookup (r.theoryHash env), _ → _))

/-- What is cached has been built, with success, for the request beside it. -/
structure CachedAsBuilt (x : BuildVerifier × Makers) : Prop where
  answers : x.1.AnswersAsBuilt env
  maker : ∀ key result, x.1.cache.lookup key = some result →
    ∃ r₀, x.2.lookup key = some r₀ ∧ r₀.theoryHash env = key ∧ r₀.runBuild env = some result ∧
      result.success = true
  cached : ∀ key r₀, x.2.lookup key = some r₀ → (x.1.cache.lookup key).isSome

variable {env}

theorem AnswersAsBuilt.setStage {v : BuildVerifier} (h : v.AnswersAsBuilt env) (i : ℕ)
    (r : VerifyRequest) (stage : VerifyStage)
    (hstage : ∀ result, stage = .answered result →
      result.map BigStepExecuteResult.outcome =
        (r.runBuild env).map BigStepExecuteResult.outcome) :
    (v.setStage i r stage).AnswersAsBuilt env := by
  intro c hc result hanswered
  rcases List.mem_or_eq_of_mem_set hc with hold | rfl
  · exact h c hold result hanswered
  · exact hstage result hanswered

/-- What a lookup of the cache returns has the outcome of a build just where the request agrees. -/
theorem cached_outcome_iff {x : BuildVerifier × Makers} (h : CachedAsBuilt env x)
    {r r₀ : VerifyRequest} {result : BigStepExecuteResult}
    (hr₀ : x.2.lookup (r.theoryHash env) = some r₀) (hhit : x.1.cached env r = some result)
    (hhash : env.sha256 (r.hashed env) = env.sha256 (r₀.hashed env) →
      r.hashed env = r₀.hashed env) :
    (some result).map BigStepExecuteResult.outcome =
        (r.runBuild env).map BigStepExecuteResult.outcome ↔ r.HitAgrees env r₀ := by
  obtain ⟨result₀, hcache, rfl⟩ := Option.map_eq_some_iff.mp hhit
  obtain ⟨r₁, hr₁, hkey, hbuilt, hok⟩ := h.maker _ _ hcache
  obtain rfl : r₀ = r₁ := Option.some.inj (hr₀.symm.trans hr₁)
  rw [← VerifyRequest.success_iff_hitAgrees (hhash hkey.symm) hbuilt hok]
  have herror := VerifyRequest.error_of_runBuild hbuilt hok
  constructor
  · intro houtcome
    obtain ⟨result, hrun, heq⟩ := Option.map_eq_some_iff.mp houtcome.symm
    refine ⟨result, hrun, ?_⟩
    have hsuccess := congrArg Prod.fst heq
    exact hsuccess.trans hok
  · rintro ⟨result, hrun, hsuccess⟩
    rw [hrun, Option.map_some, Option.map_some]
    simp only [BigStepExecuteResult.outcome, hok, herror, hsuccess,
      VerifyRequest.error_of_runBuild hrun hsuccess]

section Steps

variable {v : BuildVerifier} {x : BuildVerifier × Makers}

theorem calls_leave (v : BuildVerifier) (i : ℕ) (r : VerifyRequest)
    (result : Option BigStepExecuteResult) :
    (v.leave env i r result).calls = v.calls.set i ⟨r, .answered result⟩ := by
  unfold leave
  cases result with
  | none => rfl
  | some result =>
    dsimp only
    split_ifs <;> rfl

theorem AnswersAsBuilt.leave (h : v.AnswersAsBuilt env) (i : ℕ) (r : VerifyRequest) :
    (v.leave env i r (r.runBuild env)).AnswersAsBuilt env := by
  intro c hc result hanswered
  rw [calls_leave] at hc
  rcases List.mem_or_eq_of_mem_set hc with hold | rfl
  · exact h c hold result hanswered
  · cases hanswered
    rfl

theorem AnswersAsBuilt.start (h : v.AnswersAsBuilt env) (i : ℕ) (r : VerifyRequest) :
    (v.start env i r).AnswersAsBuilt env := by
  unfold BuildVerifier.start
  split_ifs
  · exact h
  · exact h.leave i r
  · exact h.setStage i r .building (by simp)

theorem AnswersAsBuilt.cancel (h : v.AnswersAsBuilt env) (i : ℕ) (c : VerifyCall) :
    (v.cancel env i c).AnswersAsBuilt env := by
  have hset : (v.setStage i c.request .cancelled).AnswersAsBuilt env :=
    h.setStage i c.request .cancelled (by simp)
  unfold BuildVerifier.cancel
  split
  · exact hset
  · exact hset
  · exact hset
  · exact h
  · exact h

/-- A call that arrives is answered as built just where a hit agrees. -/
theorem verify_answers_iff (h : CachedAsBuilt env x) {r : VerifyRequest}
    (hcol : NoKeyCollision env x (.verify r)) :
    (x.1.verify env r).AnswersAsBuilt env ↔ HitsAgree env x (.verify r) := by
  constructor
  · rintro hans r' ⟨⟩ r₀ hr₀
    obtain ⟨result₀, hcache⟩ := Option.isSome_iff_exists.mp (h.cached _ _ hr₀)
    have hhit : x.1.cached env r = some { result₀ with executionTime := 0 } := by
      rw [cached, hcache]
      rfl
    rw [← cached_outcome_iff h hr₀ hhit (hcol r rfl r₀ hr₀)]
    refine hans ⟨r, .answered (some { result₀ with executionTime := 0 })⟩ ?_ _ rfl
    rw [verify, hhit]
    exact List.mem_append_right _ List.mem_cons_self
  · intro hagree c hc result hanswered
    rcases List.mem_append.mp hc with hold | hnew
    · exact h.answers c hold result hanswered
    · obtain rfl := List.mem_singleton.mp hnew
      cases hhit : x.1.cached env r with
      | none =>
        rw [hhit] at hanswered
        cases hanswered
      | some hit =>
        rw [hhit] at hanswered
        obtain rfl := VerifyStage.answered.inj hanswered
        obtain ⟨result₀, hcache, -⟩ := Option.map_eq_some_iff.mp hhit
        obtain ⟨r₀, hr₀, -⟩ := h.maker _ _ hcache
        exact (cached_outcome_iff h hr₀ hhit (hcol r rfl r₀ hr₀)).mpr (hagree r rfl r₀ hr₀)

theorem lock_answers_iff (h : CachedAsBuilt env x) {i : ℕ} {r : VerifyRequest}
    (hi : x.1.calls[i]? = some ⟨r, .waiting⟩) (hcol : NoKeyCollision env x (.lock i)) :
    (x.1.lock env i r).AnswersAsBuilt env ↔ HitsAgree env x (.lock i) := by
  cases hlock : (x.1.locks (r.theoryHash env)).isSome with
  | true =>
    rw [lock, if_pos hlock]
    refine iff_of_true h.answers ?_
    intro r' hr'
    simp [looksUp, hi, hlock] at hr'
  | false =>
    have hlooks : x.1.looksUp env (.lock i) = some r := by simp [looksUp, hi, hlock]
    rw [lock, if_neg (by simp [hlock])]
    cases hhit : x.1.cached env r with
    | none =>
      refine iff_of_true (h.answers.setStage i r .locked (by simp)) ?_
      intro r' hr' r₀ hr₀
      obtain rfl : r = r' := Option.some.inj (hlooks.symm.trans hr')
      obtain ⟨result₀, hcache⟩ := Option.isSome_iff_exists.mp (h.cached _ _ hr₀)
      simp [cached, hcache] at hhit
    | some hit =>
      obtain ⟨result₀, hcache, -⟩ := Option.map_eq_some_iff.mp hhit
      obtain ⟨r₀, hr₀, -⟩ := h.maker _ _ hcache
      have hiff := cached_outcome_iff h hr₀ hhit (hcol r hlooks r₀ hr₀)
      constructor
      · intro hans r' hr' r₁ hr₁
        obtain rfl : r = r' := Option.some.inj (hlooks.symm.trans hr')
        obtain rfl : r₀ = r₁ := Option.some.inj (hr₀.symm.trans hr₁)
        refine hiff.mp (hans ⟨r, .answered (some hit)⟩ ?_ _ rfl)
        exact List.mem_set (List.getElem?_eq_some_iff.mp hi).1 _
      · intro hagree
        refine h.answers.setStage i r _ ?_
        intro result hresult
        obtain rfl := VerifyStage.answered.inj hresult
        exact hiff.mpr (hagree r hlooks r₀ hr₀)

/-- Behind a step every answer is as built just where the hits agree. -/
theorem step_answers_iff (h : CachedAsBuilt env x) {e : VerifyEvent}
    (hcol : NoKeyCollision env x e) :
    (x.1.step env e).AnswersAsBuilt env ↔ HitsAgree env x e := by
  have hquiet : ∀ {e}, x.1.looksUp env e = none → HitsAgree env x e := by
    intro e hnone r hr
    rw [hnone] at hr
    cases hr
  cases e with
  | verify r => exact verify_answers_iff h hcol
  | lock i =>
    rw [step]
    split
    · rename_i r hi
      exact lock_answers_iff h hi hcol
    · rename_i hother
      refine iff_of_true h.answers (hquiet ?_)
      dsimp only [looksUp]
      split
      · rename_i r hi
        exact absurd hi (hother r)
      · rfl
  | start i =>
    refine iff_of_true ?_ (hquiet rfl)
    rw [step]
    split
    · exact h.answers.start i _
    · exact h.answers
  | finish i =>
    refine iff_of_true ?_ (hquiet rfl)
    rw [step]
    split
    · exact h.answers.leave i _
    · exact h.answers
  | cancel i =>
    refine iff_of_true ?_ (hquiet rfl)
    rw [step]
    cases x.1.calls[i]? with
    | none => exact h.answers
    | some c => exact h.answers.cancel i c

/-- Only a success is cached. -/
theorem cache_leave (v : BuildVerifier) (i : ℕ) (r : VerifyRequest)
    (result : Option BigStepExecuteResult) :
    (v.leave env i r result).cache =
      match result with
      | some result =>
        if result.success then Dict.put v.cache (r.theoryHash env) result else v.cache
      | none => v.cache := by
  unfold leave
  cases result with
  | none => rfl
  | some result =>
    dsimp only
    split_ifs <;> rfl

/-- What leaves before the build has not succeeded. -/
theorem cache_start (v : BuildVerifier) (i : ℕ) (r : VerifyRequest) :
    (v.start env i r).cache = v.cache := by
  unfold BuildVerifier.start
  split_ifs with _ hearly
  · rfl
  · rw [cache_leave]
    unfold VerifyRequest.runBuild
    cases herror : r.nameError with
    | some error => simp [VerifyRequest.failed]
    | none =>
      have hbuild : env.build (r.files env) = none := by simpa [herror] using hearly
      simp [hbuild]
  · rfl

theorem cache_cancel (v : BuildVerifier) (i : ℕ) (c : VerifyCall) :
    (v.cancel env i c).cache = v.cache := by
  unfold BuildVerifier.cancel
  split <;> rfl

/-- Only the end of a build changes the cache. -/
theorem cache_step_of_not_finish (v : BuildVerifier) {e : VerifyEvent} (he : ∀ i, e ≠ .finish i) :
    (v.step env e).cache = v.cache := by
  cases e with
  | verify r => rfl
  | lock i =>
    rw [step]
    split
    · unfold BuildVerifier.lock
      split_ifs
      · rfl
      · split <;> rfl
    · rfl
  | start i =>
    rw [step]
    split
    · exact cache_start v i _
    · rfl
  | finish i => exact absurd rfl (he i)
  | cancel i =>
    rw [step]
    cases v.calls[i]? with
    | none => rfl
    | some c => exact cache_cancel v i c

/-- A step of which the answers are as built keeps the invariant. -/
theorem CachedAsBuilt.cacheStep (h : CachedAsBuilt env x) {e : VerifyEvent}
    (hanswers : (x.1.step env e).AnswersAsBuilt env) : CachedAsBuilt env (cacheStep env x e) := by
  by_cases hfinish : ∃ i r, e = .finish i ∧ x.1.calls[i]? = some ⟨r, .building⟩ ∧
      ∃ result, r.runBuild env = some result ∧ result.success = true
  · obtain ⟨i, r, rfl, hi, result, hrun, hok⟩ := hfinish
    have hcache : (x.1.step env (.finish i)).cache =
        Dict.put x.1.cache (r.theoryHash env) result := by
      simp only [step, hi, BuildVerifier.finish]
      rw [cache_leave, hrun]
      exact if_pos hok
    have hmakers : x.1.recordMaker env x.2 (.finish i) = Dict.put x.2 (r.theoryHash env) r := by
      simp [recordMaker, hi, hrun, hok]
    refine ⟨hanswers, ?_, ?_⟩
    · intro key found hkey
      simp only [BuildVerifier.cacheStep, hcache, hmakers] at hkey ⊢
      by_cases heq : key = r.theoryHash env
      · subst heq
        rw [Dict.lookup_put_self] at hkey ⊢
        obtain rfl := Option.some.inj hkey
        exact ⟨r, rfl, rfl, hrun, hok⟩
      · rw [Dict.lookup_put_of_ne heq] at hkey ⊢
        exact h.maker key found hkey
    · intro key r₀ hkey
      simp only [BuildVerifier.cacheStep, hcache, hmakers] at hkey ⊢
      by_cases heq : key = r.theoryHash env
      · subst heq
        rw [Dict.lookup_put_self]
        rfl
      · rw [Dict.lookup_put_of_ne heq] at hkey ⊢
        exact h.cached key r₀ hkey
  · have hcache : (x.1.step env e).cache = x.1.cache := by
      cases e with
      | finish i =>
        rw [step]
        split
        · rename_i r hi
          rw [BuildVerifier.finish, cache_leave]
          cases hrun : r.runBuild env with
          | none => rfl
          | some result =>
            exact if_neg fun hok => hfinish ⟨i, r, rfl, hi, result, hrun, hok⟩
        · rfl
      | verify _ | lock _ | start _ | cancel _ => exact cache_step_of_not_finish x.1 (by simp)
    have hmakers : x.1.recordMaker env x.2 e = x.2 := by
      cases e with
      | finish i =>
        dsimp only [recordMaker]
        split
        · rename_i r hi
          refine if_neg ?_
          rw [Option.any_eq_true]
          rintro ⟨result, hrun, hok⟩
          exact hfinish ⟨i, r, rfl, hi, result, hrun, hok⟩
        · rfl
      | verify _ | lock _ | start _ | cancel _ => rfl
    refine ⟨hanswers, ?_, ?_⟩
    · simp only [BuildVerifier.cacheStep, hcache, hmakers]
      exact h.maker
    · simp only [BuildVerifier.cacheStep, hcache, hmakers]
      exact h.cached

end Steps

/-- In every run of a verifier that starts with an empty cache, every answer is that of a build for
its request exactly when every hit agrees. -/
theorem answersAsBuilt_iff (permits : ℕ) {es : List VerifyEvent}
    (hcol : EveryStep (cacheStep env) (NoKeyCollision env) ({ permits }, []) es) :
    EveryStep (cacheStep env) (fun x e => (x.1.step env e).AnswersAsBuilt env)
        ({ permits }, []) es ↔
      EveryStep (cacheStep env) (HitsAgree env) ({ permits }, []) es := by
  have hempty : CachedAsBuilt env ({ permits }, []) := by
    refine ⟨?_, ?_, ?_⟩
    · intro c hc
      cases hc
    · intro key result hkey
      cases hkey
    · intro key r₀ hkey
      cases hkey
  have hboth : EveryStep (cacheStep env)
        (fun x e => NoKeyCollision env x e ∧ (x.1.step env e).AnswersAsBuilt env)
        ({ permits }, []) es ↔
      EveryStep (cacheStep env) (fun x e => NoKeyCollision env x e ∧ HitsAgree env x e)
        ({ permits }, []) es :=
    everyStep_iff_of_invariant
      (fun x e h hq => h.cacheStep ((step_answers_iff h hq.1).mpr hq.2))
      (fun x e h => and_congr_right fun hno => step_answers_iff h hno) hempty
  simpa only [everyStep_and, hcol, true_and] using hboth

section Sample

def sampleEnv : BuildEnv where
  sha256 := sampleDigest
  isWord := Char.isAlphanum
  normaliseForIsabelle := some
  build _ := some { exitCode := 0, duration := 1 }

def requestAs (name : Char) : VerifyRequest where
  theoryName := [name]
  theoryText := "theory A".toList
  timeout := 5

/-- The theory is built under its own name, then a request comes under another. -/
def verifyTwice (name : Char) : List VerifyEvent :=
  [.verify (requestAs 'A'), .lock 0, .start 0, .finish 0, .verify (requestAs name)]

theorem answersAsBuilt_iff_verifyTwice :
    EveryStep (cacheStep sampleEnv) (NoKeyCollision sampleEnv) ({ permits := 1 }, [])
        (verifyTwice 'A') ∧
      (EveryStep (cacheStep sampleEnv) (fun x e => (x.1.step sampleEnv e).AnswersAsBuilt sampleEnv)
          ({ permits := 1 }, []) (verifyTwice 'A') ↔
        EveryStep (cacheStep sampleEnv) (HitsAgree sampleEnv) ({ permits := 1 }, [])
          (verifyTwice 'A')) :=
  ⟨by decide +kernel, answersAsBuilt_iff 1 (by decide +kernel)⟩

/-- The hit answers with a success where the build would have refused the name. -/
theorem hit_under_other_name :
    EveryStep (cacheStep sampleEnv) (NoKeyCollision sampleEnv) ({ permits := 1 }, [])
        (verifyTwice 'B') ∧
      ¬ EveryStep (cacheStep sampleEnv)
        (fun x e => (x.1.step sampleEnv e).AnswersAsBuilt sampleEnv) ({ permits := 1 }, [])
        (verifyTwice 'B') := by
  refine ⟨by decide +kernel, ?_⟩
  intro h
  have hhit : ((verifyTwice 'B').foldl (step sampleEnv) { permits := 1 }).calls[1]? =
      some ⟨requestAs 'B', .answered (some
        { success := true, executionTime := 0, theoryVerified := true })⟩ := by decide +kernel
  have hanswer := h.2.2.2.2.1 _ (List.mem_of_getElem? hhit) _ rfl
  have hrefused : ((requestAs 'B').runBuild sampleEnv).map (fun result => result.success) =
      some false := by decide +kernel
  have hsuccess := congrArg (Option.map Prod.fst) hanswer
  simp only [Option.map_map, Function.comp_def, BigStepExecuteResult.outcome] at hsuccess
  rw [hrefused] at hsuccess
  cases hsuccess

end Sample

end BuildVerifier

end IsabelleGym
