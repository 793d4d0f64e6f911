import IsabelleGym.KeptDocument
import IsabelleGym.EndFastPath

/-!
# The verdict of a proved theorem

A client takes a theorem for proved when a call succeeds, leaves no proof open
and used no `sorry`. The last flag looks at the commands behind the insertion
line for two spellings. It misses the third spelling, and what earlier calls
kept of the same proof.
-/

namespace IsabelleGym

/-- The commands that skip a proof: the two names the report looks for, and the
synonym of the first. -/
def skipProofCommands : List String := ["sorry", "oops", "\\<proof>"]

def CommandAt (I : Isabelle) (node : Node) (i : ℕ) (command : Span) (start : ℕ) : Prop :=
  (commandIterator (I.commands node) 0)[i]? = some (command, start)

section Toplevel

variable {σ : Type} (T : Toplevel σ) (I : Isabelle) (node : Node)

namespace Toplevel

def stateAt (i : ℕ) : σ := T.run node.header ((I.commands node).take i)

def ClosesProof (i : ℕ) : Prop :=
  T.isProof (T.stateAt I node i) = true ∧ T.isProof (T.stateAt I node (i + 1)) = false

/-- The command at position `i` is part of the proof that the command at position `k`
closes: the proof is open all the way between them. -/
def InProofClosedAt (i k : ℕ) : Prop :=
  T.ClosesProof I node k ∧ i ≤ k ∧ ∀ j, i < j → j ≤ k → T.isProof (T.stateAt I node j) = true

/-- The command is part of a proof that a command reaching behind the offset closes. -/
def InProofClosedBehind (offset i : ℕ) : Prop :=
  ∃ k command start, CommandAt I node k command start ∧
    offset < start + command.source.length ∧ T.InProofClosedAt I node i k

def NoSkippedProof (offset : ℕ) : Prop :=
  ∀ i command start, CommandAt I node i command start →
    T.InProofClosedBehind I node offset i → command.name ∉ skipProofCommands

/-- In the proofs closed behind the offset no command from the offset on is
`\<proof>`, and none before it skips a proof. -/
structure HonestParts (offset : ℕ) : Prop where
  chunk : ∀ i command start, CommandAt I node i command start →
    T.InProofClosedBehind I node offset i → offset ≤ start → command.name ≠ "\\<proof>"
  earlier : ∀ i command start, CommandAt I node i command start →
    T.InProofClosedBehind I node offset i → start < offset → command.name ∉ skipProofCommands

end Toplevel

variable {T I node}

theorem name_of_not_usedSorry {name : Text} {info : ThyInfo}
    (ht : ReplSession.ThyRepresented name node (some info))
    (h : nodeUsedSorry I node info.lastInsertionLine = false) {i : ℕ} {command : Span}
    {start : ℕ} (hi : CommandAt I node i command start)
    (hle : info.lastInsertionPoint ≤ start) : command.name ≠ "sorry" ∧ command.name ≠ "oops" := by
  have hline := (lastInsertionLine_le_iff ht start).mpr hle
  have hno := List.any_eq_false.mp h (command, start) (List.mem_of_getElem? hi)
  by_cases hig : command.isIgnored = true
  · rw [Span.name_of_isIgnored hig]
    exact ⟨by decide, by decide⟩
  · simpa [hline, hig] using hno

/-- Where the commands from the offset on are no `sorry` and no `oops`, the honest parts are
what is missing. -/
theorem noSkippedProof_iff {offset : ℕ}
    (hno : ∀ i command start, CommandAt I node i command start →
      offset ≤ start → command.name ≠ "sorry" ∧ command.name ≠ "oops") :
    T.NoSkippedProof I node offset ↔ T.HonestParts I node offset := by
  constructor
  · intro h
    refine ⟨fun i command start hi hin _ hname => ?_, fun i command start hi hin _ => ?_⟩
    · exact h i command start hi hin (by simp [hname, skipProofCommands])
    · exact h i command start hi hin
  · rintro ⟨hchunk, hearlier⟩ i command start hi hin
    by_cases hlt : start < offset
    · exact hearlier i command start hi hin hlt
    · have hle : offset ≤ start := Nat.le_of_not_lt hlt
      obtain ⟨hskip, hoops⟩ := hno i command start hi hle
      have hproof := hchunk i command start hi hin hle
      simp [skipProofCommands, hskip, hoops, hproof]

namespace ReplSession

variable {s : ReplSession}

def ChunkCall.Proved (I : Isabelle) (channelId : String) (s : ReplSession) (c : ChunkCall) : Prop :=
  ∃ report, (s.verifyChunk I channelId c.isarString c.run).value = some report ∧
    (chunkVerifyResponse report).success = true ∧
    (chunkVerifyResponse report).proofOpen = false ∧
    (chunkVerifyResponse report).usedSorry = false

theorem Begun.of_proved (h : s.Begun) (I : Isabelle) (channelId : String) {c : ChunkCall}
    (hp : c.Proved I channelId s) :
    let sent := (s.sendEdit I c.run.useTheories c.isarString).session
    c.step I channelId s = sent ∧
      (sent.chunkStatusReport I c.run.evaluation).usedSorry = false := by
  intro sent
  obtain ⟨report, hvalue, hsuccess, _, hskip⟩ := hp
  obtain ⟨proofOpen, pendingQed, hvalue', hsession⟩ :=
    h.verifyChunk_cases I channelId c.isarString c.inTime
  obtain rfl := Option.some.inj (hvalue.symm.trans hvalue')
  rw [chunkStatusReport_success_eq] at hsuccess
  refine ⟨?_, hskip⟩
  rw [ChunkCall.step, hsession, if_pos hsuccess]

def ChunkCall.ProofsGenuine (T : Toplevel σ) (I : Isabelle) (channelId : String) (s : ReplSession)
    (c : ChunkCall) : Prop :=
  ∀ name, s.currentThy = some name →
    T.NoSkippedProof I ((c.step I channelId s).nodes name) (s.nodes name).text.length

/-- The parts of the closed proofs that the report does not look at are honest. -/
def ChunkCall.PartsHonest (T : Toplevel σ) (I : Isabelle) (s : ReplSession) (c : ChunkCall) :
    Prop :=
  ∀ name, s.currentThy = some name →
    T.HonestParts I (c.sentNode I s name) (s.nodes name).text.length

theorem Begun.chunkStep (h : s.Begun) (I : Isabelle) (channelId : String) (c : ChunkCall) :
    (c.step I channelId s).Begun := by
  obtain ⟨_, _, _, hsession⟩ := h.verifyChunk_cases I channelId c.isarString c.inTime
  rw [ChunkCall.step, hsession]
  split_ifs
  · exact (h.sendEdit I c.run.useTheories c.isarString).1
  · exact h

theorem Begun.proofsGenuine_iff (h : s.Begun) (T : Toplevel σ) (I : Isabelle) (channelId : String)
    {c : ChunkCall} (hp : c.Proved I channelId s) :
    c.ProofsGenuine T I channelId s ↔ c.PartsHonest T I s := by
  obtain ⟨hkept, hskip⟩ := h.of_proved I channelId hp
  obtain ⟨name, info', hcur, hcur', hi', ht, hpoint⟩ :=
    h.exists_sent I c.run.useTheories c.isarString
  rw [chunkStatusReport_of_current I _ hcur' hi'] at hskip
  have hiff : T.NoSkippedProof I (c.sentNode I s name) (s.nodes name).text.length ↔
      T.HonestParts I (c.sentNode I s name) (s.nodes name).text.length := by
    refine noSkippedProof_iff fun i command start hi hle => ?_
    exact name_of_not_usedSorry ht hskip hi (by rwa [hpoint])
  have hnode : (c.step I channelId s).nodes name = c.sentNode I s name := by
    rw [hkept, ChunkCall.sentNode]
  constructor
  · intro hgen n hn
    obtain rfl : name = n := Option.some.inj (hcur.symm.trans hn)
    have hname := hgen name hcur
    rw [hnode] at hname
    exact hiff.mp hname
  · intro hhon n hn
    obtain rfl : name = n := Option.some.inj (hcur.symm.trans hn)
    rw [hnode]
    exact hiff.mpr (hhon name hcur)

/-- At every call of a run that reports a theorem as proved, the proofs it closes
are free of skipped proofs exactly when the parts the report does not look at are. -/
theorem proved_genuine_iff (T : Toplevel σ) (I : Isabelle) (channelId : String)
    (calls : List ChunkCall) (h : s.Begun) :
    Runs.EveryStep (ChunkCall.step I channelId)
      (fun s c => c.Proved I channelId s →
        (c.ProofsGenuine T I channelId s ↔ c.PartsHonest T I s)) s calls := by
  refine Runs.everyStep_of_kept h (fun s c hs => ?_) (fun s c hs hp => ?_) calls
  · exact hs.chunkStep I channelId c
  · exact hs.proofsGenuine_iff T I channelId hp

section Example

/-- A proof skipped by the second spelling of `sorry` is reported as proved. -/
theorem synonym_of_sorry_proves :
    ¬ Runs.EveryStep (ChunkCall.step OuterSyntax.isabelle "c")
      (fun s c => c.Proved OuterSyntax.isabelle "c" s →
        c.ProofsGenuine flatToplevel OuterSyntax.isabelle "c" s) mainSession
      [chunkCall "lemma True \\<proof>" finishedEvaluation] := by
  rintro ⟨hgenuine, _⟩
  have hproved : (chunkCall "lemma True \\<proof>" finishedEvaluation).Proved
      OuterSyntax.isabelle "c" mainSession := by
    refine ⟨_, rfl, ?_⟩
    decide +kernel
  refine hgenuine hproved "A".toList rfl 4 ⟨.command "\\<proof>", "\\<proof>".toList⟩ 39
    (by unfold CommandAt; decide +kernel) ⟨4, ⟨.command "\\<proof>", "\\<proof>".toList⟩, 39,
      by unfold CommandAt; decide +kernel, by decide +kernel, ⟨?_, le_refl 4, ?_⟩⟩
    (by decide)
  · unfold Toplevel.ClosesProof
    decide +kernel
  · intro j hlt hle
    omega

theorem proved_genuine_iff_lemma :
    Runs.EveryStep (ChunkCall.step OuterSyntax.isabelle "c")
      (fun s c => c.Proved OuterSyntax.isabelle "c" s →
        (c.ProofsGenuine flatToplevel OuterSyntax.isabelle "c" s ↔
          c.PartsHonest flatToplevel OuterSyntax.isabelle s)) mainSession
      [chunkCall "lemma True" finishedEvaluation, chunkCall "by simp" finishedEvaluation] :=
  proved_genuine_iff flatToplevel OuterSyntax.isabelle "c"
    [chunkCall "lemma True" finishedEvaluation, chunkCall "by simp" finishedEvaluation]
    mainSession_begun

end Example

end ReplSession
end Toplevel
end IsabelleGym
