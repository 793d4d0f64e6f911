import IsabelleGym.Runs
import IsabelleGym.ThyStatus

/-!
# The reply channels of the probes

Every backend of the gateway has a channel of its own, with one queue for each
kind of probe that holds one reply. A waiting call clears its queue, inserts its
probe and polls. A reply carries the channel but not the probe it answers, and
comes whenever its evaluation gets to it.
-/

namespace IsabelleGym
namespace MlChannels

open Runs

inductive Kind
  | subgoals | localFacts | globalFacts | sledgehammer | inProof
deriving DecidableEq

/-- A reply, and which of the inserted probes it is the reply of. -/
structure Message where
  probe : ℕ
  reply : List Text
deriving DecidableEq

/-- A waiting call on a channel: its queue, by kind and generation, and its probe once that is
inserted. -/
structure Waiting where
  kind : Kind
  generation : ℕ
  probe : Option ℕ := none
deriving DecidableEq

structure Returned where
  probe : Option ℕ
  message : Message
deriving DecidableEq

/-- The queues, where clearing a channel leads to a new generation of them, the inserted probes,
the call that each backend is waiting in, and the values sent and returned so far. -/
structure State where
  generation : Text → ℕ := fun _ => 0
  queue : Kind → Text → ℕ → Option Message := fun _ _ _ => none
  probes : List (Kind × Text) := []
  calls : Text → Option Waiting := fun _ => none
  sent : List Message := []
  returned : List Returned := []

inductive Event
  | beginWait (kind : Kind) (channel : Text)
  | insertProbe (channel : Text)
  | insertFails (channel : Text)
  | reply (probe : ℕ) (text : List Text)
  | poll (channel : Text)
  | timeOut (channel : Text)
  | clearChannel (channel : Text)

def defaultChannel : Text := "__default__".toList

def tag : Text := "CH:".toList

def extractChannel (msgs : List Text) : Text × List Text :=
  match msgs with
  | head :: tail =>
    if tag.isPrefixOf head then (head.drop tag.length, tail) else (defaultChannel, msgs)
  | [] => (defaultChannel, msgs)

/-- What the tagged senders of the ML side send. -/
def tagged (channel : Text) (text : List Text) : List Text := (tag ++ channel) :: text

theorem extractChannel_tagged (channel : Text) (text : List Text) :
    extractChannel (tagged channel text) = (channel, text) := by
  simp [extractChannel, tagged]

namespace State

variable (s : State)

def setQueue (kind : Kind) (channel : Text) (generation : ℕ) (m : Option Message) : State :=
  { s with queue := fun k c g =>
      if k = kind ∧ c = channel ∧ g = generation then m else s.queue k c g }

/-- `offer_reply`, which drops the reply when the queue is full. -/
def offerReply (kind : Kind) (channel : Text) (m : Message) : State :=
  match s.queue kind channel (s.generation channel) with
  | some _ => s
  | none => s.setQueue kind channel (s.generation channel) (some m)

/-- The callback of the ML side for a reply of the given probe. -/
def receive (kind : Kind) (probe : ℕ) (msgs : List Text) : State :=
  let (channel, reply) := extractChannel msgs
  { s with sent := ⟨probe, reply⟩ :: s.sent }.offerReply kind channel ⟨probe, reply⟩

def setCall (channel : Text) (call : Option Waiting) : State :=
  { s with calls := Function.update s.calls channel call }

def withCall (channel : Text) (f : Waiting → State) : State :=
  ((s.calls channel).map f).getD s

def step : Event → State
  | .beginWait kind channel =>
    match s.calls channel with
    | some _ => s
    | none =>
      (s.setQueue kind channel (s.generation channel) none).setCall channel
        (some ⟨kind, s.generation channel, none⟩)
  | .insertProbe channel => s.withCall channel fun call =>
    match call.probe with
    | some _ => s
    | none =>
      { s with probes := s.probes ++ [(call.kind, channel)] }.setCall channel
        (some { call with probe := some s.probes.length })
  | .insertFails channel => s.withCall channel fun call =>
    if call.probe.isNone then s.setCall channel none else s
  | .reply probe text =>
    match s.probes[probe]? with
    | some (kind, channel) => s.receive kind probe (tagged channel text)
    | none => s
  | .poll channel => s.withCall channel fun call =>
    match call.probe, s.queue call.kind channel call.generation with
    | some probe, some m =>
      { (s.setQueue call.kind channel call.generation none).setCall channel none with
        returned := ⟨some probe, m⟩ :: s.returned }
    | _, _ => s
  | .timeOut channel => s.withCall channel fun call =>
    match call.probe, s.queue call.kind channel call.generation with
    | some _, none => s.setCall channel none
    | _, _ => s
  | .clearChannel channel =>
    { s with generation := Function.update s.generation channel (s.generation channel + 1) }

end State

/-- Every value returned is a reply that was sent by the probe of the call that returned it, and
so is the value that waits in the queue of a call. -/
structure Fresh (s : State) : Prop where
  returned : ∀ r ∈ s.returned, r.message ∈ s.sent ∧ r.probe = some r.message.probe
  waiting : ∀ channel call m, s.calls channel = some call →
    s.queue call.kind channel call.generation = some m → m ∈ s.sent ∧ call.probe = some m.probe

/-- No reply of another probe comes to the empty queue of a waiting call. -/
def InTime (s : State) : Event → Prop
  | .reply probe _ => ∀ kind channel call, s.probes[probe]? = some (kind, channel) →
    s.calls channel = some call → call.kind = kind → call.generation = s.generation channel →
    s.queue kind channel (s.generation channel) = none → call.probe = some probe
  | _ => True

namespace State

variable {s : State}

@[simp] theorem calls_setCall_self (s : State) (channel : Text) (call : Option Waiting) :
    (s.setCall channel call).calls channel = call := Function.update_self ..

theorem step_reply (probe : ℕ) (text : List Text) :
    s.step (.reply probe text) =
      match s.probes[probe]? with
      | some (kind, channel) =>
        { s with sent := ⟨probe, text⟩ :: s.sent }.offerReply kind channel ⟨probe, text⟩
      | none => s := by
  simp only [step, receive, extractChannel_tagged]

/-- An offered reply that finds the queue empty is what the waiting call will be given. -/
theorem fresh_offerReply_iff (h : Fresh s) {kind : Kind} {channel : Text} {m : Message} :
    Fresh ({ s with sent := m :: s.sent }.offerReply kind channel m) ↔
      ∀ call, s.calls channel = some call → call.kind = kind →
        call.generation = s.generation channel →
        s.queue kind channel (s.generation channel) = none → call.probe = some m.probe := by
  have hreturned : ∀ r ∈ s.returned, r.message ∈ m :: s.sent ∧ r.probe = some r.message.probe :=
    fun r hr => ⟨List.mem_cons_of_mem _ (h.returned r hr).1, (h.returned r hr).2⟩
  cases hq : s.queue kind channel (s.generation channel) with
  | some other =>
    have hdropped : { s with sent := m :: s.sent }.offerReply kind channel m =
        { s with sent := m :: s.sent } := by
      simp [offerReply, hq]
    rw [hdropped]
    apply iff_of_true
    · refine ⟨hreturned, fun c call m' hcall hm' => ?_⟩
      obtain ⟨hsent, hprobe⟩ := h.waiting c call m' hcall hm'
      exact ⟨List.mem_cons_of_mem _ hsent, hprobe⟩
    · intro call _ _ _ hnone
      cases hnone
  | none =>
    have hoffered : { s with sent := m :: s.sent }.offerReply kind channel m =
        { s with sent := m :: s.sent }.setQueue kind channel (s.generation channel) (some m) := by
      simp [offerReply, hq]
    rw [hoffered]
    constructor
    · intro hfresh call hcall hkind hgen _
      apply (hfresh.waiting channel call m hcall _).2
      simp [setQueue, hkind, hgen]
    · intro hown
      refine ⟨hreturned, fun c call m' hcall hm' => ?_⟩
      by_cases hplace : call.kind = kind ∧ c = channel ∧ call.generation = s.generation channel
      · have hm : m = m' := by simpa [setQueue, hplace] using hm'
        obtain ⟨hkind, rfl, hgen⟩ := hplace
        subst hm
        exact ⟨List.mem_cons_self, hown call hcall hkind hgen rfl⟩
      · have hold : s.queue call.kind c call.generation = some m' := by
          simpa only [setQueue, if_neg hplace] using hm'
        obtain ⟨hsent, hprobe⟩ := h.waiting c call m' hcall hold
        exact ⟨List.mem_cons_of_mem _ hsent, hprobe⟩

/-- Setting the call of one channel, the queues of the others and what was sent being the same. -/
theorem fresh_of_call (h : Fresh s) (channel : Text) {s' : State}
    (hsent : s'.sent = s.sent)
    (hreturned : ∀ r ∈ s'.returned, r.message ∈ s.sent ∧ r.probe = some r.message.probe)
    (hcalls : ∀ c, c ≠ channel → s'.calls c = s.calls c)
    (hqueue : ∀ k c g, c ≠ channel → s'.queue k c g = s.queue k c g)
    (hown : ∀ call m, s'.calls channel = some call →
      s'.queue call.kind channel call.generation = some m →
        m ∈ s.sent ∧ call.probe = some m.probe) : Fresh s' := by
  constructor
  · rw [hsent]
    exact hreturned
  · intro c call m hcall hm
    rw [hsent]
    by_cases hc : c = channel
    · subst hc
      exact hown call m hcall hm
    · rw [hcalls c hc] at hcall
      rw [hqueue _ c _ hc] at hm
      exact h.waiting c call m hcall hm

theorem fresh_setCall_none (h : Fresh s) (channel : Text) : Fresh (s.setCall channel none) := by
  refine fresh_of_call h channel rfl h.returned (fun c hne => Function.update_of_ne hne _ _)
    (fun k c g hne => rfl) ?_
  intro call m hcall
  simp [State.setCall] at hcall

theorem fresh_step_iff (h : Fresh s) (e : Event) : Fresh (s.step e) ↔ InTime s e := by
  cases e with
  | beginWait kind channel =>
    apply iff_of_true _ trivial
    simp only [step]
    cases hc : s.calls channel with
    | some call => exact h
    | none =>
      refine fresh_of_call h channel rfl h.returned (fun c hne => Function.update_of_ne hne _ _)
        (fun k c g hne => if_neg fun hplace => hne hplace.2.1) ?_
      intro call m hcall hm
      simp only [calls_setCall_self, Option.some.injEq] at hcall
      subst hcall
      simp [State.setCall, setQueue] at hm
  | insertProbe channel =>
    apply iff_of_true _ trivial
    simp only [step, withCall]
    cases hc : s.calls channel with
    | none => exact h
    | some call =>
      cases hp : call.probe with
      | some probe => simpa [hp] using h
      | none =>
        simp only [Option.map_some, Option.getD_some, hp]
        refine fresh_of_call h channel rfl h.returned (fun c hne => Function.update_of_ne hne _ _)
          (fun k c g hne => rfl) ?_
        intro call' m hcall hm
        simp only [calls_setCall_self, Option.some.injEq] at hcall
        subst hcall
        have hown := (h.waiting channel call m hc hm).2
        rw [hp] at hown
        cases hown
  | insertFails channel =>
    apply iff_of_true _ trivial
    simp only [step, withCall]
    cases hc : s.calls channel with
    | none => exact h
    | some call =>
      simp only [Option.map_some, Option.getD_some]
      split_ifs
      · exact fresh_setCall_none h channel
      · exact h
  | reply probe text =>
    rw [step_reply]
    cases hp : s.probes[probe]? with
    | none => exact iff_of_true h fun kind channel call hsome => by simp [hp] at hsome
    | some place =>
      obtain ⟨kind, channel⟩ := place
      dsimp only
      rw [fresh_offerReply_iff h]
      constructor
      · intro hown kind' channel' call hsome
        obtain ⟨rfl, rfl⟩ : kind = kind' ∧ channel = channel' := by simpa [hp] using hsome
        exact hown call
      · exact fun htime call => htime kind channel call hp
  | poll channel =>
    apply iff_of_true _ trivial
    simp only [step, withCall]
    cases hc : s.calls channel with
    | none => exact h
    | some call =>
      simp only [Option.map_some, Option.getD_some]
      split
      · rename_i probe m hp hm
        obtain ⟨hsent, hown⟩ := h.waiting channel call m hc hm
        rw [hp] at hown
        refine fresh_of_call h channel rfl ?_ (fun c hne => Function.update_of_ne hne _ _)
          (fun k c g hne => if_neg fun hplace => hne hplace.2.1) ?_
        · intro r hr
          rcases List.mem_cons.mp hr with rfl | hold
          · exact ⟨hsent, hown⟩
          · exact h.returned r hold
        · intro call' m' hcall
          simp [State.setCall, setQueue] at hcall
      · exact h
  | timeOut channel =>
    apply iff_of_true _ trivial
    simp only [step, withCall]
    cases hc : s.calls channel with
    | none => exact h
    | some call =>
      simp only [Option.map_some, Option.getD_some]
      split
      · exact fresh_setCall_none h channel
      · exact h
  | clearChannel channel => exact iff_of_true ⟨h.returned, h.waiting⟩ trivial

end State

/-- Over every run of any number of backends, the values returned and those about to be are
replies of the calls' own probes exactly when no other reply comes to an empty queue that a call
waits at. -/
theorem replies_fresh_iff (run : List Event) :
    EveryStep State.step (fun s e => Fresh (s.step e)) {} run ↔
      EveryStep State.step InTime {} run := by
  apply everyStep_iff_of_invariant (fun s e (h : Fresh s) he => (State.fresh_step_iff h e).mpr he)
    (fun s e h => State.fresh_step_iff h e)
  constructor
  · intro r hr
    cases hr
  · intro channel call m hcall
    cases hcall

/-- A probe that times out and is answered during the retry. -/
def lateReply (channel : Text) (text : List Text) : List Event :=
  [.beginWait .subgoals channel, .insertProbe channel, .timeOut channel,
    .beginWait .subgoals channel, .insertProbe channel, .reply 0 text, .poll channel]

/-- The retry returns the late reply of the first probe. -/
theorem retry_returns_late_reply :
    ((lateReply "c".toList ["1. A".toList]).foldl State.step {}).returned =
        [⟨some 1, ⟨0, ["1. A".toList]⟩⟩] ∧
      ¬ Fresh ((lateReply "c".toList ["1. A".toList]).foldl State.step {}) := by
  have hreturned : ((lateReply "c".toList ["1. A".toList]).foldl State.step {}).returned =
      [⟨some 1, ⟨0, ["1. A".toList]⟩⟩] := by decide +kernel
  refine ⟨hreturned, fun h => ?_⟩
  have hown := h.returned
  rw [hreturned] at hown
  cases (hown _ List.mem_cons_self).2

end MlChannels
end IsabelleGym
