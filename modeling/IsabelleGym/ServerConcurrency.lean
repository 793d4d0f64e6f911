import Mathlib.Logic.Function.Basic

/-!
# The abstract model of the lease-atomic server

Every session has one owner at most, a queue and one slot for a running request.
Only the owner enqueues, and the owner is released only when the session is
idle. This is the model of `Server_Concurrency.thy`.
-/

namespace ServerConcurrency

variable {Sid Cid Req Lst : Type}

structure SessionState (Cid Req Lst : Type) where
  owner : Option Cid
  q : List Req
  running : Option Req
  lst : Lst

abbrev SystemState (Sid Cid Req Lst : Type) := Sid → SessionState Cid Req Lst

def Idle (σ : SystemState Sid Cid Req Lst) (s : Sid) : Prop :=
  (σ s).q = [] ∧ (σ s).running = none

inductive Action (Sid Cid Req Lst : Type)
  | acquire (c : Cid) (s : Sid)
  | release (c : Cid) (s : Sid)
  | enqueue (c : Cid) (s : Sid) (r : Req)
  | start (s : Sid)
  | finish (s : Sid) (st : Lst)

def Enabled (σ : SystemState Sid Cid Req Lst) : Action Sid Cid Req Lst → Prop
  | .acquire _ s => (σ s).owner = none
  | .release c s => (σ s).owner = some c ∧ Idle σ s
  | .enqueue c s _ => (σ s).owner = some c
  | .start s => (σ s).owner ≠ none ∧ (σ s).running = none ∧ (σ s).q ≠ []
  | .finish s _ => (σ s).owner ≠ none ∧ (σ s).running ≠ none

variable [DecidableEq Sid]

def updSess (s : Sid) (f : SessionState Cid Req Lst → SessionState Cid Req Lst)
    (σ : SystemState Sid Cid Req Lst) : SystemState Sid Cid Req Lst :=
  Function.update σ s (f (σ s))

/-- On an empty queue, where it is not enabled, `start` leaves nothing running. In the theory the
request `hd []` runs then, of which nothing is known. -/
def exec (σ : SystemState Sid Cid Req Lst) :
    Action Sid Cid Req Lst → SystemState Sid Cid Req Lst
  | .acquire c s => updSess s (fun x => { x with owner := some c }) σ
  | .release _ s => updSess s (fun x => { x with owner := none }) σ
  | .enqueue _ s r => updSess s (fun x => { x with q := x.q ++ [r] }) σ
  | .start s => updSess s (fun x => { x with running := x.q.head?, q := x.q.tail }) σ
  | .finish s st => updSess s (fun x => { x with running := none, lst := st }) σ

/-- One step of a refinement: the state stays, or an enabled action leads to the new state. -/
def Steps (σ σ' : SystemState Sid Cid Req Lst) : Prop :=
  σ' = σ ∨ ∃ a, Enabled σ a ∧ σ' = exec σ a

/-- An action that ends the ownership of a session is a release, which finds it idle. -/
theorem Steps.idle_of_released {σ σ' : SystemState Sid Cid Req Lst} (h : Steps σ σ') {s : Sid}
    (howner : (σ s).owner ≠ none) (hnone : (σ' s).owner = none) : Idle σ s := by
  rcases h with rfl | ⟨a, ha, rfl⟩
  · exact absurd hnone howner
  · cases a with
    | release c t =>
      by_cases hs : s = t
      · exact hs ▸ ha.2
      · simp [exec, updSess, Function.update_of_ne hs] at hnone
        exact absurd hnone howner
    | acquire c t | enqueue c t r | start t | finish t st =>
      by_cases hs : s = t
      · subst hs
        simp_all [exec, updSess]
      · simp [exec, updSess, Function.update_of_ne hs] at hnone
        exact absurd hnone howner

end ServerConcurrency
