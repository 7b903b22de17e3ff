import LedgerCommit.Channel.Activity
import LedgerCommit.Channel.Broadcast
import LedgerCommit.Channel.Mailbox
import LedgerCommit.Sync.Synchronizer

/-!
# The synchronizer actor

The synchronizer runs on its own: it takes decisions from the queue, one at a
time, resolves each of them, and makes the events known to its listeners. It
ends when it is told to, which it notices before it takes another decision, or
when the queue is exhausted. An overflow breaks it off.
-/

namespace LedgerCommit

/-- The synchronizer with its store and its loader. -/
structure SyncActor (σ : Type) where
  store : Store
  loader : σ
  /-- Busy means: a decision is being resolved. -/
  activity : Activity Decision Empty
  signalled : Bool
  events : Broadcast SyncEvent

namespace SyncActor

variable {σ : Type}

def start (store : Store) (loader : σ) (capacity : Nat) : SyncActor σ :=
  ⟨store, loader, .idle, false, .empty capacity⟩

def isAlive (a : SyncActor σ) : Bool := a.activity.isAlive

/-- The next step of the idle actor: it takes a decision or ends. -/
def stepIdle (a : SyncActor σ) (queue : Mailbox Decision) :
    Option (SyncActor σ × Mailbox Decision) :=
  if a.signalled then some ({ a with activity := .ended (.ok ()) }, queue.dropReceiver)
  else
    match queue.items with
    | d :: rest => some ({ a with activity := .busy d }, { queue with items := rest })
    | [] =>
        if queue.hasSender then none
        else some ({ a with activity := .ended (.ok ()) }, queue.dropReceiver)

def resolved (L : Loader σ) (p : SyncPolicy) (a : SyncActor σ) (d : Decision) : SyncActor σ :=
  let r := Synchronizer.resolve L p a.store a.loader d
  let a := { a with store := r.store, loader := r.loader }
  match r.result with
  | .error o => { a with activity := .broken o }
  | .ok none => { a with activity := .idle }
  | .ok (some e) => { a with activity := .idle, events := a.events.send e }

/-- The next step of the actor. Without one it waits for decisions. When the
actor is gone the queue has no receiver any more. -/
def step (L : Loader σ) (p : SyncPolicy) (a : SyncActor σ) (queue : Mailbox Decision) :
    Option (SyncActor σ × Mailbox Decision) :=
  match a.activity with
  | .idle => a.stepIdle queue
  | .busy d =>
      let a := resolved L p a d
      some (a, if a.isAlive then queue else queue.dropReceiver)
  | .ended _ | .broken _ => none

def signal (a : SyncActor σ) : SyncActor σ := { a with signalled := true }

/-! ## Running to rest -/

/-- A bound on the steps that the actor takes besides one for each decision
in the queue and one for its resolution. -/
def weight (a : SyncActor σ) : Nat :=
  match a.activity with
  | .idle => 1
  | .busy _ => 2
  | .ended _ | .broken _ => 0

theorem weight_resolved_le (L : Loader σ) (p : SyncPolicy) (a : SyncActor σ) (d : Decision) :
    (resolved L p a d).weight ≤ 1 := by
  unfold resolved
  dsimp only
  split <;> simp [weight]

theorem weight_step {L : Loader σ} {p : SyncPolicy} {a a' : SyncActor σ}
    {q q' : Mailbox Decision} (h : step L p a q = some (a', q')) :
    a'.weight + 2 * q'.items.length < a.weight + 2 * q.items.length := by
  unfold step at h
  split at h
  next ha =>
    have hw : a.weight = 1 := by simp [weight, ha]
    unfold stepIdle at h
    split at h
    next =>
      cases h
      rw [hw]
      show 0 < 1 + 2 * q.items.length
      omega
    next =>
      split at h
      next d rest hq => cases h; rw [hw, hq]; simp [weight]; omega
      next hq =>
        split at h
        next => cases h
        next =>
          cases h
          rw [hw]
          show 0 < 1 + 2 * q.items.length
          omega
  next d ha =>
    have hw : a.weight = 2 := by simp [weight, ha]
    have hr := weight_resolved_le L p a d
    cases h
    rw [hw]
    split
    next => omega
    next => simp only [Mailbox.dropReceiver, List.length_nil]; omega
  next => cases h
  next => cases h

/-- Let the actor take steps until it waits or is gone. -/
def settle (L : Loader σ) (p : SyncPolicy) (a : SyncActor σ) (queue : Mailbox Decision) :
    SyncActor σ × Mailbox Decision :=
  match _h : step L p a queue with
  | none => (a, queue)
  | some (a', queue') => settle L p a' queue'
termination_by a.weight + 2 * queue.items.length
decreasing_by exact weight_step _h

end SyncActor

end LedgerCommit
