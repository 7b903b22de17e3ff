import LedgerCommit.Channel.Activity
import LedgerCommit.Channel.Broadcast
import LedgerCommit.Channel.Mailbox
import LedgerCommit.Voting.Gate

/-!
# The gate actor

The gate runs on its own: it takes proposals and outcomes from two mailboxes,
one at a time and proposals first, and hands each decision to the decision
queue, if there is one, and to its listeners. While the queue is full it waits
and takes nothing.

The actor ends when it is told to, which it notices before it takes another
input, when both mailboxes are exhausted, or at the first outcome it cannot
read. It then stops the voting. An overflow breaks it off without that.
-/

namespace LedgerCommit

/-- The gate with its mailboxes. -/
structure GateActor where
  gate : Gate
  /-- Busy means: a decision waits for room in the queue. -/
  activity : Activity Decision OutcomeError
  proposals : Mailbox Proposal
  outcomes : Mailbox Outcome
  /-- Whether the proposals are known to be exhausted. -/
  proposalsDone : Bool
  outcomesDone : Bool
  signalled : Bool
  /-- Whether decisions go to the queue. -/
  attached : Bool
  published : Broadcast Decision
  casts : List CastVote
  stops : Nat

namespace GateActor

def start (gate : Gate) (input output : Nat) (attached : Bool) : GateActor where
  gate := gate
  activity := .idle
  proposals := .empty input
  outcomes := .empty input
  proposalsDone := false
  outcomesDone := false
  signalled := false
  attached := attached
  published := .empty output
  casts := []
  stops := 0

def isAlive (a : GateActor) : Bool := a.activity.isAlive

/-- The actor when it is gone: its mailboxes take nothing more. -/
def leave (a : GateActor) (activity : Activity Decision OutcomeError) : GateActor :=
  { a with
    activity
    proposals := a.proposals.dropReceiver
    outcomes := a.outcomes.dropReceiver }

/-- End in order or with an error, and stop the voting. -/
def finish (a : GateActor) (result : Except OutcomeError Unit) : GateActor :=
  { a.leave (.ended result) with stops := a.stops + 1 }

/-- Take a proposal: the vote is cast, or an overflow breaks the actor off. -/
def takeProposal (a : GateActor) (p : Proposal) : GateActor :=
  match a.gate.propose p with
  | .error o => a.leave (.broken o)
  | .ok (gate, vote) => { a with gate, casts := a.casts ++ vote.toList }

/-- Make a decision known; it then waits for the queue, if there is one. -/
def publish (a : GateActor) (d : Decision) : GateActor :=
  { a with
    published := a.published.send d
    activity := if a.attached then .busy d else .idle }

/-- Take an outcome: the decision is made known, or the actor ends. -/
def takeOutcome (a : GateActor) (o : Outcome) : GateActor :=
  match a.gate.read o with
  | .error e => a.finish (.error e)
  | .ok (none, gate) => { a with gate }
  | .ok (some d, gate) => { a with gate }.publish d

/-- The next step of the idle actor that has no proposal to take. -/
def stepOutcome (a : GateActor) : Option GateActor :=
  match a.outcomes.items with
  | o :: rest => some ({ a with outcomes := { a.outcomes with items := rest } }.takeOutcome o)
  | [] =>
      if ¬ a.outcomesDone ∧ ¬ a.outcomes.hasSender then some { a with outcomesDone := true }
      else none

/-- The next step of the idle actor. Without one it waits for input. -/
def stepIdle (a : GateActor) : Option GateActor :=
  if (a.proposalsDone ∧ a.outcomesDone) ∨ a.signalled then some (a.finish (.ok ()))
  else
    match a.proposals.items with
    | p :: rest => some ({ a with proposals := { a.proposals with items := rest } }.takeProposal p)
    | [] =>
        if ¬ a.proposalsDone ∧ ¬ a.proposals.hasSender then some { a with proposalsDone := true }
        else a.stepOutcome

/-- Deliver the decision that waits: it enters the queue when there is room,
and is dropped when nobody takes decisions any more. -/
def stepDeliver (a : GateActor) (d : Decision) (queue : Mailbox Decision) :
    Option (GateActor × Mailbox Decision) :=
  if ¬ queue.hasReceiver then some ({ a with activity := .idle, attached := false }, queue)
  else if queue.hasRoom then some ({ a with activity := .idle }, queue.push d)
  else none

/-- The next step of the actor. When the actor is gone the queue has no
sender any more. -/
def step (a : GateActor) (queue : Mailbox Decision) : Option (GateActor × Mailbox Decision) :=
  match a.activity with
  | .idle => a.stepIdle.map fun a => (a, if a.isAlive then queue else queue.dropSender)
  | .busy d => a.stepDeliver d queue
  | .ended _ | .broken _ => none

def signal (a : GateActor) : GateActor := { a with signalled := true }

/-- Both mailboxes when nobody sends to them any more. -/
def dropHandle (a : GateActor) : GateActor :=
  { a with proposals := a.proposals.dropSender, outcomes := a.outcomes.dropSender }

def offerProposal (a : GateActor) (p : Proposal) : Offered × GateActor :=
  let (r, proposals) := a.proposals.offer p
  (r, { a with proposals })

def offerOutcome (a : GateActor) (o : Outcome) : Offered × GateActor :=
  let (r, outcomes) := a.outcomes.offer o
  (r, { a with outcomes })

/-! ## Running to rest -/

/-- What is still to be done of the inputs that are there. -/
def pendingWork (a : GateActor) : Nat :=
  a.proposals.items.length + 4 * a.outcomes.items.length
    + (!a.proposalsDone).toNat + (!a.outcomesDone).toNat

/-- A bound on the steps that are left without new input. An outcome counts
for the steps that its decision takes, too. -/
def weight (a : GateActor) : Nat :=
  match a.activity with
  | .idle => 1 + a.pendingWork
  | .busy _ => 4 + a.pendingWork
  | .ended _ | .broken _ => 0

theorem weight_le (a : GateActor) : a.weight ≤ 4 + a.pendingWork := by
  unfold weight
  split <;> omega

@[simp]
theorem weight_leave_broken (a : GateActor) (o : Overflow) :
    (a.leave (.broken o)).weight = 0 := rfl

@[simp]
theorem weight_finish (a : GateActor) (r : Except OutcomeError Unit) :
    (a.finish r).weight = 0 := rfl

theorem weight_takeProposal_le {a : GateActor} (h : a.activity = .idle) (p : Proposal) :
    (a.takeProposal p).weight ≤ 1 + a.pendingWork := by
  unfold takeProposal
  split
  next => simp
  next => simp [weight, h, pendingWork]

theorem weight_takeOutcome_le (a : GateActor) (o : Outcome) (h : a.activity = .idle) :
    (a.takeOutcome o).weight ≤ 4 + a.pendingWork := by
  unfold takeOutcome
  split
  next => simp
  next => simp [weight, h, pendingWork]
  next d gate _ =>
    exact weight_le ({ a with gate }.publish d)

theorem weight_stepOutcome {a a' : GateActor} (ha : a.activity = .idle)
    (h : a.stepOutcome = some a') : a'.weight < a.weight := by
  have hw : a.weight = 1 + a.pendingWork := by simp [weight, ha]
  unfold stepOutcome at h
  split at h
  next o rest hos =>
    cases h
    have := weight_takeOutcome_le { a with outcomes := { a.outcomes with items := rest } } o ha
    simp only [pendingWork, hos, List.length_cons] at this hw ⊢
    omega
  next =>
    split at h
    next hd => cases h; simp [weight, ha, pendingWork, hd.1]
    next => cases h

theorem weight_stepIdle {a a' : GateActor} (ha : a.activity = .idle) (h : a.stepIdle = some a') :
    a'.weight < a.weight := by
  have hw : a.weight = 1 + a.pendingWork := by simp [weight, ha]
  unfold stepIdle at h
  split at h
  next => cases h; rw [weight_finish]; omega
  next =>
    split at h
    next p rest hps =>
      cases h
      have := weight_takeProposal_le
        (a := { a with proposals := { a.proposals with items := rest } }) ha p
      simp only [pendingWork, hps, List.length_cons] at this hw ⊢
      omega
    next =>
      split at h
      next hd => cases h; simp [weight, ha, pendingWork, hd.1]
      next => exact weight_stepOutcome ha h

theorem weight_step {a a' : GateActor} {q q' : Mailbox Decision}
    (h : a.step q = some (a', q')) :
    a'.weight + 2 * q'.items.length < a.weight + 2 * q.items.length := by
  unfold step at h
  split at h
  next ha =>
    obtain ⟨b, hb, he⟩ := Option.map_eq_some_iff.mp h
    cases he
    have := weight_stepIdle ha hb
    split
    next => omega
    next => simp only [Mailbox.dropSender]; omega
  next d ha =>
    have hw : a.weight = 4 + a.pendingWork := by simp [weight, ha]
    unfold stepDeliver at h
    split at h
    next => cases h; simp [weight, pendingWork] at hw ⊢; omega
    next =>
      split at h
      next => cases h; simp [weight, pendingWork, Mailbox.push] at hw ⊢; omega
      next => cases h
  next => cases h
  next => cases h

/-- Let the actor take steps until it waits or is gone. -/
def settle (a : GateActor) (queue : Mailbox Decision) : GateActor × Mailbox Decision :=
  match _h : a.step queue with
  | none => (a, queue)
  | some (a', queue') => settle a' queue'
termination_by a.weight + 2 * queue.items.length
decreasing_by exact weight_step _h

end GateActor

end LedgerCommit
