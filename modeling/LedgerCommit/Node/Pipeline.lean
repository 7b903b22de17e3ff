import LedgerCommit.Node.Config
import LedgerCommit.Sync.SyncActor
import LedgerCommit.Voting.GateActor

/-!
# The commit pipeline

Proposals and outcomes go in, synchronization events come out. The gate hands
its decisions to the synchronizer over a bounded queue in which none is lost,
so every decision is resolved, in the order in which the rounds were decided.

Each actor takes one step at a time, in any interleaving with the other and
with the clients; `settle` takes the steps that are possible until none is.
-/

namespace LedgerCommit

/-- The two actors and the queue between them. -/
structure Pipeline (σ : Type) where
  gate : GateActor
  queue : Mailbox Decision
  sync : SyncActor σ

inductive Task where
  | gate
  | sync
  deriving DecidableEq, Repr

def Task.name : Task → String
  | gate => "consensus gate"
  | sync => "synchronizer"

/-- How a pipeline may fail to stop in order. -/
inductive StopError where
  | broken (task : Task) (cause : Overflow)
  /-- The gate had ended at an outcome it could not read. -/
  | outcome (cause : OutcomeError)
  deriving DecidableEq

namespace Pipeline

variable {σ : Type}

/-- The pipeline on top of the committed ledger of a store. -/
def start (c : Config) (store : Store) (loader : σ) (alternative : Option ContactOrder)
    (rule : VotingRule := .usual) : Pipeline σ where
  gate := .start (.start store.ledger alternative rule) c.inputCapacity.toNat
    c.decisionCapacity.toNat true
  queue := .empty c.decisionCapacity.toNat
  sync := .start store loader c.eventCapacity.toNat

/-! ## Steps -/

def stepGate (p : Pipeline σ) : Option (Pipeline σ) :=
  (p.gate.step p.queue).map fun (gate, queue) => { p with gate, queue }

def stepSync (L : Loader σ) (policy : SyncPolicy) (p : Pipeline σ) : Option (Pipeline σ) :=
  (p.sync.step L policy p.queue).map fun (sync, queue) => { p with sync, queue }

/-- Some step of an actor, the gate's first. -/
def step (L : Loader σ) (policy : SyncPolicy) (p : Pipeline σ) : Option (Pipeline σ) :=
  p.stepGate <|> p.stepSync L policy

def propose (p : Pipeline σ) (x : Proposal) : Offered × Pipeline σ :=
  let (r, gate) := p.gate.offerProposal x
  (r, { p with gate })

def submit (p : Pipeline σ) (o : Outcome) : Offered × Pipeline σ :=
  let (r, gate) := p.gate.offerOutcome o
  (r, { p with gate })

def signal (p : Pipeline σ) : Pipeline σ :=
  { p with gate := p.gate.signal, sync := p.sync.signal }

def isRunning (p : Pipeline σ) : Bool := p.gate.isAlive && p.sync.isAlive

/-- Whether both actors are gone. Then there is nothing to wait for when the
pipeline is stopped. -/
def isOver (p : Pipeline σ) : Bool := !p.gate.isAlive && !p.sync.isAlive

/-! ## Running to rest -/

/-- A bound on the steps that are left without new input. -/
def weight (p : Pipeline σ) : Nat :=
  p.gate.weight + 2 * p.queue.items.length + p.sync.weight

theorem weight_stepGate {p p' : Pipeline σ} (h : p.stepGate = some p') : p'.weight < p.weight := by
  obtain ⟨⟨gate, queue⟩, hg, rfl⟩ := Option.map_eq_some_iff.mp h
  have := GateActor.weight_step hg
  simp only [weight]
  omega

theorem weight_stepSync {L : Loader σ} {policy : SyncPolicy} {p p' : Pipeline σ}
    (h : p.stepSync L policy = some p') : p'.weight < p.weight := by
  obtain ⟨⟨sync, queue⟩, hs, rfl⟩ := Option.map_eq_some_iff.mp h
  have := SyncActor.weight_step hs
  simp only [weight]
  omega

theorem weight_step {L : Loader σ} {policy : SyncPolicy} {p p' : Pipeline σ}
    (h : p.step L policy = some p') : p'.weight < p.weight := by
  unfold step at h
  cases hg : p.stepGate with
  | some q =>
      rw [hg] at h
      cases h
      exact weight_stepGate hg
  | none =>
      rw [hg] at h
      exact weight_stepSync h

/-- Let the actors take steps until neither can. -/
def settle (L : Loader σ) (policy : SyncPolicy) (p : Pipeline σ) : Pipeline σ :=
  match _h : p.step L policy with
  | none => p
  | some p' => settle L policy p'
termination_by p.weight
decreasing_by exact weight_step _h

/-- How the actors have gone, the gate being looked at first. An error of the
gate itself counts after a broken synchronizer. -/
def verdict (p : Pipeline σ) : Except StopError Unit :=
  match p.gate.activity, p.sync.activity with
  | .broken o, _ => .error (.broken .gate o)
  | _, .broken o => .error (.broken .sync o)
  | .ended (.error e), _ => .error (.outcome e)
  | _, _ => .ok ()

/-- Stop both actors and let them come to their ends. -/
def stop (L : Loader σ) (policy : SyncPolicy) (p : Pipeline σ) :
    Except StopError Unit × Pipeline σ :=
  let p := settle L policy p.signal
  (p.verdict, p)

end Pipeline

end LedgerCommit
