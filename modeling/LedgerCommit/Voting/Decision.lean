import LedgerCommit.Block
import LedgerCommit.Ledger
import LedgerCommit.Round

/-!
# Decisions

A decision says what a finished round means for this node. It carries the
snapshot of the ledger that the node last voted on.
-/

namespace LedgerCommit

/-- What a finished round means for this node. -/
inductive Decision where
  /-- The block this node voted for is agreed. -/
  | heldBlock (round : Round) (ledger : Ledger) (block : Block)
  /-- Another block is agreed, the one with this hash. -/
  | otherBlock (round : Round) (ledger : Ledger) (signers : List PublicKey) (block : Hash)
  /-- Nothing is agreed to be committed. -/
  | nothing (round : Round) (ledger : Ledger) (signers : List PublicKey)
  /-- Peers agreed on a proposal and differ on the block built from it. -/
  | blockReject (round : Round) (ledger : Ledger) (signers : List PublicKey)
  /-- Peers did not agree on a proposal. -/
  | proposalReject (round : Round) (ledger : Ledger) (signers : List PublicKey)
  /-- Peers are ahead of this node. -/
  | future (round : Round) (ledger : Ledger) (signers : List PublicKey)
  deriving DecidableEq

namespace Decision

def round : Decision → Round
  | heldBlock r _ _ | otherBlock r _ _ _ | nothing r _ _ | blockReject r _ _
  | proposalReject r _ _ | future r _ _ => r

/-- The snapshot the node last voted on. -/
def ledger : Decision → Ledger
  | heldBlock _ l _ | otherBlock _ l _ _ | nothing _ l _ | blockReject _ l _
  | proposalReject _ l _ | future _ l _ => l

/-- The peers whose votes show the decision; none for the held block. -/
def signers : Decision → List PublicKey
  | heldBlock _ _ _ => []
  | otherBlock _ _ s _ | nothing _ _ s | blockReject _ _ s
  | proposalReject _ _ s | future _ _ s => s

def kind : Decision → String
  | heldBlock .. => "pair_valid"
  | otherBlock .. => "vote_other"
  | nothing .. => "agreement_on_none"
  | blockReject .. => "block_reject"
  | proposalReject .. => "proposal_reject"
  | future .. => "future"

end Decision

end LedgerCommit
