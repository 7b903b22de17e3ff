import LedgerCommit.Voting.ContactOrder
import LedgerCommit.Voting.Decision
import LedgerCommit.Voting.Vote

/-!
# The outcome gate

The gate casts this node's vote in each new round and reads every finished
round against that vote. It holds the block voted for as long as that block
may still be agreed; a second copy, the result cache, is what others see.

A round is cast at most once: proposals for rounds up to the current one are
ignored. An outcome is read as at most one decision; outcomes of rounds
behind the current one are dropped.
-/

namespace LedgerCommit

/-- The block built from a proposal. -/
structure Candidate where
  proposal : Hash
  block : Block
  deriving DecidableEq

/-- A round to vote in, on top of a snapshot of the ledger. Without a
candidate the vote is for nothing. -/
structure Proposal where
  round : Round
  ledger : Ledger
  candidate : Option Candidate
  deriving DecidableEq

/-- The ballot a proposal is voted with: it carries the first seal of the
candidate block. -/
def Ballot.ofProposal (p : Proposal) : Ballot :=
  match p.candidate with
  | none => ⟨p.round, .nothing, none⟩
  | some c => ⟨p.round, ⟨c.proposal, c.block.hash⟩, c.block.seals.head?⟩

def Ballot.blockHash (b : Ballot) : Hash := b.choice.block

/-- How a node votes. Without an order nobody is contacted. -/
structure VotingRule where
  /-- What is voted for a proposal. -/
  ballot : Proposal → Ballot
  /-- The block that a ballot stands for. -/
  block : Ballot → Hash
  /-- The order in which the peers are contacted with a ballot. -/
  order : Ballot → List Peer → Option ContactOrder

/-- The usual rule: peers are shuffled as the hash of the block voted for tells. -/
def VotingRule.usual : VotingRule where
  ballot := .ofProposal
  block := Ballot.blockHash
  order b peers := ContactOrder.seeded b.blockHash peers

structure CastVote where
  ballot : Ballot
  order : ContactOrder
  /-- An order that overrides the usual one for this vote. -/
  alternative : Option ContactOrder
  deriving DecidableEq

structure ResultCache where
  block : Option Block
  deriving DecidableEq

namespace ResultCache

def empty : ResultCache := ⟨none⟩

/-- The cache with a block, in place of the one before. -/
def insert (_ : ResultCache) (b : Block) : ResultCache := ⟨some b⟩

def release (_ : ResultCache) : ResultCache := empty

def isEmpty (c : ResultCache) : Bool := c.block.isNone

end ResultCache

structure Gate where
  rule : VotingRule
  /-- What the node voted for last. -/
  ballot : Ballot
  /-- The block voted for, while it may still be agreed. -/
  held : Option Block
  ledger : Ledger
  cache : ResultCache
  /-- The order that overrides the usual one for the first vote. -/
  alternative : OneShot ContactOrder

namespace Gate

/-- The gate on top of a ledger, before any vote. -/
def start (ledger : Ledger) (alternative : Option ContactOrder)
    (rule : VotingRule := .usual) : Gate where
  rule := rule
  ballot := ⟨⟨ledger.height, 0⟩, .nothing, none⟩
  held := none
  ledger := ledger
  cache := .empty
  alternative := ⟨alternative⟩

/-- Hold a block, in the gate and in the cache. -/
def hold (g : Gate) (b : Block) : Gate :=
  { g with held := some b, cache := g.cache.insert b }

def letGo (g : Gate) : Gate :=
  { g with held := none, cache := g.cache.release }

/-! ## Voting -/

/-- The gate once it has taken up a proposal, before the vote is cast. -/
def adopt (g : Gate) (p : Proposal) : Gate :=
  let g := { g with ballot := g.rule.ballot p, ledger := p.ledger }
  match p.candidate with
  | none => g.letGo
  | some c => g.hold c.block

/-- Cast the vote for the current ballot, if there are peers to contact. The
alternative order goes with the first vote that is cast. -/
def cast (g : Gate) : Gate × Option CastVote :=
  match g.rule.order g.ballot g.ledger.peers with
  | none => (g, none)
  | some order =>
      let (alternative, left) := g.alternative.take
      ({ g with alternative := left }, some ⟨g.ballot, order, alternative⟩)

/-- Vote for a proposal, provided that its round comes after the current one.
The height that follows the snapshot's has to fit. -/
def propose (g : Gate) (p : Proposal) : Except Overflow (Gate × Option CastVote) :=
  if g.ballot.round.before p.round then do
    let _ ← checkedAdd p.ledger.height 1
    return (g.adopt p).cast
  else .ok (g, none)

/-! ## Reading outcomes -/

/-- The decision that another block is agreed; the held one is given up. -/
def readOther (g : Gate) (b : Ballot) (votes : List Vote) : Decision × Gate :=
  (.otherBlock b.round g.ledger (signersOf votes) (g.rule.block b), g.letGo)

def readFuture (g : Gate) (b : Ballot) (votes : List Vote) : Decision :=
  .future b.round g.ledger (signersOf votes)

/-- The held block with the seals that the votes carry added. -/
def collectSeals (b : Block) (votes : List Vote) : Block :=
  (votes.filterMap (·.ballot.blockSeal)).foldl Block.addSeal b

/-- A commit at the current height: the held block if the votes agree with
the gate's, and otherwise nothing or another block. -/
def readCommitHere (g : Gate) (b : Ballot) (votes : List Vote) : Decision × Gate :=
  match g.held, b.agrees g.ballot with
  | some block, true =>
      let block := collectSeals block votes
      (.heldBlock g.ballot.round g.ledger block, g.hold block)
  | _, _ =>
      if b.choice.isNothing then (.nothing b.round g.ledger (signersOf votes), g.letGo)
      else g.readOther b votes

/-- A commit at a height after the current one: the node is behind. -/
def readCommitAhead (g : Gate) (b : Ballot) (votes : List Vote) : Decision × Gate :=
  if b.choice.isNothing then (g.readFuture b votes, g) else g.readOther b votes

/-- A reject at the current height: of the block, if all votes are for one
proposal, and otherwise of the proposal. -/
def readRejectHere (g : Gate) (b : Ballot) (votes : List Vote) : Decision :=
  if votes.all (·.ballot.choice.proposal = b.choice.proposal) then
    .blockReject b.round g.ledger (signersOf votes)
  else .proposalReject b.round g.ledger (signersOf votes)

/-- The reading of an outcome whose votes stand for the ballot `b`. -/
def readBallot (g : Gate) (ending : Ending) (b : Ballot) (votes : List Vote) :
    Option Decision × Gate :=
  let sameHeight := b.round.height = g.ballot.round.height
  match ending with
  | .commit =>
      if b.round.before g.ballot.round then (none, g)
      else
        let (d, g) := if sameHeight then g.readCommitHere b votes else g.readCommitAhead b votes
        (some d, g)
  | .reject =>
      if b.round.before g.ballot.round then (none, g)
      else if sameHeight then (some (g.readRejectHere b votes), g)
      else (some (g.readFuture b votes), g)
  | .future =>
      if b.round.height ≤ g.ballot.round.height then (none, g)
      else (some (g.readFuture b votes), g)

/-- Read a finished round. Votes that are for no common round are an error,
and then the gate stays as it is. -/
def read (g : Gate) (o : Outcome) : Except OutcomeError (Option Decision × Gate) :=
  (commonBallot o.votes).map fun b => g.readBallot o.ending b o.votes

/-! ## Ballots -/

@[simp]
theorem ballot_usual (p : Proposal) : VotingRule.usual.ballot p = .ofProposal p := rfl

theorem ballot_adopt (g : Gate) (p : Proposal) : (g.adopt p).ballot = g.rule.ballot p := by
  unfold adopt
  split <;> rfl

@[simp]
theorem round_ofProposal (p : Proposal) : (Ballot.ofProposal p).round = p.round := by
  unfold Ballot.ofProposal
  split <;> rfl

end Gate

end LedgerCommit
