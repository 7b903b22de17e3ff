import LedgerCommit.Block
import LedgerCommit.Round

/-!
# Votes

In each round a peer votes for a choice: a proposal and the block built from
it, or nothing. The result of a finished round is the list of its votes; all
of them have to be for one round.
-/

namespace LedgerCommit

/-- What a peer votes for. -/
structure Choice where
  proposal : Hash
  block : Hash
  deriving DecidableEq

namespace Choice

/-- The choice of a peer that has nothing to propose. -/
def nothing : Choice := ⟨Hash.zero, Hash.zero⟩

def isNothing (c : Choice) : Bool := c.proposal.isZero

end Choice

/-- A choice in a round, together with the voter's seal of the block. -/
structure Ballot where
  round : Round
  choice : Choice
  blockSeal : Option Seal
  deriving DecidableEq

namespace Ballot

/-- Whether two ballots are for the same choice in the same round. The seals
they carry do not matter. -/
def agrees (a b : Ballot) : Bool := a.round = b.round && a.choice = b.choice

theorem agrees_iff {a b : Ballot} :
    a.agrees b = true ↔ a.round = b.round ∧ a.choice = b.choice := by
  simp [agrees]

end Ballot

/-- A ballot with the signature of the peer that casts it. -/
structure Vote where
  ballot : Ballot
  sign : Seal
  deriving DecidableEq

def Vote.signer (v : Vote) : PublicKey := v.sign.signer

/-- How a round ended. -/
inductive Ending where
  /-- A supermajority voted for one choice. -/
  | commit
  /-- No choice can reach a supermajority any more. -/
  | reject
  /-- Votes for a later round were seen. -/
  | future
  deriving DecidableEq, Repr

/-- A finished round: how it ended and the votes that show it. -/
structure Outcome where
  ending : Ending
  votes : List Vote
  deriving DecidableEq

inductive OutcomeError where
  | noVotes
  /-- The first vote is for one round, a later one for another. -/
  | mixedRounds (expected found : Round)
  deriving DecidableEq, Repr

def OutcomeError.message : OutcomeError → String
  | noVotes => "outcome carries no votes"
  | mixedRounds expected found =>
      "malformed outcome: votes for round " ++ expected.text ++ " and " ++ found.text

/-- The ballot that stands for a list of votes: the first one, provided that
all votes are for its round. -/
def commonBallot (votes : List Vote) : Except OutcomeError Ballot :=
  match votes with
  | [] => .error .noVotes
  | first :: _ =>
      match votes.find? (·.ballot.round ≠ first.ballot.round) with
      | some odd => .error (.mixedRounds first.ballot.round odd.ballot.round)
      | none => .ok first.ballot

def signersOf (votes : List Vote) : List PublicKey := votes.map Vote.signer

theorem commonBallot_eq_ok {first : Vote} {rest : List Vote}
    (h : ∀ v ∈ rest, v.ballot.round = first.ballot.round) :
    commonBallot (first :: rest) = .ok first.ballot := by
  have : (first :: rest).find? (·.ballot.round ≠ first.ballot.round) = none := by
    simpa [List.find?_eq_none] using h
  simp only [commonBallot, this]

end LedgerCommit
