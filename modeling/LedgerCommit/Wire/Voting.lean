import LedgerCommit.Voting.Vote
import LedgerCommit.Wire.Chain

/-!
# Wire forms of votes and outcomes

A ballot carries its seal as `null` when it has none; the field may also be
missing from an object. An outcome is an object with a single field, which is
named for how the round ended and holds the votes.
-/

namespace LedgerCommit

open Wire

instance : Wire Choice where
  encode c := .obj [("block_hash", encode c.block), ("proposal_hash", encode c.proposal)]
  decode j := do
    let f ← readRecord [field Hash "proposal_hash", field Hash "block_hash"] j 0
    return ⟨← required _ "proposal_hash" f, ← required _ "block_hash" f⟩

instance : Wire Ballot where
  encode b := .obj [
    ("block_signature", encode b.blockSeal), ("vote_hashes", encode b.choice),
    ("vote_round", encode b.round)]
  decode j := do
    let f ← readRecord [
      field Round "vote_round", field Choice "vote_hashes",
      field (Option Seal) "block_signature"] j 0
    return {
      round := ← required _ "vote_round" f
      choice := ← required _ "vote_hashes" f
      blockSeal := ← orDefault "block_signature" none f }

instance : Wire Vote where
  encode v := .obj [("hash", encode v.ballot), ("signature", encode v.sign)]
  decode j := do
    let f ← readRecord [field Ballot "hash", field Seal "signature"] j 0
    return ⟨← required _ "hash" f, ← required _ "signature" f⟩

def Ending.names : List (String × Ending) :=
  [("Commit", .commit), ("Reject", .reject), ("Future", .future)]

def Ending.name : Ending → String
  | commit => "Commit"
  | reject => "Reject"
  | future => "Future"

instance : Wire Outcome where
  encode o := .obj [(o.ending.name, .obj [("votes", encode o.votes)])]
  decode
    | .obj [(name, j)] => do
        match entry? name Ending.names with
        | none => throw .shape
        | some ending =>
            let f ← readRecord [field (List Vote) "votes"] j 0
            return ⟨ending, ← required _ "votes" f⟩
    | _ => throw .shape

end LedgerCommit
