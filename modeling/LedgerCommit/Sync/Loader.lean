import LedgerCommit.Block

/-!
# Block loaders

A loader fetches from a peer the blocks above a height; what it answers may
be any finite list, and asking may change the loader. The scripted loader
answers from chains and queued answers given beforehand and keeps a record of
what it was asked.
-/

namespace LedgerCommit

/-- A way to fetch blocks, with the states it passes through. -/
structure Loader (σ : Type) where
  /-- The blocks that a peer hands out above a height. -/
  retrieve : σ → UInt64 → PublicKey → List Block × σ

structure BlockRequest where
  peer : PublicKey
  height : UInt64
  deriving DecidableEq

def blocksAbove (height : UInt64) (chain : List Block) : List Block :=
  chain.filter (height < ·.height)

/-- What a scripted loader knows. -/
structure Script where
  chains : List (PublicKey × List Block)
  /-- Answers still to be given, each to one request to its peer, in order. -/
  answers : List (PublicKey × List Block)
  requests : List BlockRequest

namespace Script

def empty : Script := ⟨[], [], []⟩

/-- Let a peer serve a chain, in place of the one before. -/
def serve (s : Script) (peer : PublicKey) (chain : List Block) : Script :=
  { s with chains := (peer, chain) :: s.chains.filter (·.1 ≠ peer) }

def push (s : Script) (peer : PublicKey) (answer : List Block) : Script :=
  { s with answers := s.answers ++ [(peer, answer)] }

/-- The chain that a peer serves; nothing, if none was given. -/
def chainOf (s : Script) (peer : PublicKey) : List Block :=
  (s.chains.lookup peer).getD []

/-- Answer a request: with the first answer queued for the peer, and else
from the chain it serves. -/
def retrieve (s : Script) (height : UInt64) (peer : PublicKey) : List Block × Script :=
  let s : Script := { s with requests := s.requests ++ [⟨peer, height⟩] }
  match s.answers.find? (·.1 = peer) with
  | some answer => (answer.2, { s with answers := s.answers.eraseP (·.1 = peer) })
  | none => (blocksAbove height (s.chainOf peer), s)

def loader : Loader Script := ⟨retrieve⟩

end Script

end LedgerCommit
