import LedgerCommit.Sync.Loader
import LedgerCommit.Sync.Validation
import LedgerCommit.Voting.Decision

/-!
# The synchronizer

The synchronizer makes each decision true of the store. The block this node
voted for is committed, directly if it is prepared. Any other agreed chain is
downloaded from the signers of the decision, in their order, and committed as
one transaction once it reaches the height that the decision asks for.

A download that falls short leaves the committed chain as it was; a later
decision tries again.
-/

namespace LedgerCommit

/-- Why a download did not end in a commit. -/
inductive SyncError where
  | block (cause : BlockError)
  /-- No peer supplied the chain; the transaction stopped short of the target. -/
  | peersExhausted (target reached : UInt64)
  | store (cause : StoreError)
  deriving DecidableEq

def SyncError.message : SyncError → String
  | block cause => cause.message
  | peersExhausted target reached =>
      "no peer supplied the chain up to height " ++ toString target ++ ", stopped at "
        ++ toString reached
  | store cause => "storage error: " ++ cause.message

/-- What resolving a decision did to the ledger. -/
inductive SyncResult where
  | commit
  | reject
  | nothing
  deriving DecidableEq, Repr

/-- The event that reports a resolved decision. -/
structure SyncEvent where
  result : SyncResult
  round : Round
  ledger : Ledger
  deriving DecidableEq

structure SyncPolicy where
  /-- The fault model that seals are counted under. -/
  model : FaultModel
  /-- How often one peer is asked while it keeps delivering valid blocks. -/
  maxRequests : Nat

/-- What a run over a store and a loader leaves. -/
structure Run (σ α : Type) where
  result : α
  store : Store
  loader : σ

namespace Synchronizer

variable {σ : Type}

/-! ## Committing the held block -/

/-- Apply a block to a fresh transaction and commit it. -/
def applyAndCommit (s : Store) (b : Block) : Except (Fault StoreError) Ledger × Store :=
  let (tx, s) := s.openTransaction
  match tx.apply b with
  | .error e => (.error e, s)
  | .ok tx =>
      let (r, s) := s.commit tx
      (r.mapError .failed, s)

/-- Commit a block, through the prepared path if the store uses it and the
block is the prepared one, and otherwise by a transaction. -/
def commitHeld (s : Store) (b : Block) : Except (Fault StoreError) Ledger × Store :=
  if s.usesPrepared then
    match s.commitPrepared b with
    | (.ok l, s) => (.ok l, s)
    | (.error _, s) => applyAndCommit s b
  else applyAndCommit s b

/-! ## Downloading a chain -/

/-- Ask one peer, at most `n` times, until the transaction reaches the
target. Gives whether it did, with the last answer valid to its end. The peer
is asked again only while its answers are valid and bring new blocks. -/
def askPeer (L : Loader σ) (m : FaultModel) (target : UInt64) (peer : PublicKey) :
    Nat → Transaction → σ → Except Overflow (Bool × Transaction) × σ
  | 0, tx, l => (.ok (false, tx), l)
  | n + 1, tx, l =>
      let (blocks, l) := L.retrieve l tx.ledger.height peer
      match Validation.absorb m tx blocks with
      | .error o => (.error o, l)
      | .ok (valid, tx') =>
          if valid && target ≤ tx'.ledger.height then (.ok (true, tx'), l)
          else if valid && tx.ledger.height < tx'.ledger.height then
            askPeer L m target peer n tx' l
          else (.ok (false, tx'), l)

/-- Ask the peers in turn until the transaction reaches the target. -/
def askPeers (L : Loader σ) (p : SyncPolicy) (target : UInt64) :
    List PublicKey → Transaction → σ → Except Overflow (Bool × Transaction) × σ
  | [], tx, l => (.ok (false, tx), l)
  | peer :: peers, tx, l =>
      match askPeer L p.model target peer p.maxRequests tx l with
      | (.ok (false, tx), l) => askPeers L p target peers tx l
      | stop => stop

/-- Download the chain up to `target` from the peers and commit it. One
transaction spans all requests, so what one peer delivered is kept when the
next one is asked. Without a result the ledger had reached the target.
`_start` is the height that the decision was made at: the download sets out
from the committed height all the same. -/
def download (L : Loader σ) (p : SyncPolicy) (s : Store) (l : σ) (target : UInt64)
    (peers : List PublicKey) (_start : UInt64 := s.ledger.height) :
    Run σ (Except (Fault SyncError) (Option Ledger)) :=
  let (tx, s) := s.openTransaction
  if target ≤ tx.ledger.height then ⟨.ok none, s, l⟩
  else
    match askPeers L p target peers tx l with
    | (.error o, l) => ⟨.error (.overflow o), s, l⟩
    | (.ok (false, tx), l) =>
        ⟨.error (.failed (.peersExhausted target tx.ledger.height)), s, l⟩
    | (.ok (true, tx), l) =>
        let (r, s) := s.commit tx
        ⟨(r.map some).mapError fun e => .failed (.store e), s, l⟩

/-! ## Resolving decisions -/

/-- The event for a commit, and none for a failure; an overflow stays one. -/
def commitEvent {ε : Type} (round : Round) :
    Except (Fault ε) (Option Ledger) → Except Overflow (Option SyncEvent)
  | .ok l => .ok (l.map fun l => ⟨.commit, round, l⟩)
  | .error (.failed _) => .ok none
  | .error (.overflow o) => .error o

def catchUp (L : Loader σ) (p : SyncPolicy) (s : Store) (l : σ) (round : Round)
    (ledger : Ledger) (target : UInt64) (peers : List PublicKey) :
    Run σ (Except Overflow (Option SyncEvent)) :=
  let r := download L p s l target peers ledger.height
  ⟨commitEvent round r.result, r.store, r.loader⟩

/-- The height below a height; zero stays zero. -/
def heightBelow (h : UInt64) : UInt64 := if h = 0 then 0 else h - 1

/-- Make a decision true of the store. An agreed block is committed or
downloaded, a later round asks for the chain below it, and all other
decisions are reported as they are. Without an event nothing was committed. -/
def resolve (L : Loader σ) (p : SyncPolicy) (s : Store) (l : σ) (d : Decision) :
    Run σ (Except Overflow (Option SyncEvent)) :=
  match d with
  | .heldBlock round _ block =>
      let (r, s) := commitHeld s block
      ⟨commitEvent round (r.map some), s, l⟩
  | .otherBlock round ledger signers _ => catchUp L p s l round ledger round.height signers
  | .future round ledger signers =>
      catchUp L p s l round ledger (heightBelow round.height) signers
  | .nothing round ledger _ => ⟨.ok (some ⟨.nothing, round, ledger⟩), s, l⟩
  | .blockReject round ledger _ => ⟨.ok (some ⟨.reject, round, ledger⟩), s, l⟩
  | .proposalReject round ledger _ => ⟨.ok (some ⟨.reject, round, ledger⟩), s, l⟩

end Synchronizer

end LedgerCommit
