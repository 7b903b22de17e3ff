import LedgerCommit.Hash
import LedgerCommit.Key

/-!
# Ledger snapshots

A snapshot of the ledger holds its peers, in order, and its tip: height and
hash of the top block. Snapshots are values; a commit gives a new one.
-/

namespace LedgerCommit

/-- A peer of the ledger: its key and where it is reached. -/
structure Peer where
  address : String
  key : PublicKey
  deriving DecidableEq

namespace Peer

def text (p : Peer) : String := p.key.toHex ++ "@" ++ p.address

/-- Peers at consecutive ports of the loopback address, one for each key. -/
def loopback (keys : List PublicKey) : List Peer :=
  keys.mapIdx fun i k => ⟨"127.0.0.1:" ++ toString (10001 + i), k⟩

end Peer

/-- Height and hash of the top block of a chain. -/
structure Tip where
  height : UInt64
  hash : Hash
  deriving DecidableEq

/-- The ledger as of one commit. -/
structure Ledger where
  peers : List Peer
  tip : Tip
  deriving DecidableEq

namespace Ledger

def height (l : Ledger) : UInt64 := l.tip.height

def hasPeer (l : Ledger) (k : PublicKey) : Bool := l.peers.any (·.key = k)

theorem hasPeer_iff {l : Ledger} {k : PublicKey} :
    l.hasPeer k = true ↔ ∃ p ∈ l.peers, p.key = k := by
  simp [hasPeer]

end Ledger

end LedgerCommit
