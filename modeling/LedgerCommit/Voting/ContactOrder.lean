import LedgerCommit.Ledger
import LedgerCommit.Shuffle

/-!
# Contact orders

In which order the peers are contacted in a round. An order is never empty
and has a leader, which moves on through the peers and around. The usual
order is the shuffle seeded with the hash of the block voted for, so nodes
that vote for the same block find the same order.
-/

namespace LedgerCommit

/-- A nonempty list of peers with the position of the leader. -/
structure ContactOrder where
  peers : List Peer
  position : Nat
  position_lt : position < peers.length := by simp
  deriving DecidableEq

namespace ContactOrder

/-- The peers in the given order, the first one leading; none without peers. -/
def ofPeers? : List Peer → Option ContactOrder
  | [] => none
  | p :: ps => some { peers := p :: ps, position := 0 }

def seeded (seed : Hash) (peers : List Peer) : Option ContactOrder :=
  ofPeers? (Shuffle.shuffle seed peers)

def leader (o : ContactOrder) : Peer := o.peers.get ⟨o.position, o.position_lt⟩

def hasNext (o : ContactOrder) : Bool := o.position + 1 < o.peers.length

/-- The order with the next peer leading; the first one follows the last. -/
def next (o : ContactOrder) : ContactOrder where
  peers := o.peers
  position := (o.position + 1) % o.peers.length
  position_lt := Nat.mod_lt _ (Nat.zero_lt_of_lt o.position_lt)

theorem peers_of_ofPeers? {ps : List Peer} {o : ContactOrder} (h : ofPeers? ps = some o) :
    o.peers = ps ∧ o.position = 0 := by
  cases ps with
  | nil => cases h
  | cons p ps => cases h; exact ⟨rfl, rfl⟩

theorem ofPeers?_eq_none_iff {ps : List Peer} : ofPeers? ps = none ↔ ps = [] := by
  cases ps <;> simp [ofPeers?]

/-- Only without peers there is no order. -/
theorem seeded_eq_none_iff {seed : Hash} {ps : List Peer} : seeded seed ps = none ↔ ps = [] := by
  rw [seeded, ofPeers?_eq_none_iff, ← List.length_eq_zero_iff, Shuffle.length_shuffle,
    List.length_eq_zero_iff]

/-- A seeded order has all the peers, and its first one leads. -/
theorem perm_of_seeded {seed : Hash} {ps : List Peer} {o : ContactOrder}
    (h : seeded seed ps = some o) : o.peers.Perm ps ∧ o.position = 0 := by
  obtain ⟨hpeers, hposition⟩ := peers_of_ofPeers? h
  rw [hpeers]
  exact ⟨Shuffle.perm_shuffle seed ps, hposition⟩

end ContactOrder

structure OneShot (α : Type) where
  value : Option α
  deriving DecidableEq

namespace OneShot

variable {α : Type}

def consumed : OneShot α := ⟨none⟩

def isConsumed (s : OneShot α) : Bool := s.value.isNone

def take (s : OneShot α) : Option α × OneShot α := (s.value, consumed)

end OneShot

end LedgerCommit
