import LedgerCommit.Overflow

/-!
# Supermajorities

The fault model says how many of the peers may fail: one third of them when
they may lie, one half when they may only crash. A supermajority is a number
of peers any two of which overlap in more than the faulty ones.
-/

namespace LedgerCommit

/-- How peers may fail. -/
inductive FaultModel where
  /-- Peers may lie: `3 f + 1` peers bear `f` faults. -/
  | byzantine
  /-- Peers may stop: `2 f + 1` peers bear `f` faults. -/
  | crash
  deriving DecidableEq, Repr, Inhabited

namespace FaultModel

def names : List (String × FaultModel) := [("bft", byzantine), ("cft", crash)]

def name : FaultModel → String
  | byzantine => "bft"
  | crash => "cft"

/-- The number of peers that each fault takes. -/
def peersPerFault : FaultModel → Nat
  | byzantine => 3
  | crash => 2

/-- The number of faults that `all` peers bear. -/
def faults (m : FaultModel) (all : Nat) : Nat := (all - 1) / m.peersPerFault

/-- Whether `current` of `all` peers are a supermajority:
`current * k ≥ (k - 1) * (all - 1) + k` with `k` peers to a fault. Each
intermediate result has to fit. -/
def isSupermajority (m : FaultModel) (current all : Nat) : Except Overflow Bool :=
  if current > all ∨ all = 0 then .ok false
  else do
    let k := m.peersPerFault
    let reached ← fits .multiply (current * k)
    let rest ← fits .multiply ((k - 1) * (all - 1))
    let need ← fits .add (rest + k)
    return need ≤ reached

/-- The numbers up to one above `all` that are a supermajority of `all`. -/
def supermajorities (m : FaultModel) (all : Nat) : Except Overflow (List Nat) :=
  (List.range (all + 2)).filterM (m.isSupermajority · all)

end FaultModel

end LedgerCommit
