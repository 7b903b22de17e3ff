/-!
# Broadcasts

Everything that is broadcast is seen by every listener from the moment it
begins to listen. Only the newest items are kept for listeners that fall
behind: as many as the capacity rounded up to a power of two.
-/

namespace LedgerCommit

/-- What a listener hears. -/
inductive Heard (α : Type) where
  | item (x : α)
  /-- So many items were missed. -/
  | lagged (count : Nat)
  | closed
  deriving DecidableEq

/-- A broadcast with everything sent so far and, for each listener, the
number of items it has passed. -/
structure Broadcast (α : Type) where
  capacity : Nat
  sent : List α
  listeners : List Nat
  deriving DecidableEq

namespace Broadcast

variable {α : Type}

def empty (capacity : Nat) : Broadcast α := ⟨capacity, [], []⟩

/-- The number of items that are kept. -/
def retention (b : Broadcast α) : Nat := b.capacity.nextPowerOfTwo

def send (b : Broadcast α) (x : α) : Broadcast α := { b with sent := b.sent ++ [x] }

/-- Begin to listen. Gives the number of the listener. -/
def subscribe (b : Broadcast α) : Nat × Broadcast α :=
  (b.listeners.length, { b with listeners := b.listeners ++ [b.sent.length] })

/-- What a listener that has passed `seen` items hears: how many of the items
since then are no longer kept, and the others. -/
def since (b : Broadcast α) (seen : Nat) : List (Heard α) :=
  let missed := (b.sent.length - b.retention) - seen
  let heard := (b.sent.drop (seen + missed)).map Heard.item
  if missed = 0 then heard else .lagged missed :: heard

def listen (b : Broadcast α) (listener : Nat) (closed : Bool) : List (Heard α) × Broadcast α :=
  match b.listeners[listener]? with
  | none => ([], b)
  | some seen =>
      (b.since seen ++ (if closed then [.closed] else []),
        { b with listeners := b.listeners.set listener b.sent.length })

end Broadcast

end LedgerCommit
