/-!
# Mailboxes

A mailbox is a bounded queue between one sending and one receiving side.
Nothing is lost in it and the order is kept. A receiver takes what is left
before it notices that the sending side is gone; what is left when the
receiving side goes is lost.
-/

namespace LedgerCommit

/-- A bounded queue with the two sides that share it. -/
structure Mailbox (α : Type) where
  capacity : Nat
  /-- What was sent and not yet taken, oldest first. -/
  items : List α
  hasSender : Bool
  hasReceiver : Bool
  deriving DecidableEq

inductive Offered where
  | accepted
  | full
  /-- The receiving side is gone. -/
  | closed
  deriving DecidableEq, Repr

namespace Mailbox

variable {α : Type}

def empty (capacity : Nat) : Mailbox α := ⟨capacity, [], true, true⟩

def hasRoom (m : Mailbox α) : Bool := m.items.length < m.capacity

/-- Put an item at the end, without regard to room. -/
def push (m : Mailbox α) (x : α) : Mailbox α := { m with items := m.items ++ [x] }

def offer (m : Mailbox α) (x : α) : Offered × Mailbox α :=
  if ¬ m.hasReceiver then (.closed, m)
  else if m.hasRoom then (.accepted, m.push x)
  else (.full, m)

def dropSender (m : Mailbox α) : Mailbox α := { m with hasSender := false }

def dropReceiver (m : Mailbox α) : Mailbox α := { m with hasReceiver := false, items := [] }

/-- Whether the receiver finds nothing and will never find anything again. -/
def isDone (m : Mailbox α) : Bool := m.items.isEmpty && !m.hasSender

/-- The mailbox, its sending side being gone unless it is alive. -/
def fedBy (m : Mailbox α) (alive : Bool) : Mailbox α := if alive then m else m.dropSender

/-- The mailbox, its receiving side being gone unless it is alive. -/
def keptBy (m : Mailbox α) (alive : Bool) : Mailbox α := if alive then m else m.dropReceiver

def takeUpTo (m : Mailbox α) (n : Nat) : List α × Mailbox α :=
  (m.items.take n, { m with items := m.items.drop n })

@[simp]
theorem items_fedBy (m : Mailbox α) (alive : Bool) : (m.fedBy alive).items = m.items := by
  cases alive <;> rfl

@[simp]
theorem hasReceiver_fedBy (m : Mailbox α) (alive : Bool) :
    (m.fedBy alive).hasReceiver = m.hasReceiver := by
  cases alive <;> rfl

theorem hasSender_fedBy (m : Mailbox α) (alive : Bool) :
    (m.fedBy alive).hasSender = (m.hasSender && alive) := by
  cases alive with
  | true => exact (Bool.and_true _).symm
  | false => exact (Bool.and_false _).symm

@[simp]
theorem hasSender_keptBy (m : Mailbox α) (alive : Bool) :
    (m.keptBy alive).hasSender = m.hasSender := by
  cases alive <;> rfl

theorem hasReceiver_keptBy (m : Mailbox α) (alive : Bool) :
    (m.keptBy alive).hasReceiver = (m.hasReceiver && alive) := by
  cases alive with
  | true => exact (Bool.and_true _).symm
  | false => exact (Bool.and_false _).symm

end Mailbox

end LedgerCommit
