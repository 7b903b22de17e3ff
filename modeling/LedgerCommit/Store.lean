import LedgerCommit.Block
import LedgerCommit.Ledger
import LedgerCommit.Overflow

/-!
# The store

The store holds the committed chain. A transaction is opened on top of it,
blocks are applied to the transaction, and a commit puts them on the chain,
provided that the chain has not moved since. A block prepared beforehand may
instead be committed directly. Two failures can be scripted: of the next
commit, and of every application of a block at some height.

The block at position `i` of the chain is meant to have height `i + 1`; the
store itself compares heights with the number of blocks.
-/

namespace LedgerCommit

/-- Why a commit failed. -/
inductive CommitFailure where
  | injected
  /-- The chain has moved since the transaction was opened. -/
  | moved (base : UInt64) (now : Nat)
  /-- A cause in the words of the backend. -/
  | other (reason : String)
  deriving DecidableEq, Repr

def CommitFailure.message : CommitFailure → String
  | injected => "injected failure"
  | moved base now =>
      "transaction opened at height " ++ toString base ++ " but chain is at " ++ toString now
  | other reason => reason

/-- Why the store refused an operation. Blocks are named by the backend. -/
inductive StoreError where
  | heightMismatch (height : UInt64) (top : Nat)
  | applyFailed (block : String)
  | commitFailed (cause : CommitFailure)
  | nothingApplied
  | notPrepared (block : String)
  | backend (reason : String)
  deriving DecidableEq, Repr

def StoreError.message : StoreError → String
  | heightMismatch height top =>
      "block at height " ++ toString height ++ " does not extend top height " ++ toString top
  | applyFailed block => "block " ++ block ++ " was rejected by the backend"
  | commitFailed cause => "commit failed: " ++ cause.message
  | nothingApplied => "nothing was applied to the mutable storage"
  | notPrepared block => "no prepared block: " ++ block
  | backend reason => "storage backend error: " ++ reason

/-! ## Transactions -/

/-- Blocks applied on top of a committed chain and not yet committed. -/
structure Transaction where
  /-- The height of the chain that the transaction was opened on. -/
  base : UInt64
  ledger : Ledger
  /-- The applied blocks, lowest first. -/
  pending : List Block
  /-- The height at which applying fails, if one was scripted. -/
  failAt : Option UInt64
  deriving DecidableEq

namespace Transaction

/-- The transaction with one more block, which has to be the next one in
height, to link to the top, and not to be at the scripted height. -/
def apply (tx : Transaction) (b : Block) : Except (Fault StoreError) Transaction :=
  match checkedAdd tx.ledger.height 1 with
  | .error o => .error (.overflow o)
  | .ok next =>
      if b.height ≠ next then
        .error (.failed (.heightMismatch b.height tx.ledger.height.toNat))
      else if b.prev ≠ tx.ledger.tip.hash ∨ tx.failAt = some b.height then
        .error (.failed (.applyFailed b.hash.toHex))
      else
        .ok { tx with
          ledger := { tx.ledger with tip := ⟨b.height, b.hash⟩ }
          pending := tx.pending ++ [b] }

theorem apply_eq_ok {tx tx' : Transaction} {b : Block} (h : tx.apply b = .ok tx') :
    tx'.pending = tx.pending ++ [b] ∧ tx'.ledger = { tx.ledger with tip := ⟨b.height, b.hash⟩ }
      ∧ tx'.base = tx.base ∧ tx'.failAt = tx.failAt
      ∧ b.height.toNat = tx.ledger.height.toNat + 1 ∧ b.prev = tx.ledger.tip.hash := by
  unfold apply at h
  split at h
  next => cases h
  next next hn =>
    split at h
    next => cases h
    next hh =>
      split at h
      next => cases h
      next hl =>
        cases h
        have hb : b.height = next := Decidable.not_not.mp hh
        refine ⟨rfl, rfl, rfl, rfl, ?_, ?_⟩
        · rw [hb, toNat_of_checkedAdd hn]
          rfl
        · exact Decidable.not_not.mp fun hp => hl (Or.inl hp)

end Transaction

/-! ## The committed chain -/

/-- The committed chain with what is prepared, scripted and counted. -/
structure Store where
  peers : List Peer
  /-- The committed blocks, lowest first. -/
  blocks : List Block
  /-- Whether a block was ever prepared. -/
  usesPrepared : Bool
  /-- The block that is prepared to be committed directly. -/
  prepared : Option Hash
  failNextCommit : Bool
  failApplyAt : Option UInt64
  opened : Nat
  commits : Nat
  preparedCommits : Nat
  deriving DecidableEq

namespace Store

def ofChain (peers : List Peer) (blocks : List Block) : Store where
  peers := peers
  blocks := blocks
  usesPrepared := false
  prepared := none
  failNextCommit := false
  failApplyAt := none
  opened := 0
  commits := 0
  preparedCommits := 0

/-- Height and hash of the last block; zero for the empty chain. -/
def tip (s : Store) : Tip :=
  match s.blocks.getLast? with
  | some b => ⟨b.height, b.hash⟩
  | none => ⟨0, Hash.zero⟩

def ledger (s : Store) : Ledger := ⟨s.peers, s.tip⟩

/-- The committed block at a height; the first block stands at height one. -/
def blockAt (s : Store) (height : UInt64) : Option Block :=
  if height = 0 then none else s.blocks[height.toNat - 1]?

def openTransaction (s : Store) : Transaction × Store :=
  (⟨s.ledger.height, s.ledger, [], s.failApplyAt⟩, { s with opened := s.opened + 1 })

def prepare (s : Store) (b : Block) : Store :=
  { s with usesPrepared := true, prepared := some b.hash }

def scriptCommitFailure (s : Store) : Store := { s with failNextCommit := true }

/-- Let every application of a block at a height fail, in transactions
opened from now on. -/
def scriptApplyFailure (s : Store) (height : UInt64) : Store :=
  { s with failApplyAt := some height }

/-- Commit a transaction. A scripted failure happens once, and only to a
transaction with blocks. -/
def commit (s : Store) (tx : Transaction) : Except StoreError Ledger × Store :=
  if tx.pending = [] then (.error .nothingApplied, s)
  else if s.failNextCommit then
    (.error (.commitFailed .injected), { s with failNextCommit := false })
  else if tx.base.toNat ≠ s.blocks.length then
    (.error (.commitFailed (.moved tx.base s.blocks.length)), s)
  else
    let s := { s with
      blocks := s.blocks ++ tx.pending, prepared := none, commits := s.commits + 1 }
    (.ok s.ledger, s)

/-- Commit the prepared block directly: it has to be this one, and the next
one in height. -/
def commitPrepared (s : Store) (b : Block) : Except StoreError Ledger × Store :=
  if s.prepared ≠ some b.hash then (.error (.notPrepared b.hash.toHex), s)
  else if b.height.toNat ≠ s.blocks.length + 1 then
    (.error (.heightMismatch b.height s.blocks.length), s)
  else
    let s := { s with
      blocks := s.blocks ++ [b], prepared := none, preparedCommits := s.preparedCommits + 1 }
    (.ok s.ledger, s)

/-! ## What a commit does to the chain -/

/-- A commit that fails leaves the chain and the counters as they were. -/
theorem commit_error {s s' : Store} {tx : Transaction} {e : StoreError}
    (h : s.commit tx = (.error e, s')) :
    s'.blocks = s.blocks ∧ s'.commits = s.commits ∧ s'.preparedCommits = s.preparedCommits
      ∧ s'.opened = s.opened := by
  unfold commit at h
  split at h
  next => cases h; exact ⟨rfl, rfl, rfl, rfl⟩
  next =>
    split at h
    next => cases h; exact ⟨rfl, rfl, rfl, rfl⟩
    next =>
      split at h
      next => cases h; exact ⟨rfl, rfl, rfl, rfl⟩
      next => cases h

/-- A commit that succeeds puts the pending blocks on the chain it was opened on. -/
theorem commit_ok {s s' : Store} {tx : Transaction} {l : Ledger}
    (h : s.commit tx = (.ok l, s')) :
    s'.blocks = s.blocks ++ tx.pending ∧ tx.pending ≠ [] ∧ tx.base.toNat = s.blocks.length
      ∧ s'.commits = s.commits + 1 ∧ s'.preparedCommits = s.preparedCommits
      ∧ l = s'.ledger := by
  unfold commit at h
  split at h
  next => cases h
  next hp =>
    split at h
    next => cases h
    next =>
      split at h
      next => cases h
      next hb =>
        cases h
        exact ⟨rfl, hp, Decidable.not_not.mp hb, rfl, rfl, rfl⟩

/-- A prepared commit that fails changes nothing. -/
theorem commitPrepared_error {s s' : Store} {b : Block} {e : StoreError}
    (h : s.commitPrepared b = (.error e, s')) : s' = s := by
  unfold commitPrepared at h
  split at h
  next => cases h; rfl
  next =>
    split at h
    next => cases h; rfl
    next => cases h

/-- A prepared commit that succeeds puts the block on the chain as the next one in height. -/
theorem commitPrepared_ok {s s' : Store} {b : Block} {l : Ledger}
    (h : s.commitPrepared b = (.ok l, s')) :
    s'.blocks = s.blocks ++ [b] ∧ b.height.toNat = s.blocks.length + 1 ∧ s'.peers = s.peers
      ∧ s'.commits = s.commits ∧ s'.preparedCommits = s.preparedCommits + 1
      ∧ l = s'.ledger := by
  unfold commitPrepared at h
  split at h
  next => cases h
  next =>
    split at h
    next => cases h
    next hh =>
      cases h
      exact ⟨rfl, Decidable.not_not.mp hh, rfl, rfl, rfl, rfl⟩

end Store

end LedgerCommit
