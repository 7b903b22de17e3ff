import LedgerCommit.FaultModel
import LedgerCommit.Signing
import LedgerCommit.Store

/-!
# Validation of downloaded chains

A block is certified on top of a ledger when it is the next one in height,
links to the top, has the hash of its contents, and carries seals of peers of
the ledger only, all of them valid and by a supermajority of the peers. The
checks are made in this order and the first that fails is reported.

A chain is taken block by block: each block is checked against the ledger
that the blocks before it have left, and applied at once.
-/

namespace LedgerCommit

/-- Why a block is not certified on top of a ledger. -/
inductive BlockError where
  | unexpectedHeight (top actual : UInt64)
  | brokenLink (height : UInt64)
  | hashMismatch (height : UInt64)
  | invalidSeal (height : UInt64) (signer : PublicKey)
  | unknownSigner (height : UInt64) (signer : PublicKey)
  | noSupermajority (height : UInt64) (signers peers : Nat)
  deriving DecidableEq

def BlockError.message : BlockError → String
  | unexpectedHeight top actual =>
      "block at height " ++ toString actual ++ " does not follow top height " ++ toString top
  | brokenLink height => "block " ++ toString height ++ " does not link to the ledger top"
  | hashMismatch height => "block " ++ toString height ++ " hash does not match its contents"
  | invalidSeal height signer =>
      "block " ++ toString height ++ " carries an invalid signature from " ++ signer.toHex
  | unknownSigner height signer =>
      "block " ++ toString height ++ " is signed by " ++ signer.toHex
        ++ ", which is not a ledger peer"
  | noSupermajority height signers peers =>
      "block " ++ toString height ++ " has " ++ toString signers ++ " peer signatures out of "
        ++ toString peers ++ ", no supermajority"

/-- The keys of a list, each one once. -/
def distinctKeys : List PublicKey → List PublicKey
  | [] => []
  | k :: ks => if k ∈ ks then distinctKeys ks else k :: distinctKeys ks

@[simp]
theorem mem_distinctKeys {k : PublicKey} {ks : List PublicKey} :
    k ∈ distinctKeys ks ↔ k ∈ ks := by
  induction ks with
  | nil => rfl
  | cons a ks ih =>
      rw [distinctKeys]
      split
      next h => rw [ih, List.mem_cons]; exact ⟨Or.inr, fun hk => hk.elim (· ▸ h) id⟩
      next => rw [List.mem_cons, List.mem_cons, ih]

theorem nodup_distinctKeys (ks : List PublicKey) : (distinctKeys ks).Nodup := by
  induction ks with
  | nil => exact List.nodup_nil
  | cons a ks ih =>
      rw [distinctKeys]
      split
      next => exact ih
      next h => exact List.nodup_cons.mpr ⟨by simpa using h, ih⟩

namespace Validation

/-- Check the seals of a block from the first one on: each has to be by a
peer of the ledger, and valid. -/
def checkSeals (b : Block) (l : Ledger) : List Seal → Except BlockError Unit
  | [] => .ok ()
  | s :: rest =>
      if ¬ l.hasPeer s.signer then .error (.unknownSigner b.height s.signer)
      else if ¬ s.valid b.hash then .error (.invalidSeal b.height s.signer)
      else checkSeals b l rest

/-- Check what does not depend on the seals, given the height that is next. -/
def checkContents (b : Block) (l : Ledger) (next : UInt64) : Except BlockError Unit :=
  if b.height ≠ next then .error (.unexpectedHeight l.height b.height)
  else if b.prev ≠ l.tip.hash then .error (.brokenLink b.height)
  else if b.hash ≠ b.contentHash then .error (.hashMismatch b.height)
  else .ok ()

def checkQuorum (m : FaultModel) (b : Block) (l : Ledger) : Except (Fault BlockError) Unit :=
  let signers := (distinctKeys b.signers).length
  match m.isSupermajority signers l.peers.length with
  | .error o => .error (.overflow o)
  | .ok true => .ok ()
  | .ok false => .error (.failed (.noSupermajority b.height signers l.peers.length))

/-- Check that a block is certified on top of a ledger. -/
def check (m : FaultModel) (b : Block) (l : Ledger) : Except (Fault BlockError) Unit := do
  let next ← (checkedAdd l.height 1).mapError .overflow
  (checkContents b l next).mapError .failed
  (checkSeals b l b.seals).mapError .failed
  checkQuorum m b l

/-- Take a chain into a transaction, block by block, until one is refused.
Gives whether all were taken. -/
def absorb (m : FaultModel) : Transaction → List Block → Except Overflow (Bool × Transaction)
  | tx, [] => .ok (true, tx)
  | tx, b :: rest =>
      match check m b tx.ledger with
      | .error (.overflow o) => .error o
      | .error (.failed _) => .ok (false, tx)
      | .ok () =>
          match tx.apply b with
          | .error (.overflow o) => .error o
          | .error (.failed _) => .ok (false, tx)
          | .ok tx => absorb m tx rest

theorem checkSeals_eq_ok_iff {b : Block} {l : Ledger} {seals : List Seal} :
    checkSeals b l seals = .ok () ↔
      ∀ s ∈ seals, l.hasPeer s.signer = true ∧ s.valid b.hash = true := by
  induction seals with
  | nil => simp [checkSeals]
  | cons s rest ih =>
      rw [checkSeals]
      by_cases hp : l.hasPeer s.signer = true
      · by_cases hv : s.valid b.hash = true
        · simp [hp, hv, ih]
        · simp [hp, hv]
      · simp [hp]

end Validation

end LedgerCommit
