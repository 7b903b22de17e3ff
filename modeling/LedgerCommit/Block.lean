import LedgerCommit.Crypto.Blake2b
import LedgerCommit.Hash
import LedgerCommit.Key

/-!
# Blocks

A block names its height, the block below it, its creation time and a
payload; its hash is taken over exactly these. Seals are signatures over the
hash, collected after the block is built and no part of it.
-/

namespace LedgerCommit

/-- A peer's signature over the hash of a block. -/
structure Seal where
  signer : PublicKey
  signature : Signature
  deriving DecidableEq

/-- A block of the chain. -/
structure Block where
  height : UInt64
  /-- The hash of the block below. -/
  prev : Hash
  /-- Creation time in milliseconds since 1970. -/
  time : UInt64
  /-- The ordered transactions, uninterpreted. -/
  payload : List UInt8
  hash : Hash
  seals : List Seal
  deriving DecidableEq

namespace Block

/-- The bytes that the hash of a block is taken over: height, hash of the
block below, time, length of the payload, payload. -/
def preimage (height : UInt64) (prev : Hash) (time : UInt64) (payload : List UInt8) : List UInt8 :=
  wordBytes height ++ prev.bytes.toList ++ wordBytes time
    ++ littleEndian 8 payload.length ++ payload

def contentHash (b : Block) : Hash :=
  ⟨Blake2b.digest (preimage b.height b.prev b.time b.payload)⟩

/-- The block with the given contents, its hash filled in and without seals. -/
def build (height : UInt64) (prev : Hash) (time : UInt64) (payload : List UInt8) : Block :=
  { height, prev, time, payload, seals := []
    hash := ⟨Blake2b.digest (preimage height prev time payload)⟩ }

def signers (b : Block) : List PublicKey := b.seals.map Seal.signer

def sealedBy (b : Block) (k : PublicKey) : Bool := b.seals.any (·.signer = k)

/-- Add a seal, unless its key has sealed the block already. -/
def addSeal (b : Block) (s : Seal) : Block :=
  if b.sealedBy s.signer then b else { b with seals := b.seals ++ [s] }

theorem sealedBy_iff {b : Block} {k : PublicKey} : b.sealedBy k = true ↔ k ∈ b.signers := by
  simp [sealedBy, signers]

/-- Seals are no part of what is hashed. -/
@[simp]
theorem contentHash_addSeal (b : Block) (s : Seal) : (b.addSeal s).contentHash = b.contentHash := by
  unfold addSeal
  split <;> rfl

@[simp]
theorem hash_addSeal (b : Block) (s : Seal) : (b.addSeal s).hash = b.hash := by
  unfold addSeal
  split <;> rfl

theorem signers_addSeal (b : Block) (s : Seal) :
    (b.addSeal s).signers =
      if s.signer ∈ b.signers then b.signers else b.signers ++ [s.signer] := by
  by_cases h : s.signer ∈ b.signers
  · simp [addSeal, sealedBy_iff.mpr h, h]
  · have : b.sealedBy s.signer = false := by
      rw [← Bool.not_eq_true, sealedBy_iff]
      exact h
    rw [if_neg h, addSeal, this]
    simp [signers]

theorem nodup_signers_addSeal {b : Block} (s : Seal) (h : b.signers.Nodup) :
    (b.addSeal s).signers.Nodup := by
  rw [signers_addSeal]
  split
  next => exact h
  next hs =>
    rw [List.nodup_append]
    refine ⟨h, by simp, ?_⟩
    intro a ha c hc hac
    rw [List.mem_singleton] at hc
    exact hs (hc ▸ hac ▸ ha)

end Block

end LedgerCommit
