import LedgerCommit.Crypto.Ed25519
import LedgerCommit.Block
import LedgerCommit.Ledger
import LedgerCommit.Overflow

/-!
# Signing

Key pairs grow from secret seeds. A seal is made by signing the hash of a
block, and it is valid when its signature belongs to that hash and its key.
The module also builds chains sealed by a fixed set of keys.
-/

namespace LedgerCommit

def PublicKey.ofSeed (seed : Bytes 32) : PublicKey :=
  ⟨(Bytes.ofList? 32 (Ed25519.publicKey seed.toList)).getD (Vector.replicate 32 0)⟩

/-- A secret seed together with its public key. -/
structure KeyPair where
  seed : Bytes 32
  publicKey : PublicKey
  publicKey_eq : publicKey = PublicKey.ofSeed seed := by rfl

namespace KeyPair

def ofSeed (seed : Bytes 32) : KeyPair := { seed, publicKey := PublicKey.ofSeed seed }

/-- `n` key pairs whose seeds repeat the byte 1, 2, and so on. -/
def numbered (n : Nat) : List KeyPair :=
  (List.range n).map fun i => ofSeed (Vector.replicate 32 (UInt8.ofNat (i + 1)))

def sign (k : KeyPair) (message : List UInt8) : Signature :=
  ⟨(Bytes.ofList? 64 (Ed25519.sign k.seed.toList k.publicKey.bytes.toList message)).getD
    (Vector.replicate 64 0)⟩

def sealHash (k : KeyPair) (h : Hash) : Seal := ⟨k.publicKey, k.sign h.bytes.toList⟩

end KeyPair

def Signature.valid (s : Signature) (message : List UInt8) (k : PublicKey) : Bool :=
  Ed25519.verify k.bytes.toList message s.bytes.toList

def Seal.valid (s : Seal) (h : Hash) : Bool := s.signature.valid h.bytes.toList s.signer

namespace Block

def sealAll (b : Block) (signers : List KeyPair) : Block :=
  signers.foldl (fun b k => b.addSeal (k.sealHash b.hash)) b

/-- The block at a height of a sealed chain: its time is a thousand times the
height, its payload are the bytes of the height. -/
def sealedAt (signers : List KeyPair) (prev : Hash) (height : UInt64) : Except Overflow Block :=
  (checkedMul height 1000).map fun time =>
    (build height prev time (wordBytes height)).sealAll signers

def sealedAbove (signers : List KeyPair) (top : UInt64) (prev : Hash) :
    Nat → Except Overflow (List Block)
  | 0 => .ok []
  | count + 1 => do
      let b ← sealedAt signers prev (top + 1)
      let rest ← sealedAbove signers (top + 1) b.hash count
      return b :: rest

/-- The chain of `count` blocks on top of a tip, each sealed by every signer.
All heights up to the last one have to fit. -/
def sealedChain (tip : Tip) (count : UInt64) (signers : List KeyPair) :
    Except Overflow (List Block) := do
  let _ ← checkedAdd tip.height 1
  let _ ← checkedAdd tip.height count
  sealedAbove signers tip.height tip.hash count.toNat

end Block

end LedgerCommit
