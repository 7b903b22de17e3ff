import LedgerCommit.Text.Hex

/-!
# Keys and signatures

A public key names a peer and the signer of a vote or of a block; a
signature is 64 bytes. Both are written as hexadecimal text.
-/

namespace LedgerCommit

/-- The key that names a peer and checks its signatures. -/
structure PublicKey where
  bytes : Bytes 32
  deriving DecidableEq

namespace PublicKey

def compare (a b : PublicKey) : Ordering := a.bytes.compare b.bytes

def toHex (k : PublicKey) : String := Hex.encode k.bytes.toList

def ofHex (s : String) : Except Hex.ParseError PublicKey := (Hex.parse 32 s).map PublicKey.mk

/-- The short text of a key: its first four bytes. -/
def brief (k : PublicKey) : String := "PublicKey(" ++ Hex.encode (k.bytes.toList.take 4) ++ "…)"

end PublicKey

structure Signature where
  bytes : Bytes 64
  deriving DecidableEq

namespace Signature

def toHex (s : Signature) : String := Hex.encode s.bytes.toList

def ofHex (s : String) : Except Hex.ParseError Signature := (Hex.parse 64 s).map Signature.mk

def brief (s : Signature) : String := "Signature(" ++ Hex.encode (s.bytes.toList.take 4) ++ "…)"

end Signature

end LedgerCommit
