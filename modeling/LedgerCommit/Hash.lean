import LedgerCommit.Text.Hex

/-!
# Hashes

A hash names a block or a proposal by 32 bytes. The all-zero hash is
reserved: it stands below the first block of a chain, and a vote for it is a
vote for nothing.
-/

namespace LedgerCommit

/-- The name of a block or of a proposal. -/
structure Hash where
  bytes : Bytes 32
  deriving DecidableEq

namespace Hash

/-- The hash that names nothing. -/
def zero : Hash := ⟨Vector.replicate 32 0⟩

instance : Inhabited Hash := ⟨zero⟩

def isZero (h : Hash) : Bool := h = zero

def compare (a b : Hash) : Ordering := a.bytes.compare b.bytes

def toHex (h : Hash) : String := Hex.encode h.bytes.toList

def ofHex (s : String) : Except Hex.ParseError Hash := (Hex.parse 32 s).map Hash.mk

/-- The short text of a hash: its first four bytes. -/
def brief (h : Hash) : String := "Hash(" ++ Hex.encode (h.bytes.toList.take 4) ++ "…)"

theorem isZero_iff {h : Hash} : h.isZero = true ↔ h = zero := by
  simp [isZero]

end Hash

end LedgerCommit
