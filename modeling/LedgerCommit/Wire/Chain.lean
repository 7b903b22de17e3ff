import LedgerCommit.Block
import LedgerCommit.Ledger
import LedgerCommit.Round
import LedgerCommit.Wire.Codec

/-!
# Wire forms of blocks and ledgers

Hashes travel as arrays of bytes, keys and signatures as hexadecimal text,
and records as objects.
-/

namespace LedgerCommit

open Wire

instance : Wire Hash where
  encode h := encode h.bytes
  decode j := (decode j).map Hash.mk

/-- A text that a reader turns into a value. -/
def Wire.decodeHex {α : Type} (ofHex : String → Except Hex.ParseError α) (j : Json) :
    Except WireError α := do
  let s ← (decode j : Except WireError String)
  (ofHex s).mapError .hex

instance : Wire PublicKey where
  encode k := .str k.toHex
  decode := decodeHex PublicKey.ofHex

instance : Wire Signature where
  encode s := .str s.toHex
  decode := decodeHex Signature.ofHex

instance : Wire Round where
  encode r := .obj [("block_round", encode r.height), ("reject_round", encode r.attempt)]
  decode j := do
    let f ← readRecord [field UInt64 "block_round", field UInt64 "reject_round"] j 0
    return ⟨← required _ "block_round" f, ← required _ "reject_round" f⟩

instance : Wire Seal where
  encode s := .obj [("public_key", encode s.signer), ("signed_data", encode s.signature)]
  decode j := do
    let f ← readRecord [field PublicKey "public_key", field Signature "signed_data"] j 0
    return ⟨← required _ "public_key" f, ← required _ "signed_data" f⟩

instance : Wire Block where
  encode b := .obj [
    ("created_time", encode b.time), ("hash", encode b.hash), ("height", encode b.height),
    ("payload", encode b.payload), ("prev_hash", encode b.prev), ("signatures", encode b.seals)]
  decode j := do
    let f ← readRecord [
      field UInt64 "height", field Hash "prev_hash", field UInt64 "created_time",
      field (List UInt8) "payload", field Hash "hash", field (List Seal) "signatures"] j 0
    return {
      height := ← required _ "height" f
      prev := ← required _ "prev_hash" f
      time := ← required _ "created_time" f
      payload := ← required _ "payload" f
      hash := ← required _ "hash" f
      seals := ← required _ "signatures" f }

instance : Wire Peer where
  encode p := .obj [("address", encode p.address), ("public_key", encode p.key)]
  decode j := do
    let f ← readRecord [field String "address", field PublicKey "public_key"] j 0
    return ⟨← required _ "address" f, ← required _ "public_key" f⟩

instance : Wire Tip where
  encode t := .obj [("height", encode t.height), ("top_hash", encode t.hash)]
  decode j := do
    let f ← readRecord [field UInt64 "height", field Hash "top_hash"] j 0
    return ⟨← required _ "height" f, ← required _ "top_hash" f⟩

instance : Wire Ledger where
  encode l := .obj [("ledger_peers", encode l.peers), ("top_block_info", encode l.tip)]
  decode j := do
    let f ← readRecord [field (List Peer) "ledger_peers", field Tip "top_block_info"] j 0
    return ⟨← required _ "ledger_peers" f, ← required _ "top_block_info" f⟩

end LedgerCommit
