import LedgerCommit.Crypto.Blake2b

/-!
# ChaCha with eight rounds

An unbounded stream of 32-bit words determined by a key of 32 bytes: block
`n` mixes the constant, the key and the number `n` and gives sixteen words.
-/

namespace LedgerCommit.ChaCha

abbrev Block := Vector UInt32 16

def rotateLeft (x k : UInt32) : UInt32 := (x <<< k) ||| (x >>> (32 - k))

def quarterRound (v : Block) (a b c d : Fin 16) : Block :=
  let va := v.get a + v.get b
  let vd := rotateLeft (v.get d ^^^ va) 16
  let vc := v.get c + vd
  let vb := rotateLeft (v.get b ^^^ vc) 12
  let va := va + vb
  let vd := rotateLeft (vd ^^^ va) 8
  let vc := vc + vd
  let vb := rotateLeft (vb ^^^ vc) 7
  (((v.setIfInBounds a va).setIfInBounds b vb).setIfInBounds c vc).setIfInBounds d vd

/-- A round on the four columns followed by one on the four diagonals. -/
def doubleRound (v : Block) : Block :=
  let v := quarterRound v 0 4 8 12
  let v := quarterRound v 1 5 9 13
  let v := quarterRound v 2 6 10 14
  let v := quarterRound v 3 7 11 15
  let v := quarterRound v 0 5 10 15
  let v := quarterRound v 1 6 11 12
  let v := quarterRound v 2 7 8 13
  quarterRound v 3 4 9 14

/-- The words a block starts from: the constant, the key and the block's
number as two words; the last two words are zero. -/
def start (key : Bytes 32) (number : Nat) : Block :=
  let word (i : Nat) : UInt32 := UInt32.ofNat (ofLittleEndian ((key.toList.drop (4 * i)).take 4))
  #v[0x61707865, 0x3320646e, 0x79622d32, 0x6b206574,
    word 0, word 1, word 2, word 3, word 4, word 5, word 6, word 7,
    UInt32.ofNat number, UInt32.ofNat (number / UInt32.size), 0, 0]

def blockWords (key : Bytes 32) (number : Nat) : List UInt32 :=
  let s := start key number
  let v := doubleRound (doubleRound (doubleRound (doubleRound s)))
  (s.zipWith (· + ·) v).toList

/-- A position in the stream of a key: the words left of the current block,
and the number of the next block. -/
structure Stream where
  key : Bytes 32
  number : Nat
  left : List UInt32

def Stream.ofKey (key : Bytes 32) : Stream := ⟨key, 0, []⟩

def Stream.next (s : Stream) : UInt32 × Stream :=
  match s.left with
  | w :: ws => (w, { s with left := ws })
  | [] =>
      match blockWords s.key s.number with
      | w :: ws => (w, ⟨s.key, s.number + 1, ws⟩)
      | [] => (0, s)

end LedgerCommit.ChaCha
