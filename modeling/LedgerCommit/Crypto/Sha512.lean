import LedgerCommit.Crypto.Blake2b

/-!
# SHA-512

The hash function SHA-512. The message is followed by one set
bit, zeros and its length in bits, and cut into blocks of 128 bytes; each
is mixed into a state of eight words.
-/

namespace LedgerCommit.Sha512

abbrev State := Vector UInt64 8

/-- The words that Blake2b starts from, too. -/
def initial : State := Blake2b.initial

/-- The first 64 bits of the fractional parts of the cube roots of the first
eighty primes. -/
def constants : List UInt64 := [
    0x428a2f98d728ae22, 0x7137449123ef65cd, 0xb5c0fbcfec4d3b2f, 0xe9b5dba58189dbbc,
    0x3956c25bf348b538, 0x59f111f1b605d019, 0x923f82a4af194f9b, 0xab1c5ed5da6d8118,
    0xd807aa98a3030242, 0x12835b0145706fbe, 0x243185be4ee4b28c, 0x550c7dc3d5ffb4e2,
    0x72be5d74f27b896f, 0x80deb1fe3b1696b1, 0x9bdc06a725c71235, 0xc19bf174cf692694,
    0xe49b69c19ef14ad2, 0xefbe4786384f25e3, 0x0fc19dc68b8cd5b5, 0x240ca1cc77ac9c65,
    0x2de92c6f592b0275, 0x4a7484aa6ea6e483, 0x5cb0a9dcbd41fbd4, 0x76f988da831153b5,
    0x983e5152ee66dfab, 0xa831c66d2db43210, 0xb00327c898fb213f, 0xbf597fc7beef0ee4,
    0xc6e00bf33da88fc2, 0xd5a79147930aa725, 0x06ca6351e003826f, 0x142929670a0e6e70,
    0x27b70a8546d22ffc, 0x2e1b21385c26c926, 0x4d2c6dfc5ac42aed, 0x53380d139d95b3df,
    0x650a73548baf63de, 0x766a0abb3c77b2a8, 0x81c2c92e47edaee6, 0x92722c851482353b,
    0xa2bfe8a14cf10364, 0xa81a664bbc423001, 0xc24b8b70d0f89791, 0xc76c51a30654be30,
    0xd192e819d6ef5218, 0xd69906245565a910, 0xf40e35855771202a, 0x106aa07032bbd1b8,
    0x19a4c116b8d2d0c8, 0x1e376c085141ab53, 0x2748774cdf8eeb99, 0x34b0bcb5e19b48a8,
    0x391c0cb3c5c95a63, 0x4ed8aa4ae3418acb, 0x5b9cca4f7763e373, 0x682e6ff3d6b2b8a3,
    0x748f82ee5defb2fc, 0x78a5636f43172f60, 0x84c87814a1f0ab72, 0x8cc702081a6439ec,
    0x90befffa23631e28, 0xa4506cebde82bde9, 0xbef9a3f7b2c67915, 0xc67178f2e372532b,
    0xca273eceea26619c, 0xd186b8c721c0c207, 0xeada7dd6cde0eb1e, 0xf57d4f7fee6ed178,
    0x06f067aa72176fba, 0x0a637dc5a2c898a6, 0x113f9804bef90dae, 0x1b710b35131c471b,
    0x28db77f523047d84, 0x32caab7b40c72493, 0x3c9ebe0a15c9bebc, 0x431d67c49c100d4c,
    0x4cc5d4becb3e42b6, 0x597f299cfc657e2a, 0x5fcb6fab3ad6faec, 0x6c44198c4a475817]

def rotateRight (x k : UInt64) : UInt64 := (x >>> k) ||| (x <<< (64 - k))

def ofBigEndian (bs : List UInt8) : Nat := bs.foldl (fun n b => 256 * n + b.toNat) 0

/-- The last sixteen words of the message schedule moved on by one word. -/
def advance (w : Vector UInt64 16) : Vector UInt64 16 :=
  let a := w.get 1
  let b := w.get 14
  let s0 := rotateRight a 1 ^^^ rotateRight a 8 ^^^ (a >>> 7)
  let s1 := rotateRight b 19 ^^^ rotateRight b 61 ^^^ (b >>> 6)
  let next := w.get 0 + s0 + w.get 9 + s1
  Vector.ofFn fun i => if h : i.val + 1 < 16 then w[i.val + 1] else next

def step (s : State) (word constant : UInt64) : State :=
  let a := s.get 0
  let b := s.get 1
  let c := s.get 2
  let e := s.get 4
  let f := s.get 5
  let g := s.get 6
  let choice := (e &&& f) ^^^ (~~~ e &&& g)
  let majority := (a &&& b) ^^^ (a &&& c) ^^^ (b &&& c)
  let t1 := s.get 7 + (rotateRight e 14 ^^^ rotateRight e 18 ^^^ rotateRight e 41) + choice
    + constant + word
  let t2 := (rotateRight a 28 ^^^ rotateRight a 34 ^^^ rotateRight a 39) + majority
  #v[t1 + t2, a, b, c, s.get 3 + t1, e, f, g]

def rounds : List UInt64 → Vector UInt64 16 → State → State
  | [], _, s => s
  | k :: ks, w, s => rounds ks (advance w) (step s w[0] k)

def compress (h : State) (block : List UInt8) : State :=
  let w : Vector UInt64 16 :=
    Vector.ofFn fun i => UInt64.ofNat (ofBigEndian ((block.drop (8 * i.val)).take 8))
  let s := rounds constants w h
  h.zipWith (· + ·) s

/-- A message of `n` bytes is followed by a set bit, the fewest zeros that
fill a block, and its length in bits as sixteen bytes. -/
def padding (n : Nat) : List UInt8 :=
  0x80 :: List.replicate ((239 - n % 128) % 128) 0 ++ (littleEndian 16 (8 * n)).reverse

def absorb (h : State) (message : List UInt8) : State :=
  if _h : message = [] then h
  else absorb (compress h (message.take 128)) (message.drop 128)
termination_by message.length
decreasing_by
  have := List.length_pos_iff.mpr _h
  rw [List.length_drop]
  omega

def digest (message : List UInt8) : Bytes 64 :=
  let h := absorb initial (message ++ padding message.length)
  Vector.ofFn fun i => UInt8.ofNat (h[i.val / 8].toNat / Nat.pow 256 (7 - i.val % 8))

end LedgerCommit.Sha512
