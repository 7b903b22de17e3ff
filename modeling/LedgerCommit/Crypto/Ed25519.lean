import LedgerCommit.Crypto.Sha512

/-!
# Ed25519

Signatures over the twisted Edwards curve `-x² + y² = 1 + d x² y²` modulo the
prime `2^255 - 19`. A secret seed of 32 bytes determines a scalar and a
public key, a signature is the encoding of a point followed by a scalar.

A signature is checked without the cofactor, by comparing the encoded point
byte for byte. A public key is accepted in every form that names a point of
the curve, whether or not its coordinate is reduced.
-/

namespace LedgerCommit.Ed25519

/-! ## The field -/

def prime : Nat := Nat.pow 2 255 - 19

instance : @NeZero Nat Zero.ofOfNat0 prime := ⟨by decide⟩

abbrev Field := Fin prime

/-- The power `b ^ e`, by repeated squaring. -/
def power (b : Field) (e : Nat) : Field :=
  if e = 0 then 1
  else
    let r := power (b * b) (e / 2)
    if e % 2 = 1 then b * r else r

/-- The inverse of a field element; zero is its own. -/
def inverse (a : Field) : Field := power a (prime - 2)

def rootOfMinusOne : Field := power 2 ((prime - 1) / 4)

/-- An element `x` with `v x² = u`, if there is one. -/
def rootOfRatio (u v : Field) : Option Field :=
  let x := u * power v 3 * power (u * power v 7) ((prime - 5) / 8)
  if v * x * x = u then some x
  else if v * x * x = 0 - u then some (x * rootOfMinusOne)
  else none

/-- The constant of the curve equation. -/
def curveD : Field := (0 - 121665) * inverse 121666

/-! ## The group -/

/-- A point of the curve in extended coordinates: `x / z`, `y / z`, and
`t = x y / z`. -/
structure Point where
  x : Field
  y : Field
  z : Field
  t : Field

namespace Point

def neutral : Point := ⟨0, 1, 1, 0⟩

def affine (x y : Field) : Point := ⟨x, y, 1, x * y⟩

def neg (p : Point) : Point := ⟨0 - p.x, p.y, p.z, 0 - p.t⟩

def twiceD : Field := curveD + curveD

/-- The sum of two points. The formula has no exceptional cases. -/
def add (p q : Point) : Point :=
  let a := (p.y - p.x) * (q.y - q.x)
  let b := (p.y + p.x) * (q.y + q.x)
  let c := p.t * twiceD * q.t
  let d := (p.z + p.z) * q.z
  let e := b - a
  let f := d - c
  let g := d + c
  let h := b + a
  ⟨e * f, g * h, f * g, e * h⟩

def double (p : Point) : Point :=
  let a := p.x * p.x
  let b := p.y * p.y
  let c := p.z * p.z
  let c := c + c
  let h := a + b
  let e := h - (p.x + p.y) * (p.x + p.y)
  let g := a - b
  let f := c + g
  ⟨e * f, g * h, f * g, e * h⟩

/-- The `n`-fold sum of a point, added to `acc`. -/
def scaleAdd (acc p : Point) (n : Nat) : Point :=
  if n = 0 then acc
  else scaleAdd (if n % 2 = 1 then add acc p else acc) (double p) (n / 2)

def scale (n : Nat) (p : Point) : Point := scaleAdd neutral p n

/-- A point and what follows it when each is the double of the one before,
`count` points in all. -/
def doubles : Nat → Point → List Point
  | 0, _ => []
  | count + 1, p => p :: doubles count p.double

/-- The sum of the points that stand at the binary digits one of `n`, added to
`acc`. -/
def addChosen (acc : Point) (n : Nat) : List Point → Point
  | [] => acc
  | p :: ps => addChosen (if n % 2 = 1 then add acc p else acc) (n / 2) ps

/-- The 32 bytes of a point: its `y` coordinate, and in the highest bit
whether its `x` coordinate is odd. -/
def encode (p : Point) : List UInt8 :=
  let zi := inverse p.z
  let x := p.x * zi
  let y := p.y * zi
  littleEndian 32 (y.val + (x.val % 2) * Nat.pow 2 255)

def decode (bs : List UInt8) : Option Point :=
  let n := ofLittleEndian bs
  let y : Field := Fin.ofNat prime (n % Nat.pow 2 255)
  let odd := n / Nat.pow 2 255 % 2
  (rootOfRatio (y * y - 1) (curveD * y * y + 1)).map fun x =>
    affine (if x.val % 2 = odd then x else 0 - x) y

@[simp]
theorem scaleAdd_zero (acc p : Point) : scaleAdd acc p 0 = acc := by
  rw [scaleAdd, if_pos rfl]

/-- Multiples can be found from doubles that are at hand. -/
theorem addChosen_doubles {count n : Nat} (acc p : Point) (h : n < Nat.pow 2 count) :
    addChosen acc n (doubles count p) = scaleAdd acc p n := by
  induction count generalizing acc p n with
  | zero =>
      have : n = 0 := Nat.lt_one_iff.mp h
      subst this
      rw [scaleAdd_zero]
      rfl
  | succ count ih =>
      have hn : n / 2 < Nat.pow 2 count := by
        rw [Nat.pow_eq] at h ⊢
        omega
      rw [doubles, addChosen, ih _ _ hn]
      by_cases h0 : n = 0
      · subst h0
        rw [scaleAdd_zero, scaleAdd_zero]
        rfl
      · rw [scaleAdd.eq_def acc p n, if_neg h0]

end Point

/-- The point that all keys are multiples of: its `y` coordinate is `4 / 5`,
its `x` coordinate is even. -/
def basePoint : Point :=
  (Point.decode (littleEndian 32 (4 * inverse 5 : Field).val)).getD .neutral

/-- The base point and its doubles, as many as a scalar of 32 bytes has digits. -/
def baseDoubles : List Point := Point.doubles 256 basePoint

def scaleBase (n : Nat) : Point := Point.addChosen .neutral n baseDoubles

theorem scaleBase_eq {n : Nat} (h : n < Nat.pow 2 256) : scaleBase n = Point.scale n basePoint :=
  Point.addChosen_doubles _ _ h

/-- The number of multiples of the base point. -/
def groupOrder : Nat := Nat.pow 2 252 + 27742317777372353535851937790883648493

/-! ## Keys and signatures -/

/-- The scalar of a secret seed, and the bytes its nonces are derived from. -/
def expand (seed : List UInt8) : Nat × List UInt8 :=
  let h := (Sha512.digest seed).toList
  let low := ofLittleEndian (h.take 32)
  (low % Nat.pow 2 254 / 8 * 8 + Nat.pow 2 254, h.drop 32)

def publicKey (seed : List UInt8) : List UInt8 :=
  (scaleBase (expand seed).1).encode

def digestScalar (message : List UInt8) : Nat :=
  ofLittleEndian (Sha512.digest message).toList % groupOrder

def sign (seed key message : List UInt8) : List UInt8 :=
  let (a, nonce) := expand seed
  let r := digestScalar (nonce ++ message)
  let point := (scaleBase r).encode
  let k := digestScalar (point ++ key ++ message)
  point ++ littleEndian 32 ((r + k * a) % groupOrder)

/-- Whether a signature of 64 bytes belongs to a message and a public key. -/
def verify (key message signature : List UInt8) : Bool :=
  let point := signature.take 32
  let s := ofLittleEndian (signature.drop 32)
  match Point.decode key with
  | none => false
  | some a =>
      let k := digestScalar (point ++ key ++ message)
      s < groupOrder &&
        (Point.scaleAdd (scaleBase s) a.neg k).encode == point

end LedgerCommit.Ed25519
