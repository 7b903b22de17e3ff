import LedgerCommit.Toml.Text

/-!
# Numbers

Integers are decimal, with a sign if wanted, or hexadecimal, octal or binary
after `0x`, `0o` and `0b`, and have to fit into 64 bits with sign. An
underscore may stand between two digits. Of floats only the form matters, and
that they are not too large.
-/

namespace LedgerCommit.Toml

def isDigit (c : Char) : Bool := '0' ≤ c && c ≤ '9'

def digitValue? (base : Nat) (c : Char) : Option Nat :=
  let value :=
    if isDigit c then some (c.toNat - 48)
    else if 'a' ≤ c ∧ c ≤ 'f' then some (c.toNat - 87)
    else if 'A' ≤ c ∧ c ≤ 'F' then some (c.toNat - 55)
    else none
  value.filter (· < base)

/-- The values of the digits at the front, in which an underscore may stand
before each digit. -/
def moreDigits (base : Nat) : List Char → List Nat × List Char
  | [] => ([], [])
  | '_' :: c :: rest =>
      match digitValue? base c with
      | some d => let (ds, rest) := moreDigits base rest; (d :: ds, rest)
      | none => ([], '_' :: c :: rest)
  | c :: rest =>
      match digitValue? base c with
      | some d => let (ds, rest) := moreDigits base rest; (d :: ds, rest)
      | none => ([], c :: rest)

/-- Read digits, the first one without an underscore before it. -/
def readDigits (base : Nat) : Reader (List Nat)
  | [] => none
  | c :: rest =>
      match digitValue? base c with
      | some d => let (ds, rest) := moreDigits base rest; some (d :: ds, rest)
      | none => none

def ofDigits (base : Nat) (ds : List Nat) : Nat := ds.foldl (fun n d => base * n + d) 0

/-- Read a sign, if there is one. Gives whether it is a minus. -/
def readSign : List Char → Bool × List Char
  | '-' :: rest => (true, rest)
  | '+' :: rest => (false, rest)
  | s => (false, s)

/-- Read decimal digits without a needless zero in front. -/
def readWhole : Reader (List Nat)
  | '0' :: rest => some ([0], rest)
  | s => readDigits 10 s

/-! ## Integers -/

def signed (negative : Bool) (n : Nat) : Int := if negative then -(n : Int) else n

def fitsSigned (n : Int) : Bool := Int64.minValue.toInt ≤ n && n ≤ Int64.maxValue.toInt

/-- Read an integer, whatever its size. -/
def readAnyInteger : Reader Int
  | '0' :: 'x' :: rest => (readDigits 16 rest).map fun (ds, rest) => (ofDigits 16 ds, rest)
  | '0' :: 'o' :: rest => (readDigits 8 rest).map fun (ds, rest) => (ofDigits 8 ds, rest)
  | '0' :: 'b' :: rest => (readDigits 2 rest).map fun (ds, rest) => (ofDigits 2 ds, rest)
  | s =>
      let (negative, s) := readSign s
      (readWhole s).map fun (ds, rest) => (signed negative (ofDigits 10 ds), rest)

def readInteger : Reader Int := fun s => (readAnyInteger s).filter fun (n, _) => fitsSigned n

/-! ## Floats -/

/-- Whether `digits * 10 ^ exponent` is closer to infinity than to any number
in double precision. -/
def exceedsDouble (digits : List Nat) (exponent : Int) : Bool :=
  let digits := digits.dropWhile (· = 0)
  let magnitude := (digits.length : Int) + exponent
  let n := ofDigits 10 digits
  if digits = [] ∨ magnitude < 300 then false
  else if 320 < magnitude then true
  else Nat.pow 2 1024 - Nat.pow 2 970
    ≤ n * Nat.pow 10 exponent.toNat / Nat.pow 10 (-exponent).toNat

def readFraction : Reader (List Nat)
  | '.' :: rest => readDigits 10 rest
  | _ => none

def readExponent : Reader Int
  | c :: rest =>
      if c = 'e' ∨ c = 'E' then
        let (negative, rest) := readSign rest
        (readDigits 10 rest).map fun (ds, rest) => (signed negative (ofDigits 10 ds), rest)
      else none
  | [] => none

/-- The text after a float with digits. It has a fraction or an exponent, and
a float without a minus must not be too large. -/
def afterFiniteFloat? (s : List Char) : Option (List Char) := do
  let (negative, s) := readSign s
  let (whole, s) ← readWhole s
  let (digits, exponent, s) ←
    match readFraction s with
    | some (fraction, s) =>
        let (e, s) := (readExponent s).getD (0, s)
        some (whole ++ fraction, e - fraction.length, s)
    | none => (readExponent s).map fun (e, s) => (whole, e, s)
  if !negative && exceedsDouble digits exponent then none else some s

def afterSpecialFloat? (s : List Char) : Option (List Char) :=
  match (readSign s).2 with
  | 'i' :: 'n' :: 'f' :: rest => some rest
  | 'n' :: 'a' :: 'n' :: rest => some rest
  | _ => none

def afterFloat? (s : List Char) : Option (List Char) :=
  afterFiniteFloat? s <|> afterSpecialFloat? s

end LedgerCommit.Toml
