import LedgerCommit.Bytes

/-!
# Hexadecimal text

Bytes are printed as two lower case digits, high half first. Reading takes
digits of either case and fails for one of three reasons, looked for in this
order: an odd number of bytes, a byte that is no digit, a wrong length.
-/

namespace LedgerCommit.Hex

/-! ## Digits -/

def digit (v : Nat) : Char :=
  if v < 10 then Char.ofNat (48 + v) else Char.ofNat (87 + v)

/-- The value of a digit given as a byte, in either case. -/
def digitValue? (b : UInt8) : Option Nat :=
  let n := b.toNat
  if 48 ≤ n ∧ n ≤ 57 then some (n - 48)
  else if 97 ≤ n ∧ n ≤ 102 then some (n - 87)
  else if 65 ≤ n ∧ n ≤ 70 then some (n - 55)
  else none

def digits (b : UInt8) : List Char := [digit (b.toNat / 16), digit (b.toNat % 16)]

def encode (bs : List UInt8) : String := String.ofList (bs.flatMap digits)

/-! ## Reading -/

/-- Why a text is not the hexadecimal form of a byte string. -/
inductive DecodeError where
  | oddLength
  /-- The byte at this position is not a digit. -/
  | badDigit (byte : UInt8) (position : Nat)
  deriving DecidableEq, Repr

/-- The bytes of a text given as digits in pairs; `pos` counts the bytes read. -/
def decodePairs : Nat → List UInt8 → Except DecodeError (List UInt8)
  | pos, hi :: lo :: rest =>
      match digitValue? hi, digitValue? lo with
      | none, _ => .error (.badDigit hi pos)
      | some _, none => .error (.badDigit lo (pos + 1))
      | some h, some l => (decodePairs (pos + 2) rest).map (UInt8.ofNat (16 * h + l) :: ·)
  | _, _ => .ok []

def decode (s : String) : Except DecodeError (List UInt8) :=
  let bytes := s.toUTF8.toList
  if bytes.length % 2 = 1 then .error .oddLength else decodePairs 0 bytes

/-- Why a text is not the hexadecimal form of a byte string of a given length. -/
inductive ParseError where
  | malformed (cause : DecodeError)
  | wrongLength (expected actual : Nat)
  deriving DecidableEq, Repr

def parse (n : Nat) (s : String) : Except ParseError (Bytes n) :=
  match decode s with
  | .error e => .error (.malformed e)
  | .ok bs =>
      match Bytes.ofList? n bs with
      | some b => .ok b
      | none => .error (.wrongLength n bs.length)

/-! ## Error texts -/

def codeDigits (c : Char) : String := String.ofList (Nat.toDigits 16 c.toNat)

/-- The first 256 characters that are shown by their code: the control
characters, the no-break space and the soft hyphen. -/
def isUnprintable (c : Char) : Bool :=
  c.toNat < 0x20 || (0x7f ≤ c.toNat && c.toNat ≤ 0xa0) || c.toNat == 0xad

/-- A character between single quotes; quote, backslash and characters that
cannot be printed are escaped. -/
def quoteChar (c : Char) : String :=
  let body :=
    if c = '\x00' then "\\0"
    else if c = '\t' then "\\t"
    else if c = '\n' then "\\n"
    else if c = '\x0d' then "\\r"
    else if c = '\'' then "\\'"
    else if c = '\\' then "\\\\"
    else if isUnprintable c then "\\u\x7b" ++ codeDigits c ++ "\x7d"
    else c.toString
  "'" ++ body ++ "'"

/-- The text of a decoding error; a bad byte is shown as the character with
its code. -/
def DecodeError.message : DecodeError → String
  | .oddLength => "Odd number of digits"
  | .badDigit byte position =>
      "Invalid character " ++ quoteChar (Char.ofNat byte.toNat)
        ++ " at position " ++ toString position

def ParseError.message : ParseError → String
  | .malformed cause => "invalid hex: " ++ cause.message
  | .wrongLength expected actual =>
      "expected " ++ toString expected ++ " bytes, got " ++ toString actual

end LedgerCommit.Hex
