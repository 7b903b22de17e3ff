import LedgerCommit.Text.Hex
import LedgerCommit.Wire.Json

/-!
# Wire forms

Values travel as JSON. A record is written as an object of its fields. It is
read from such an object, in which fields it does not have are ignored, or
from the array of its fields in their order. The first bad value decides the
error, in the order in which the document holds them; that a field is missing
is noticed after all that are present.
-/

namespace LedgerCommit

/-- Why a document is not the wire form of a value. -/
inductive WireError where
  /-- The document has another shape. -/
  | shape
  /-- A text is not the hexadecimal form of a key or a signature. -/
  | hex (cause : Hex.ParseError)
  deriving DecidableEq

class Wire (α : Type) where
  encode : α → Json
  decode : Json → Except WireError α

namespace Wire

/-! ## Plain values -/

def natBelow (bound : Nat) : Json → Except WireError Nat
  | .num (.ofNat n) 0 => if n < bound then .ok n else .error .shape
  | _ => .error .shape

instance : Wire UInt64 where
  encode w := .nat w.toNat
  decode j := (natBelow UInt64.size j).map UInt64.ofNat

instance : Wire UInt8 where
  encode b := .nat b.toNat
  decode j := (natBelow UInt8.size j).map UInt8.ofNat

instance : Wire String where
  encode := .str
  decode
    | .str s => .ok s
    | _ => .error .shape

instance {α : Type} [Wire α] : Wire (List α) where
  encode xs := .arr (xs.map encode)
  decode
    | .arr items => items.mapM decode
    | _ => .error .shape

/-- Something that may be missing: `null` stands for nothing. -/
instance {α : Type} [Wire α] : Wire (Option α) where
  encode
    | none => .null
    | some x => encode x
  decode
    | .null => .ok none
    | j => (decode j).map some

/-- A byte string of a fixed length, as the array of its bytes. -/
instance {n : Nat} : Wire (Bytes n) where
  encode b := encode b.toList
  decode j := do
    let bs ← (decode j : Except WireError (List UInt8))
    match Bytes.ofList? n bs with
    | some b => return b
    | none => throw .shape

/-- The name in a text, or in an object that maps a single name to nothing. -/
def unitName : Json → Except WireError String
  | .str s => .ok s
  | .obj [(name, .null)] => .ok name
  | _ => .error .shape

def decodeNamed {α : Type} (names : List (String × α)) (j : Json) : Except WireError α := do
  match entry? (← unitName j) names with
  | some x => return x
  | none => throw .shape

/-! ## Records -/

/-- A field of a record: its name and the check of its value. -/
structure Field where
  name : String
  check : Json → Except WireError Unit

def field (α : Type) [Wire α] (name : String) : Field :=
  ⟨name, fun j => (decode j : Except WireError α).map fun _ => ()⟩

abbrev Found := List (String × Json)

/-- Check the fields of an object in their order. -/
def checkObject (fields : List Field) : Found → Except WireError Unit
  | [] => .ok ()
  | (name, j) :: rest =>
      match fields.find? (·.name = name) with
      | some f => do
          f.check j
          checkObject fields rest
      | none => checkObject fields rest

/-- Check the elements of an array against the fields in their order, and
name them. At most `optional` of the last fields may be missing. -/
def checkArray (optional : Nat) : List Field → List Json → Except WireError Found
  | [], [] => .ok []
  | [], _ :: _ => .error .shape
  | fields, [] => if fields.length ≤ optional then .ok [] else .error .shape
  | f :: fields, j :: rest => do
      f.check j
      return (f.name, j) :: (← checkArray optional fields rest)

def readRecord (fields : List Field) (j : Json) (optional : Nat) : Except WireError Found :=
  match j with
  | .obj found => do
      checkObject fields found
      return found
  | .arr items => checkArray optional fields items
  | _ => .error .shape

def required (α : Type) [Wire α] (name : String) (found : Found) : Except WireError α :=
  match entry? name found with
  | some j => decode j
  | none => .error .shape

/-- The value of a field, and `default` if it is missing. -/
def orDefault {α : Type} [Wire α] (name : String) (default : α) (found : Found) :
    Except WireError α :=
  match entry? name found with
  | some j => decode j
  | none => .ok default

end Wire

end LedgerCommit
