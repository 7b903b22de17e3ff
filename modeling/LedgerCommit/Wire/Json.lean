/-!
# JSON values

The values that documents are made of. An object keeps its fields in
ascending order of their names, each name once. A number keeps its decimals:
`5.0` is no integer.
-/

namespace LedgerCommit

inductive Json where
  | null
  | bool (b : Bool)
  /-- The number `mantissa / 10 ^ decimals`. -/
  | num (mantissa : Int) (decimals : Nat)
  | str (s : String)
  | arr (items : List Json)
  | obj (fields : List (String × Json))
  deriving Inhabited

namespace Json

def nat (n : Nat) : Json := .num n 0

end Json

def entry? {α : Type} (name : String) (entries : List (String × α)) : Option α :=
  (entries.find? (·.1 = name)).map (·.2)

end LedgerCommit
