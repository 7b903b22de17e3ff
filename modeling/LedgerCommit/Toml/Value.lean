import LedgerCommit.Toml.Item
import LedgerCommit.Toml.Moment
import LedgerCommit.Toml.Quoted

/-!
# Keys and values

A key is bare or quoted, and keys joined by points lead into tables. Values
are read by their first character; arrays and tables between braces nest up
to a limit.
-/

namespace LedgerCommit.Toml

/-! ## Keys -/

def isBareKey (c : Char) : Bool := c.isAlphanum || c = '-' || c = '_'

def readKey (s : List Char) : Option (String × List Char) :=
  match s with
  | '"' :: _ | '\'' :: _ => (readQuoted s).map fun (key, rest) => (String.ofList key, rest)
  | _ =>
      match s.span isBareKey with
      | ([], _) => none
      | (key, rest) => some (String.ofList key, rest)

/-- Read at most `n` keys joined by points, around each of which blanks may
stand. -/
def readKeys : Nat → Reader (List String)
  | 0, _ => none
  | n + 1, s =>
      match readKey (skipBlanks s) with
      | none => none
      | some (key, rest) =>
          match skipBlanks rest with
          | '.' :: rest => (readKeys n rest).map fun (keys, rest) => (key :: keys, rest)
          | rest => some ([key], rest)

/-- The number of joined keys, and of nested values, that is too many. -/
def nestingLimit : Nat := 80

/-- Read a path: the keys that lead to a table, and the last key in it. -/
def readPath (s : List Char) : Option ((List String × String) × List Char) := do
  let (keys, rest) ← readKeys (nestingLimit - 1) s
  let key ← keys.getLast?
  some ((keys.dropLast, key), rest)

/-! ## Values -/

structure Pair where
  path : List String
  key : String
  item : Item

def readPair (value : Reader Item) (s : List Char) : Option (Pair × List Char) := do
  let ((path, key), s) ← readPath s
  match s with
  | '=' :: s =>
      let (item, s) ← value (skipBlanks s)
      some (⟨path, key, item⟩, s)
  | _ => none

def closedTable? (pairs : List Pair) : Option Item :=
  (pairs.foldlM (fun es p => Entries.insertAt? es p.path p.key p.item) []).map (.table .closed)

def readNumeric (s : List Char) : Option (Item × List Char) :=
  ((afterMoment? s).map (Item.moment, ·))
    <|> ((afterFloat? s).map (Item.float, ·))
    <|> ((readInteger s).map fun (n, rest) => (.integer n, rest))

/-- Read a value in which others nest up to `depth` times. -/
def readValue : Nat → Reader Item
  | 0, '[' :: _ | 0, '{' :: _ => none
  | depth + 1, '[' :: rest =>
      (bracketed ']' true skipLayout (readValue depth) rest).map fun (items, rest) =>
        (.array items, rest)
  | depth + 1, '{' :: rest => do
      let (pairs, rest) ← bracketed '}' false skipBlanks (readPair (readValue depth)) rest
      let item ← closedTable? pairs
      some (item, rest)
  | _, 't' :: 'r' :: 'u' :: 'e' :: rest => some (.boolean true, rest)
  | _, 'f' :: 'a' :: 'l' :: 's' :: 'e' :: rest => some (.boolean false, rest)
  | _, s =>
      ((readString s).map fun (text, rest) => (.string (String.ofList text), rest))
        <|> readNumeric s

end LedgerCommit.Toml
