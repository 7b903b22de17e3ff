/-!
# Items of documents

A document is a table of named items. Tables come about in four ways, and the
way decides how a table may be extended later: the rules keep a table from
being defined twice.
-/

namespace LedgerCommit.Toml

/-- How a table came about. -/
inductive TableKind where
  /-- By its own header, or as the document itself. -/
  | defined
  /-- By the header of a table below it. -/
  | implied
  /-- By a dotted key. -/
  | dotted
  /-- Between braces; such a table is never extended. -/
  | closed
  deriving DecidableEq, Repr

inductive Item where
  | string (s : String)
  | integer (n : Int)
  | float
  | boolean (b : Bool)
  | moment
  | array (items : List Item)
  | table (kind : TableKind) (entries : List (String × Item))
  /-- The tables that stand under repeated headers in double brackets. -/
  | tables (elements : List (List (String × Item)))

/-- The contents of a table, in the order of writing. -/
abbrev Entries := List (String × Item)

namespace Entries

def at? (es : Entries) (key : String) : Option Item := es.lookup key

def replace (es : Entries) (key : String) (item : Item) : Entries :=
  es.map fun e => if e.1 = key then (key, item) else e

def insertNew? (es : Entries) (key : String) (item : Item) : Option Entries :=
  if (es.at? key).isSome then none else some (es ++ [(key, item)])

/-- Whether a table of some kind lets a path lead through it: a dotted key
does not reach into a table that was defined. -/
def lets (dotted : Bool) : TableKind → Bool
  | .defined => !dotted
  | .implied | .dotted => true
  | .closed => false

/-- Change the table at a path below a table of the given kind. Missing tables
on the way are made; under repeated headers the path leads into the last table. -/
def alterAt (dotted : Bool) (f : TableKind → Entries → Option Entries) :
    List String → TableKind → Entries → Option Entries
  | [], kind, es => f kind es
  | key :: path, _, es =>
      match es.at? key with
      | none =>
          let kind := if dotted then .dotted else .implied
          (alterAt dotted f path kind []).map fun sub => es ++ [(key, .table kind sub)]
      | some (.table kind sub) =>
          if lets dotted kind then
            (alterAt dotted f path kind sub).map fun sub => es.replace key (.table kind sub)
          else none
      | some (.tables elements) =>
          match elements.getLast? with
          | none => none
          | some last =>
              (alterAt dotted f path .defined last).map fun last =>
                es.replace key (.tables (elements.dropLast ++ [last]))
      | some _ => none

/-- Add an item at a dotted key. A dotted key adds to tables that dotted keys
made, and a plain key to the table itself. -/
def insertAt? (es : Entries) (path : List String) (key : String) (item : Item) :
    Option Entries :=
  alterAt true (fun kind es =>
    if kind = .dotted ↔ path ≠ [] then es.insertNew? key item else none) path .defined es

/-- Add the table of a header, unless there is one that was defined. -/
def addTable? (es : Entries) (path : List String) (key : String) : Option Entries :=
  alterAt false (fun _ es =>
    match es.at? key with
    | none => some (es ++ [(key, .table .defined [])])
    | some (.table .implied sub) => some (es.replace key (.table .defined sub))
    | some _ => none) path .defined es

def addElement? (es : Entries) (path : List String) (key : String) : Option Entries :=
  alterAt false (fun _ es =>
    match es.at? key with
    | none => some (es ++ [(key, .tables [[]])])
    | some (.tables elements) => some (es.replace key (.tables (elements ++ [[]])))
    | some _ => none) path .defined es

end Entries

end LedgerCommit.Toml
