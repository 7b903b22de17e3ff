import LedgerCommit.Toml.Value

/-!
# Documents

A document is read into statements, each on a line of its own: pairs, headers
of tables and headers of arrays of tables. Each pair belongs to the table of the
last header before it.
-/

namespace LedgerCommit.Toml

inductive Statement where
  | pair (p : Pair)
  /-- A header in brackets. -/
  | header (path : List String) (key : String)
  /-- A header in double brackets. -/
  | element (path : List String) (key : String)

def readHeader (s : List Char) : Option (Statement × List Char) :=
  match s with
  | '[' :: s => do
      let ((path, key), s) ← readPath s
      match s with
      | ']' :: ']' :: s => some (.element path key, s)
      | _ => none
  | _ => do
      let ((path, key), s) ← readPath s
      match s with
      | ']' :: s => some (.header path key, s)
      | _ => none

def readStatement (s : List Char) : Option (Statement × List Char) :=
  match s with
  | '[' :: s => readHeader s
  | _ => (readPair (readValue (nestingLimit - 1)) s).map fun (p, s) => (.pair p, s)

/-- Read the statement at the front with the rest of its line, and go on to
the next statement. -/
def readLine (s : List Char) : Option (Statement × List Char) := do
  let (statement, s) ← readStatement s
  let rest ← endLine? s
  some (statement, skipLayout rest)

/-- The text without the mark of the byte order at its front. -/
def skipMark : List Char → List Char
  | '\ufeff' :: rest => rest
  | s => s

/-- The statements of a document. There are no more of them than characters. -/
def statements? (text : String) : Option (List Statement) :=
  let s := skipLayout (skipMark text.toList)
  pieces readLine s s

/-! ## What the statements make -/

/-- A document as far as it is read: all its entries, and the path of the
header that pairs belong to. -/
structure Draft where
  entries : Entries
  header : List String

def Draft.add? (d : Draft) : Statement → Option Draft
  | .pair p =>
      (Entries.alterAt false (fun _ es => es.insertAt? p.path p.key p.item) d.header
        .defined d.entries).map (⟨·, d.header⟩)
  | .header path key => (d.entries.addTable? path key).map (⟨·, path ++ [key]⟩)
  | .element path key => (d.entries.addElement? path key).map (⟨·, path ++ [key]⟩)

def document? (text : String) : Option Entries := do
  let statements ← statements? text
  let draft ← statements.foldlM Draft.add? ⟨[], []⟩
  return draft.entries

end LedgerCommit.Toml
