/-!
# Text of documents

Documents are read from the front: a reader takes a piece off a list of
characters and gives the value of the piece together with what is left. Lines
end with a line feed, before which a carriage return may stand. A comment
runs up to the end of its line.
-/

namespace LedgerCommit.Toml

/-- A way to take a value off the front of a text. -/
abbrev Reader (α : Type) := List Char → Option (α × List Char)

def isBlank (c : Char) : Bool := c = ' ' || c = '\t'

/-- Control characters other than the tab may stand nowhere but in line ends. -/
def isControl (c : Char) : Bool := (c.toNat < 0x20 && c ≠ '\t') || c.toNat = 0x7f

def skipBlanks (s : List Char) : List Char := s.dropWhile isBlank

def lineEnd? : List Char → Option (List Char)
  | '\n' :: rest => some rest
  | '\x0d' :: '\n' :: rest => some rest
  | _ => none

def skipComment : List Char → List Char
  | '#' :: rest => rest.dropWhile fun c => !isControl c
  | s => s

/-- The text after the rest of a line, in which only a comment may stand. -/
def endLine? (s : List Char) : Option (List Char) :=
  match skipComment (skipBlanks s) with
  | [] => some []
  | rest => lineEnd? rest

def skipLayout (s : List Char) : List Char :=
  match s with
  | [] => []
  | '\n' :: rest => skipLayout rest
  | '\x0d' :: '\n' :: rest => skipLayout rest
  | '#' :: rest => skipLayout (rest.dropWhile fun c => !isControl c)
  | c :: rest => if isBlank c then skipLayout rest else c :: rest
termination_by s.length
decreasing_by
  · grind
  · grind
  · have := (rest.dropWhile_suffix fun c => !isControl c).length_le
    grind
  · grind

/-- Read items with commas between them up to the closing character, at most
one for each character of `bound`. Each item is read from its first character
on; `skip` drops what may stand around commas. A comma may stand before the
closing character if `trailing`. -/
def items {α : Type} (close : Char) (trailing : Bool) (skip : List Char → List Char)
    (item : Reader α) : List Char → Reader (List α)
  | [], _ => none
  | _ :: bound, s =>
      match item s with
      | none => none
      | some (a, rest) =>
          match skip rest with
          | [] => none
          | c :: rest =>
              if c = close then some ([a], rest)
              else if c ≠ ',' then none
              else
                let rest := skip rest
                if trailing && rest.head? = some close then some ([a], rest.tail)
                else
                  (items close trailing skip item bound rest).map fun (as, rest) => (a :: as, rest)

/-- Read a bracketed list of items, which may have none. There are no more
items than characters. -/
def bracketed {α : Type} (close : Char) (trailing : Bool) (skip : List Char → List Char)
    (item : Reader α) (s : List Char) : Option (List α × List Char) :=
  match skip s with
  | [] => none
  | c :: rest =>
      if c = close then some ([], rest)
      else items close trailing skip item (c :: rest) (c :: rest)

/-- Read pieces until the text is at its end, at most one for each character
of `bound`. -/
def pieces {α : Type} (piece : Reader α) : List Char → List Char → Option (List α)
  | _, [] => some []
  | [], _ => none
  | _ :: bound, s =>
      match piece s with
      | none => none
      | some (a, rest) => (pieces piece bound rest).map (a :: ·)

end LedgerCommit.Toml
