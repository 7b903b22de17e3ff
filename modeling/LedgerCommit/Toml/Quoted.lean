import LedgerCommit.Toml.Number

/-!
# Quoted text

Text is quoted in four ways. Between double quotes a backslash begins an
escape; between single quotes every character stands for itself. Three quotes
open a text that may run over lines: a line end right after them is dropped,
and one or two further quotes may stand before the three that close it.

Text is written on one line: between single quotes if that spares escapes,
and otherwise between double quotes.
-/

namespace LedgerCommit.Toml

def codeChar? (digits : List Char) : Option Char := do
  let code := ofDigits 16 (← digits.mapM (digitValue? 16))
  if code.isValidChar then some (Char.ofNat code) else none

def escaped? : Char → Option Char
  | 'b' => some '\x08'
  | 't' => some '\t'
  | 'n' => some '\n'
  | 'f' => some '\x0c'
  | 'r' => some '\x0d'
  | '"' => some '"'
  | '\\' => some '\\'
  | _ => none

def readEscape : Reader Char
  | 'u' :: a :: b :: c :: d :: rest => (codeChar? [a, b, c, d]).map (·, rest)
  | 'U' :: a :: b :: c :: d :: e :: f :: g :: h :: rest =>
      (codeChar? [a, b, c, d, e, f, g, h]).map (·, rest)
  | c :: rest => (escaped? c).map (·, rest)
  | [] => none

theorem length_of_readEscape {s rest : List Char} {c : Char}
    (h : readEscape s = some (c, rest)) : rest.length < s.length := by
  unfold readEscape at h
  split at h
  case h_4 => cases h
  all_goals
    obtain ⟨_, _, he⟩ := Option.map_eq_some_iff.mp h
    cases he
    simp only [List.length_cons]
    omega

/-- Put a character in front of what a reader gives. -/
def prepend (c : Char) (r : Option (List Char × List Char)) : Option (List Char × List Char) :=
  r.map fun (cs, rest) => (c :: cs, rest)

/-! ## Text on one line -/

def readEscaped (s : List Char) : Option (List Char × List Char) :=
  match s with
  | [] => none
  | '"' :: rest => some ([], rest)
  | '\\' :: rest =>
      match _h : readEscape rest with
      | none => none
      | some (c, rest) => prepend c (readEscaped rest)
  | c :: rest => if isControl c then none else prepend c (readEscaped rest)
termination_by s.length
decreasing_by
  · have := length_of_readEscape _h
    grind
  · grind

def readLiteral : Reader (List Char)
  | [] => none
  | '\'' :: rest => some ([], rest)
  | c :: rest => if isControl c then none else prepend c (readLiteral rest)

/-! ## Text over several lines -/

def skipLineEnd (s : List Char) : List Char := (lineEnd? s).getD s

def endsLine (s : List Char) : Bool := (lineEnd? (skipBlanks s)).isSome

def skipSpace : List Char → List Char
  | [] => []
  | '\x0d' :: '\n' :: rest => skipSpace rest
  | c :: rest => if isBlank c || c = '\n' then skipSpace rest else c :: rest

theorem length_skipSpace_le (s : List Char) : (skipSpace s).length ≤ s.length := by
  fun_induction skipSpace s <;> grind

/-- Read text with escapes up to three double quotes. A backslash at the end
of a line drops the line end and all space that follows. -/
def readEscapedLines (s : List Char) : Option (List Char × List Char) :=
  match s with
  | [] => none
  | '"' :: '"' :: '"' :: '"' :: '"' :: rest => some (['"', '"'], rest)
  | '"' :: '"' :: '"' :: '"' :: rest => some (['"'], rest)
  | '"' :: '"' :: '"' :: rest => some ([], rest)
  | '\n' :: rest => prepend '\n' (readEscapedLines rest)
  | '\x0d' :: '\n' :: rest => prepend '\n' (readEscapedLines rest)
  | '\\' :: rest =>
      if endsLine rest then readEscapedLines (skipSpace rest)
      else
        match _h : readEscape rest with
        | none => none
        | some (c, rest) => prepend c (readEscapedLines rest)
  | c :: rest => if isControl c then none else prepend c (readEscapedLines rest)
termination_by s.length
decreasing_by
  · grind
  · grind
  · have := length_skipSpace_le rest
    grind
  · have := length_of_readEscape _h
    grind
  · grind

def readLiteralLines : Reader (List Char)
  | [] => none
  | '\'' :: '\'' :: '\'' :: '\'' :: '\'' :: rest => some (['\'', '\''], rest)
  | '\'' :: '\'' :: '\'' :: '\'' :: rest => some (['\''], rest)
  | '\'' :: '\'' :: '\'' :: rest => some ([], rest)
  | '\n' :: rest => prepend '\n' (readLiteralLines rest)
  | '\x0d' :: '\n' :: rest => prepend '\n' (readLiteralLines rest)
  | c :: rest => if isControl c then none else prepend c (readLiteralLines rest)

/-! ## All forms -/

def readQuoted : Reader (List Char)
  | '"' :: rest => readEscaped rest
  | '\'' :: rest => readLiteral rest
  | _ => none

def readString : Reader (List Char)
  | '"' :: '"' :: '"' :: rest => readEscapedLines (skipLineEnd rest)
  | '\'' :: '\'' :: '\'' :: rest => readLiteralLines (skipLineEnd rest)
  | s => readQuoted s

/-! ## Writing -/

def escapeLetter? (c : Char) : Option Char :=
  if c = '\x08' then some 'b'
  else if c = '\t' then some 't'
  else if c = '\n' then some 'n'
  else if c = '\x0c' then some 'f'
  else if c = '\x0d' then some 'r'
  else if c = '"' ∨ c = '\\' then some c
  else none

def codeDigits (c : Char) : List Char :=
  let digits := (Nat.toDigits 16 c.toNat).map Char.toUpper
  List.replicate (4 - digits.length) '0' ++ digits

def escape (c : Char) : List Char :=
  match escapeLetter? c with
  | some letter => ['\\', letter]
  | none => if isControl c then '\\' :: 'u' :: codeDigits c else [c]

/-- Whether text is better written between single quotes. -/
def prefersLiteral (cs : List Char) : Bool :=
  cs.any (fun c => c = '"' || c = '\\') && !cs.any fun c => c = '\'' || c = '\t' || isControl c

def quote (cs : List Char) : List Char :=
  if prefersLiteral cs then '\'' :: cs ++ ['\''] else '"' :: cs.flatMap escape ++ ['"']

end LedgerCommit.Toml
