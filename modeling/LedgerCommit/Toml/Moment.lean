import LedgerCommit.Toml.Number

/-!
# Dates and times

A moment is a date, a time of day, or both with an offset from universal time
if wanted. Only its form and the ranges of its parts matter here.
-/

namespace LedgerCommit.Toml

def fixedNumber? (cs : List Char) : Option Nat := (cs.mapM (digitValue? 10)).map (ofDigits 10)

def isLeapYear (y : Nat) : Bool := y % 4 = 0 && (y % 100 ≠ 0 || y % 400 = 0)

def daysInMonth (y m : Nat) : Nat :=
  if m = 2 then (if isLeapYear y then 29 else 28)
  else if m = 4 ∨ m = 6 ∨ m = 9 ∨ m = 11 then 30
  else 31

def isDate (y m d : Nat) : Bool := 1 ≤ m && m ≤ 12 && 1 ≤ d && d ≤ daysInMonth y m

def afterDate? : List Char → Option (List Char)
  | y1 :: y2 :: y3 :: y4 :: '-' :: m1 :: m2 :: '-' :: d1 :: d2 :: rest => do
      let y ← fixedNumber? [y1, y2, y3, y4]
      let m ← fixedNumber? [m1, m2]
      let d ← fixedNumber? [d1, d2]
      if isDate y m d then some rest else none
  | _ => none

def afterHourMinute? : List Char → Option (List Char)
  | h1 :: h2 :: ':' :: m1 :: m2 :: rest => do
      let h ← fixedNumber? [h1, h2]
      let m ← fixedNumber? [m1, m2]
      if h ≤ 23 ∧ m ≤ 59 then some rest else none
  | _ => none

def skipSecondFraction : List Char → List Char
  | '.' :: c :: rest => if isDigit c then rest.dropWhile isDigit else '.' :: c :: rest
  | s => s

/-- The text after a time of day; a leap second is the second 60. -/
def afterTime? (s : List Char) : Option (List Char) := do
  match ← afterHourMinute? s with
  | ':' :: s1 :: s2 :: rest =>
      let seconds ← fixedNumber? [s1, s2]
      if seconds ≤ 60 then some (skipSecondFraction rest) else none
  | _ => none

def skipOffset (s : List Char) : List Char :=
  match s with
  | c :: rest =>
      if c = 'Z' ∨ c = 'z' then rest
      else if c = '+' ∨ c = '-' then (afterHourMinute? rest).getD s
      else s
  | [] => []

def skipTimeOfDate (s : List Char) : List Char :=
  match s with
  | c :: rest =>
      if c = 'T' ∨ c = 't' ∨ c = ' ' then
        match afterTime? rest with
        | some rest => skipOffset rest
        | none => s
      else s
  | [] => []

def afterMoment? (s : List Char) : Option (List Char) :=
  match afterDate? s with
  | some rest => some (skipTimeOfDate rest)
  | none => afterTime? s

end LedgerCommit.Toml
