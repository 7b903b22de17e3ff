import LedgerCommit.Overflow

/-!
# Voting rounds

A round is the height being agreed on together with the number of failed
attempts at that height. Rounds are ordered lexicographically.
-/

namespace LedgerCommit

/-- One voting attempt. -/
structure Round where
  /-- The height of the block being agreed on. -/
  height : UInt64
  /-- The number of failed attempts at this height. -/
  attempt : UInt64
  deriving DecidableEq, Repr, Inhabited

namespace Round

/-- The height decides; at one height the attempt does. -/
def compare (a b : Round) : Ordering :=
  (Ord.compare a.height b.height).then (Ord.compare a.attempt b.attempt)

def before (a b : Round) : Bool :=
  a.height < b.height || (a.height == b.height && a.attempt < b.attempt)

def nextHeight (r : Round) : Except Overflow Round :=
  (checkedAdd r.height 1).map (⟨·, 0⟩)

def nextAttempt (r : Round) : Except Overflow Round :=
  (checkedAdd r.attempt 1).map (⟨r.height, ·⟩)

def text (r : Round) : String := "(" ++ toString r.height ++ ", " ++ toString r.attempt ++ ")"

theorem before_iff {a b : Round} :
    a.before b = true ↔ a.height < b.height ∨ (a.height = b.height ∧ a.attempt < b.attempt) := by
  simp [before]

theorem not_before_self (a : Round) : a.before a = false := by
  simp [before]

theorem before_trans {a b c : Round} (hab : a.before b = true) (hbc : b.before c = true) :
    a.before c = true := by
  rw [before_iff] at *
  simp only [UInt64.lt_iff_toNat_lt, ← UInt64.toNat_inj] at *
  omega

/-- What a round is not before comes before all that the round is before. -/
theorem before_of_not_before {a b c : Round} (hab : a.before b = false)
    (hac : a.before c = true) : b.before c = true := by
  rw [← Bool.not_eq_true, before_iff] at hab
  rw [before_iff] at *
  simp only [UInt64.lt_iff_toNat_lt, ← UInt64.toNat_inj] at *
  omega

/-- A round that does not come before another one is for no lower height. -/
theorem height_le_of_not_before {a b : Round} (h : a.before b = false) : b.height ≤ a.height := by
  rw [← Bool.not_eq_true, before_iff] at h
  exact UInt64.not_lt.mp fun hlt => h (.inl hlt)

end Round

end LedgerCommit
