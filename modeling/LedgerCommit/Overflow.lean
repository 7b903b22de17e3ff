/-!
# Checked 64-bit arithmetic

Heights, rounds and times are 64-bit words, and no sum or product of them
ever wraps: an operation whose exact result does not fit is an `Overflow`,
which ends the computation it occurs in.
-/

namespace LedgerCommit

/-- The operation whose exact result does not fit into 64 bits. -/
inductive Overflow where
  | add
  | multiply
  deriving DecidableEq, Repr

namespace Overflow

def message : Overflow → String
  | add => "attempt to add with overflow"
  | multiply => "attempt to multiply with overflow"

end Overflow

def checkedAdd (a b : UInt64) : Except Overflow UInt64 :=
  if a.toNat + b.toNat < UInt64.size then .ok (a + b) else .error .add

def checkedMul (a b : UInt64) : Except Overflow UInt64 :=
  if a.toNat * b.toNat < UInt64.size then .ok (a * b) else .error .multiply

/-- A natural number that has to fit into 64 bits, as the result of `cause`. -/
def fits (cause : Overflow) (n : Nat) : Except Overflow Nat :=
  if n < UInt64.size then .ok n else .error cause

theorem checkedAdd_eq_ok {a b : UInt64} (h : a.toNat + b.toNat < UInt64.size) :
    checkedAdd a b = .ok (a + b) := if_pos h

theorem checkedAdd_eq_error {a b : UInt64} (h : UInt64.size ≤ a.toNat + b.toNat) :
    checkedAdd a b = .error .add := if_neg (Nat.not_lt.mpr h)

theorem toNat_of_checkedAdd {a b c : UInt64} (h : checkedAdd a b = .ok c) :
    c.toNat = a.toNat + b.toNat := by
  unfold checkedAdd at h
  split at h
  next hlt =>
    cases h
    rw [UInt64.toNat_add]
    exact Nat.mod_eq_of_lt hlt
  next => cases h

/-- A sum is given if and only if it fits. -/
theorem checkedAdd_eq_ok_iff {a b c : UInt64} :
    checkedAdd a b = .ok c ↔ a.toNat + b.toNat < UInt64.size ∧ c = a + b := by
  unfold checkedAdd
  split <;> simp [*, eq_comm]

/-- A product is given if and only if it fits. -/
theorem checkedMul_eq_ok_iff {a b c : UInt64} :
    checkedMul a b = .ok c ↔ a.toNat * b.toNat < UInt64.size ∧ c = a * b := by
  unfold checkedMul
  split <;> simp [*, eq_comm]

theorem fits_eq_ok {cause : Overflow} {n : Nat} (h : n < UInt64.size) :
    fits cause n = .ok n := if_pos h

/-- Why an operation stopped: with a failure of its own, or with an overflow. -/
inductive Fault (ε : Type) where
  | failed (cause : ε)
  | overflow (cause : Overflow)
  deriving DecidableEq, Repr

end LedgerCommit
