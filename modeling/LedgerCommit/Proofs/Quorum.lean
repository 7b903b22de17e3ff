import LedgerCommit.FaultModel
import Mathlib.Algebra.Ring.Nat
import Mathlib.Data.Finset.Card

/-!
# Quorum intersection

The arithmetic of supermajorities. As long as no product leaves the 64 bits
the rule is exact: all peers but the faulty ones are the least supermajority.
Any two supermajorities of the same peers overlap: in more than the faulty
peers when peers may lie, in at least one when they may only stop.
-/

namespace LedgerCommit.FaultModel

/-- The number of peers that any two supermajorities of `all` peers share. -/
def sharedPeers (m : FaultModel) (all : Nat) : Nat :=
  match m with
  | byzantine => m.faults all + 1
  | crash => 1

theorem fits_ok {cause : Overflow} {n k : Nat} (h : fits cause n = .ok k) :
    k = n ∧ n < UInt64.size := by
  unfold fits at h
  split at h
  next hn => cases h; exact ⟨rfl, hn⟩
  next => cases h

/-- **The rule in exact arithmetic**: a supermajority that is found satisfies
the inequality, whatever the size of the products. -/
theorem quorum_of_isSupermajority {m : FaultModel} {current all : Nat}
    (h : m.isSupermajority current all = .ok true) :
    0 < all ∧ current ≤ all ∧
      (m.peersPerFault - 1) * (all - 1) + m.peersPerFault ≤ current * m.peersPerFault := by
  unfold isSupermajority at h
  split at h
  · cases h
  · rename_i hrange
    simp only [bind, Except.bind, pure, Except.pure] at h
    split at h
    · cases h
    · rename_i reached hreached
      split at h
      · cases h
      · rename_i rest hrest
        split at h
        · cases h
        · rename_i need hneed
          -- all products fit, so they are the exact ones
          obtain ⟨rfl, -⟩ := fits_ok hreached
          obtain ⟨rfl, -⟩ := fits_ok hrest
          obtain ⟨rfl, -⟩ := fits_ok hneed
          have hle := of_decide_eq_true (Except.ok.inj h)
          exact ⟨by omega, by omega, hle⟩

/-! ## The rule as a number of peers -/

/-- The inequality of the rule, divided by the peers to a fault. -/
theorem reached_iff (m : FaultModel) (current : Nat) {all : Nat} (hall : 0 < all) :
    (m.peersPerFault - 1) * (all - 1) + m.peersPerFault ≤ current * m.peersPerFault
      ↔ all - m.faults all ≤ current := by
  cases m with
  | byzantine =>
      simp only [faults, peersPerFault]
      omega
  | crash =>
      simp only [faults, peersPerFault]
      omega

/-- What the rule asks for is no more than all peers would reach. -/
theorem need_le (m : FaultModel) {all : Nat} (hall : 0 < all) :
    (m.peersPerFault - 1) * (all - 1) + m.peersPerFault ≤ m.peersPerFault * all := by
  cases m with
  | byzantine =>
      simp only [peersPerFault]
      omega
  | crash =>
      simp only [peersPerFault]
      omega

/-- While the product of all peers fits, the rule is answered, and all peers but
the faulty ones are the least supermajority. -/
theorem isSupermajority_eq {m : FaultModel} {all : Nat} (current : Nat)
    (hsize : m.peersPerFault * all < UInt64.size) :
    m.isSupermajority current all
      = .ok (decide (0 < all ∧ all - m.faults all ≤ current ∧ current ≤ all)) := by
  unfold isSupermajority
  split
  next hrange =>
    -- too many peers, or none at all: nothing is multiplied
    rw [decide_eq_false (by omega)]
  next hrange =>
    have hall : 0 < all := by omega
    have hneed := need_le m hall
    have hreached : current * m.peersPerFault ≤ m.peersPerFault * all := by
      rw [Nat.mul_comm m.peersPerFault]
      exact Nat.mul_le_mul_right _ (by omega)
    have hreachedFits : fits .multiply (current * m.peersPerFault) = .ok _ :=
      fits_eq_ok (by omega)
    have hrestFits : fits .multiply ((m.peersPerFault - 1) * (all - 1)) = .ok _ :=
      fits_eq_ok (by omega)
    have hneedFits : fits .add ((m.peersPerFault - 1) * (all - 1) + m.peersPerFault) = .ok _ :=
      fits_eq_ok (by omega)
    simp only [hreachedFits, hrestFits, hneedFits, bind, Except.bind, pure, Except.pure,
      reached_iff m current hall]
    congr 2
    rw [eq_iff_iff]
    omega

/-- With fewer than `2 ^ 62` peers the rule is always answered. -/
theorem isSupermajority_ne_error (m : FaultModel) (current : Nat) {all : Nat} (h : all < 2 ^ 62) :
    ∃ answer, m.isSupermajority current all = .ok answer := by
  have hsize : m.peersPerFault * all < UInt64.size := by
    have hwords : UInt64.size = 2 ^ 64 := rfl
    cases m <;> simp only [peersPerFault] <;> omega
  exact ⟨_, isSupermajority_eq current hsize⟩

/-! ## Overlaps -/

/-- Two supermajorities together count every peer once and the shared ones
again. -/
theorem sharedPeers_add_le {m : FaultModel} {a b all : Nat}
    (ha : m.isSupermajority a all = .ok true) (hb : m.isSupermajority b all = .ok true) :
    m.sharedPeers all + all ≤ a + b := by
  obtain ⟨hpos, -, ha⟩ := quorum_of_isSupermajority ha
  obtain ⟨-, -, hb⟩ := quorum_of_isSupermajority hb
  cases m with
  | byzantine =>
      simp only [sharedPeers, faults, peersPerFault] at *
      omega
  | crash =>
      simp only [sharedPeers, peersPerFault] at *
      omega

/-- **Quorum intersection**: supermajorities of the same peers share at least
`sharedPeers` members, also when some peers of the count are the same. -/
theorem sharedPeers_le_card_inter {α : Type} [DecidableEq α] {m : FaultModel} {all : Nat}
    {A B P : Finset α} (hA : m.isSupermajority A.card all = .ok true)
    (hB : m.isSupermajority B.card all = .ok true) (hAP : A ⊆ P) (hBP : B ⊆ P)
    (hP : P.card ≤ all) : m.sharedPeers all ≤ (A ∩ B).card := by
  have hboth := Finset.card_union_add_card_inter A B
  have hunion : (A ∪ B).card ≤ P.card := Finset.card_le_card (Finset.union_subset hAP hBP)
  have hsum := sharedPeers_add_le hA hB
  omega

end LedgerCommit.FaultModel
