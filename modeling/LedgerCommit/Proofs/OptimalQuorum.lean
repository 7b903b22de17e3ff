import LedgerCommit.Proofs.Quorum
import Mathlib.Order.Interval.Finset.Nat

/-!
# The supermajority is the optimal quorum

With `f` the number of faults that the peers bear, all peers but `f` are the
least supermajority. So one remains when `f` peers are silent, and two of them
share as many peers as the fault model asks for. No quorum of another size does
this for more than `f` faulty peers.
-/

namespace LedgerCommit.FaultModel

variable {m : FaultModel} {all : Nat}

/-- The number of peers that two quorums have to share when some peers are faulty:
more than the faulty ones if they may lie. -/
def overlap (m : FaultModel) (faulty : Nat) : Nat :=
  match m with
  | byzantine => faulty + 1
  | crash => 1

/-- Quorums of this size of the peers `0`, …, `all - 1` bear faulty ones: a
quorum remains when they are silent, and any two quorums overlap enough. -/
structure Bears (m : FaultModel) (all quorum faulty : Nat) : Prop where
  remains : quorum + faulty ≤ all
  overlaps : ∀ A B : Finset Nat, A ⊆ Finset.range all → B ⊆ Finset.range all →
    A.card = quorum → B.card = quorum → m.overlap faulty ≤ (A ∩ B).card

theorem overlap_faults (m : FaultModel) (all : Nat) :
    m.overlap (m.faults all) = m.sharedPeers all := by
  cases m <;> rfl

/-- The first and the last peers of a quorum's number share no more than they have to. -/
theorem Bears.faulty_le {quorum faulty : Nat} (h : m.Bears all quorum faulty) :
    faulty ≤ m.faults all := by
  have hremains := h.remains
  have hfirst : Finset.range quorum ⊆ Finset.range all :=
    Finset.range_subset_range.mpr (by omega)
  have hlast : Finset.Ico (all - quorum) all ⊆ Finset.range all := by
    intro x hx
    rw [Finset.mem_Ico] at hx
    exact Finset.mem_range.mpr hx.2
  have hshared := h.overlaps _ _ hfirst hlast (Finset.card_range quorum) (by
    rw [Nat.card_Ico]
    omega)
  rw [Finset.range_eq_Ico, Finset.Ico_inter_Ico, Nat.card_Ico] at hshared
  cases m with
  | byzantine =>
      simp only [overlap, faults, peersPerFault] at *
      omega
  | crash =>
      simp only [overlap, faults, peersPerFault] at *
      omega

/-- **The supermajority is the optimal quorum.** While the product of all peers
fits, the rule is answered without overflow: a supermajority is what leaves out
at most as many of the peers as they bear faults. So any two supermajorities
share more than the faulty peers if peers may lie, and at least one if they may
only stop; and of any peers at all those are a supermajority that are left when
the faulty ones are silent. No quorums of another size bear more faults. -/
theorem supermajority_is_optimal_quorum (hsize : m.peersPerFault * all < UInt64.size) :
    (∀ current, m.isSupermajority current all
        = .ok (decide (0 < all ∧ all - m.faults all ≤ current ∧ current ≤ all)))
      ∧ (∀ {α : Type} [DecidableEq α] (A B P : Finset α), P.card ≤ all → A ⊆ P → B ⊆ P →
          m.isSupermajority A.card all = .ok true → m.isSupermajority B.card all = .ok true →
          m.sharedPeers all ≤ (A ∩ B).card)
      ∧ (∀ {α : Type} [DecidableEq α] (P silent : Finset α), P.card = all → silent ⊆ P →
          silent.card ≤ m.faults all →
          m.isSupermajority (P \ silent).card all = .ok (decide (0 < all)))
      ∧ (0 < all → m.Bears all (all - m.faults all) (m.faults all))
      ∧ ∀ quorum faulty, m.Bears all quorum faulty → faulty ≤ m.faults all := by
  have hfaults : m.faults all ≤ all := Nat.le_trans (Nat.div_le_self _ _) (Nat.sub_le _ _)
  refine ⟨fun current => isSupermajority_eq current hsize, ?_, ?_, ?_, ?_⟩
  · intro α _ A B P hP hAP hBP hA hB
    exact sharedPeers_le_card_inter hA hB hAP hBP hP
  · intro α _ P silent hP hsub hsilent
    have hcard := Finset.card_sdiff_of_subset hsub
    rw [isSupermajority_eq _ hsize]
    congr 2
    rw [eq_iff_iff]
    omega
  · intro hall
    refine ⟨by omega, fun A B hA hB hAcard hBcard => ?_⟩
    have hleast : m.isSupermajority (all - m.faults all) all = .ok true := by
      rw [isSupermajority_eq _ hsize, decide_eq_true (by omega)]
    rw [overlap_faults]
    exact sharedPeers_le_card_inter (hAcard ▸ hleast) (hBcard ▸ hleast) hA hB
      (Finset.card_range all).le
  · intro quorum faulty h
    exact h.faulty_le

/-- Of four peers that may lie three are a quorum and two are not: two threes share
two peers, the three are left when one peer is silent, and no quorum bears two. -/
theorem three_of_four_are_a_quorum :
    byzantine.peersPerFault * 4 < UInt64.size
      ∧ byzantine.isSupermajority 3 4 = .ok true
      ∧ byzantine.isSupermajority 2 4 = .ok false
      ∧ byzantine.sharedPeers 4 ≤ (({0, 1, 2} : Finset Nat) ∩ {1, 2, 3}).card
      ∧ byzantine.isSupermajority (({0, 1, 2, 3} : Finset Nat) \ {3}).card 4 = .ok true
      ∧ byzantine.Bears 4 3 1
      ∧ ∀ quorum, ¬ byzantine.Bears 4 quorum 2 := by
  obtain ⟨hrule, hshared, hleft, hbears, hmost⟩ :=
    @supermajority_is_optimal_quorum byzantine 4 (by decide)
  refine ⟨by decide, hrule 3, hrule 2, ?_, ?_, hbears (by decide), ?_⟩
  · exact hshared {0, 1, 2} {1, 2, 3} {0, 1, 2, 3} (by decide) (by decide) (by decide)
      (hrule 3) (hrule 3)
  · exact hleft {0, 1, 2, 3} {3} (by decide) (by decide) (by decide)
  · intro quorum h
    exact absurd (hmost quorum 2 h) (by decide)

end LedgerCommit.FaultModel
