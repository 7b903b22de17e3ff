import LedgerCommit.Voting.Gate
import Mathlib.Logic.Equiv.Basic

/-!
# Orders that nodes share

A shuffle is a sequence of exchanges that is drawn for the seed and the number
of elements alone. Each exchange is one of two positions of the list, so all
lists of one length are rearranged by the same permutation of their positions.
The usual order takes its seed from the block voted for: nodes that vote for
one block with equally many peers rearrange their peers in the same way,
whatever else their ballots say.
-/

namespace LedgerCommit

namespace Shuffle

variable {n : Nat}

/-- Both positions of the exchange are below `n`. -/
def InRange (n : Nat) (e : Nat × Nat) : Prop := e.1 < n ∧ e.2 < n

theorem exchanges_succ (i : Nat) (s : ChaCha.Stream) :
    exchanges (i + 1) s
      = (i + 1, (draw (i + 1) period s).1.val) :: exchanges i (draw (i + 1) period s).2 := by
  rw [exchanges]

/-- Every position that comes up is exchanged with one that was drawn up to it. -/
theorem le_of_mem_exchanges {i : Nat} {s : ChaCha.Stream} {e : Nat × Nat}
    (h : e ∈ exchanges i s) : e.1 ≤ i ∧ e.2 ≤ e.1 := by
  induction i generalizing s with
  | zero =>
      rw [exchanges] at h
      cases h
  | succ i ih =>
      rw [exchanges_succ] at h
      rcases List.mem_cons.mp h with h | hrest
      · rw [h]
        exact ⟨Nat.le_refl _, Nat.le_of_lt_succ (draw (i + 1) period s).1.isLt⟩
      · obtain ⟨hi, he⟩ := ih hrest
        exact ⟨Nat.le_succ_of_le hi, he⟩

/-- The exchanges for `n` elements are all among their positions. -/
theorem inRange_of_mem_exchanges {s : ChaCha.Stream} {e : Nat × Nat}
    (h : e ∈ exchanges (n - 1) s) : InRange n e := by
  rcases Nat.eq_zero_or_pos n with rfl | hn
  · rw [exchanges] at h
    cases h
  · obtain ⟨hfirst, hsecond⟩ := le_of_mem_exchanges h
    constructor <;> omega

/-- An exchange puts at each position what stood at the position it is
exchanged with. -/
theorem getElem?_exchange {α : Type} {xs : Array α} (hsize : xs.size = n) (i j k : Fin n) :
    (exchange xs (i, j))[k.val]? = xs[(Equiv.swap i j k).val]? := by
  have hi : i.val < xs.size := by omega
  have hj : j.val < xs.size := by omega
  rw [exchange, Array.swapIfInBounds, dif_pos hi, dif_pos hj, Array.getElem?_swap,
    Equiv.swap_apply_def]
  by_cases hkj : k = j
  · subst hkj
    by_cases hki : k = i
    · subst hki
      simp
    · simp [hki, Array.getElem?_eq_getElem hi]
  · have hjk : j.val ≠ k.val := fun h => hkj (Fin.ext h.symm)
    by_cases hki : k = i
    · subst hki
      simp [hjk, Array.getElem?_eq_getElem hj]
    · have hik : i.val ≠ k.val := fun h => hki (Fin.ext h.symm)
      simp [hjk, hik, hkj, hki]

theorem size_exchange {α : Type} (xs : Array α) (e : Nat × Nat) :
    (exchange xs e).size = xs.size := by
  rw [exchange, Array.size_swapIfInBounds]

/-- Exchanges in range rearrange all arrays of one size by the same
permutation of the positions. -/
theorem exists_perm_of_inRange {es : List (Nat × Nat)} (h : ∀ e ∈ es, InRange n e) :
    ∃ σ : Equiv.Perm (Fin n), ∀ (α : Type) (xs : Array α), xs.size = n →
      ∀ k : Fin n, (es.foldl exchange xs)[k.val]? = xs[(σ k).val]? := by
  induction es with
  | nil => exact ⟨Equiv.refl _, fun _ _ _ _ => rfl⟩
  | cons e es ih =>
      rw [List.forall_mem_cons] at h
      obtain ⟨⟨hi, hj⟩, hrest⟩ := h
      obtain ⟨σ, hσ⟩ := ih hrest
      -- what the later exchanges bring to a position, the first one has put there
      refine ⟨σ.trans (Equiv.swap ⟨e.1, hi⟩ ⟨e.2, hj⟩), fun α xs hsize k => ?_⟩
      rw [List.foldl_cons, hσ α _ (by rw [size_exchange, hsize])]
      exact getElem?_exchange hsize ⟨e.1, hi⟩ ⟨e.2, hj⟩ (σ k)

/-- **All lists of one length are shuffled alike.** -/
theorem exists_perm_of_shuffle (seed : Hash) (n : Nat) :
    ∃ σ : Equiv.Perm (Fin n), ∀ (α : Type) (xs : List α), xs.length = n →
      ∀ k : Fin n, (shuffle seed xs)[k.val]? = xs[(σ k).val]? := by
  have hrange : ∀ e ∈ exchanges (n - 1) (.ofKey seed.bytes), InRange n e :=
    fun _ he => inRange_of_mem_exchanges he
  obtain ⟨σ, hσ⟩ := exists_perm_of_inRange hrange
  refine ⟨σ, fun α xs hlength k => ?_⟩
  have hsize : xs.toArray.size = n := by simpa using hlength
  rw [shuffle, hlength, Array.getElem?_toList, hσ α _ hsize k, List.getElem?_toArray]

/-- The zero hash turns a list of three around. -/
example : shuffle .zero [0, 1, 2] = [2, 1, 0] := by decide +kernel

end Shuffle

namespace ContactOrder

theorem head?_peers {o : ContactOrder} (h : o.position = 0) : o.peers.head? = some o.leader := by
  obtain ⟨peers, position, hposition⟩ := o
  obtain rfl : position = 0 := h
  rw [List.head?_eq_getElem?]
  exact List.getElem?_eq_getElem hposition

/-- Where there are peers there is a seeded order: the shuffled peers, the
first of them leading. -/
theorem exists_seeded (seed : Hash) {peers : List Peer} (h : peers ≠ []) :
    ∃ o, seeded seed peers = some o ∧ o.peers = Shuffle.shuffle seed peers
      ∧ o.peers.head? = some o.leader := by
  cases ho : seeded seed peers with
  | none => exact absurd (seeded_eq_none_iff.mp ho) h
  | some o =>
      obtain ⟨hpeers, hposition⟩ := peers_of_ofPeers? ho
      exact ⟨o, rfl, hpeers, head?_peers hposition⟩

end ContactOrder

namespace VotingRule

/-- **Nodes that vote for one block share the order of their peers.** For each
block and each number `n` all exchanges that are drawn are among the positions
below `n`, and they make a single permutation of these. Whatever the round, the
proposal and the seal of a ballot for the block, and whatever the `n` peers,
possibly with repetitions: the usual rule gives no order exactly when `n` is
zero, and otherwise an order with the same peers, rearranged by this
permutation, that the first one leads. -/
theorem order_is_shared (block : Hash) (n : Nat) :
    (∀ e ∈ Shuffle.exchanges (n - 1) (.ofKey block.bytes), Shuffle.InRange n e)
      ∧ ∃ σ : Equiv.Perm (Fin n), ∀ (round : Round) (proposal : Hash) (blockSeal : Option Seal)
        (peers : List Peer), peers.length = n →
          let order := usual.order ⟨round, ⟨proposal, block⟩, blockSeal⟩ peers
          (order = none ↔ n = 0)
            ∧ (0 < n → ∃ o, order = some o ∧ o.peers.length = n ∧ o.peers.Perm peers
              ∧ (∀ k : Fin n, o.peers[k.val]? = peers[(σ k).val]?)
              ∧ o.peers.head? = some o.leader) := by
  obtain ⟨σ, hσ⟩ := Shuffle.exists_perm_of_shuffle block n
  refine ⟨fun _ he => Shuffle.inRange_of_mem_exchanges he, σ, ?_⟩
  intro round proposal blockSeal peers hlength
  refine ⟨?_, fun hn => ?_⟩
  · rw [← hlength, List.length_eq_zero_iff]
    exact ContactOrder.seeded_eq_none_iff
  · have hpeers : peers ≠ [] := List.length_pos_iff.mp (hlength ▸ hn)
    obtain ⟨o, ho, hshuffled, hleader⟩ := ContactOrder.exists_seeded block hpeers
    have hperm : o.peers.Perm peers := hshuffled ▸ Shuffle.perm_shuffle block peers
    refine ⟨o, ho, hperm.length_eq.trans hlength, hperm, fun k => ?_, hleader⟩
    rw [hshuffled]
    exact hσ Peer peers hlength k

theorem repeated_peer_is_contacted_twice :
    let p : Peer := ⟨"127.0.0.1:10001", ⟨.replicate 32 1⟩⟩
    let q : Peer := ⟨"127.0.0.1:10002", ⟨.replicate 32 2⟩⟩
    let b : Ballot := ⟨⟨1, 0⟩, ⟨⟨.replicate 32 7⟩, .zero⟩, none⟩
    let c : Ballot := ⟨⟨5, 2⟩, ⟨⟨.replicate 32 8⟩, .zero⟩, some ⟨q.key, ⟨.replicate 64 0⟩⟩⟩
    [q, p, p].length = 3 ∧ ∃ o o', usual.order b [q, p, p] = some o
      ∧ usual.order c [q, p, p] = some o' ∧ o.peers = o'.peers ∧ o.peers.count p = 2 := by
  intro p q b c
  obtain ⟨-, σ, hσ⟩ := order_is_shared .zero 3
  obtain ⟨o, ho, hlength, hperm, hplaces, -⟩ := (hσ b.round b.choice.proposal b.blockSeal
    [q, p, p] rfl).2 (by decide)
  obtain ⟨o', ho', hlength', -, hplaces', -⟩ := (hσ c.round c.choice.proposal c.blockSeal
    [q, p, p] rfl).2 (by decide)
  refine ⟨rfl, o, o', ho, ho', ?_, ?_⟩
  · refine List.ext_getElem? fun k => ?_
    by_cases hk : k < 3
    · exact (hplaces ⟨k, hk⟩).trans (hplaces' ⟨k, hk⟩).symm
    · rw [List.getElem?_eq_none (by omega), List.getElem?_eq_none (by omega)]
  · rw [hperm.count_eq]
    decide

end VotingRule

end LedgerCommit
