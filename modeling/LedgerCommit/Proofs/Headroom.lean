import LedgerCommit.Proofs.RequestGroups

/-!
# Delivered blocks cause no overflow

The height of a transaction is taken from blocks that peers deliver, and sums
are made with it: the height that is next in a download, in the check and when
a block is applied. A block with a height from nowhere does not get that far.
The transaction rises by one for each block that is applied, and no more
blocks are applied than were delivered, so as long as the delivered blocks do
not fill the distance to the last height, there is room for every sum.
-/

namespace LedgerCommit

/-- A chain adds no more blocks to a transaction than it has. -/
theorem Validation.length_pending_furthest_le (m : FaultModel) (tx : Transaction)
    (bs : List Block) : (furthest m tx bs).pending.length ≤ tx.pending.length + bs.length := by
  obtain ⟨taken, hfurthest, -, hend⟩ := furthest_cases m tx bs
  have hlength : taken.length ≤ bs.length := by
    rcases hend with ⟨rfl, -⟩ | ⟨b, rest, rfl, -⟩
    · exact Nat.le_refl _
    · rw [List.length_append]
      exact Nat.le_add_right _ _
  rw [hfurthest, Transaction.pending_grow, List.length_append]
  omega

namespace Synchronizer

variable {σ : Type}

/-! ## How far delivered blocks lead -/

theorem length_pending_follow_le (m : FaultModel) (tx : Transaction) (log : List Exchange) :
    (follow m tx log).pending.length ≤ tx.pending.length + delivered log := by
  induction log generalizing tx with
  | nil => exact Nat.le_refl _
  | cons e log ih =>
      have hfirst := Validation.length_pending_furthest_le m tx e.answer
      have hrest := ih (Validation.furthest m tx e.answer)
      rw [delivered_cons]
      rw [follow, List.foldl_cons, ← follow]
      omega

/-- No more blocks are applied than were delivered. -/
theorem length_applied_le (m : FaultModel) (s : Store) (log : List Exchange) :
    (applied m s log).length ≤ delivered log := by
  have h := length_pending_follow_le m s.openTransaction.1 log
  rwa [show s.openTransaction.1.pending = [] from rfl, List.length_nil, Nat.zero_add] at h

/-- The transaction rises by one for each block that is applied. -/
theorem height_follow_openTransaction (m : FaultModel) (s : Store) (log : List Exchange) :
    (follow m s.openTransaction.1 log).ledger.height.toNat
      = s.ledger.height.toNat + (applied m s log).length := by
  obtain ⟨hledger, hcertified⟩ := follow_openTransaction m s log
  rw [hledger, hcertified.height_extendAll]

theorem resumes_exchanges (L : Loader σ) (p : SyncPolicy) (s : Store) (l : σ) (target : UInt64)
    (peers : List PublicKey) :
    Resumes p.model s.openTransaction.1 (exchanges L p s l target peers) := by
  rcases (download_cases L p s l target peers 0).attempt with hnone | ⟨r, l', hattempt⟩
  · rw [hnone]
    exact resumes_nil
  · exact hattempt.resumes

theorem resumes_exchangesOf (L : Loader σ) (p : SyncPolicy) (s : Store) (l : σ) (d : Decision) :
    Resumes p.model s.openTransaction.1 (exchangesOf L p s l d) := by
  cases d with
  | otherBlock round _ signers _ => exact resumes_exchanges L p s l _ signers
  | future round _ signers => exact resumes_exchanges L p s l _ signers
  | heldBlock | nothing | blockReject | proposalReject => exact resumes_nil

/-! ## Room for every sum -/

/-- **Delivered blocks cause no overflow.** Take any loader, policy and
decision, and a store with fewer than `2 ^ 62` peers, such that the committed
height and the number of all delivered blocks come to less than the last
height. Whatever these blocks are, resolving the decision gives an event or
none; it is not broken off. Each request is made from a transaction that has
risen from the committed height by the number of applied blocks, and no more
were applied than delivered; a height follows the one that is asked for, and
the answer is checked and applied without an overflow, up to its end or to the
first block that is refused. -/
theorem delivered_blocks_never_overflow (L : Loader σ) (p : SyncPolicy) (s : Store) (l : σ)
    (d : Decision) (hpeers : s.peers.length < 2 ^ 62)
    (hroom : s.ledger.height.toNat + delivered (exchangesOf L p s l d) < 2 ^ 64 - 1) :
    (∃ event, (resolve L p s l d).result = .ok event)
      ∧ ∀ before e after, exchangesOf L p s l d = before ++ e :: after →
          let tx := follow p.model s.openTransaction.1 before
          e.request.height = tx.ledger.height
            ∧ tx.ledger.height.toNat = s.ledger.height.toNat + (applied p.model s before).length
            ∧ (applied p.model s before).length ≤ delivered before
            ∧ e.request.height.toNat + 1 < 2 ^ 64
            ∧ ∃ valid tx', Validation.absorb p.model tx e.answer = .ok (valid, tx') := by
  constructor
  · -- an overflow would mean that the transaction has reached the last height
    rcases hr : (resolve L p s l d).result with o | event
    · have hlast := (resolve_cases L p s l d).height_of_overflow hr hpeers
      have happlied := length_applied_le p.model s (exchangesOf L p s l d)
      rw [heightReached, height_follow_openTransaction] at hlast
      omega
    · exact ⟨event, rfl⟩
  · intro before e after hsplit tx
    have hrequest := resumes_exchangesOf L p s l d before e after hsplit
    have hheight := height_follow_openTransaction p.model s before
    have happlied := length_applied_le p.model s before
    rw [hsplit, delivered_append, delivered_cons] at hroom
    refine ⟨hrequest, hheight, happlied, ?_, ?_⟩
    · rw [hrequest, hheight]
      omega
    · refine Validation.absorb_total p.model tx e.answer ?_ ?_
      · rw [(follow_openTransaction p.model s before).1, Ledger.peers_extendAll]
        exact hpeers
      · rw [hheight]
        omega

/-- Each answer has a block of the last height behind the first block of the chain. -/
theorem block_of_last_height_is_harmless :
    let junk : Block := ⟨18446744073709551615, .zero, 0, [], .zero, []⟩
    let L : Loader Unit := ⟨fun _ _ _ => ([Neutral.nextBlock neutralStore.ledger 7, junk], ())⟩
    let p : SyncPolicy := ⟨.byzantine, 2⟩
    let d : Decision := .future ⟨3, 0⟩ neutralStore.ledger [Neutral.key, Neutral.key]
    (∃ event, (resolve L p neutralStore () d).result = .ok event)
      ∧ ∀ e ∈ exchangesOf L p neutralStore () d, e.request.height.toNat + 1 < 2 ^ 64 := by
  -- it does not matter which block comes first
  generalize Neutral.nextBlock neutralStore.ledger 7 = b
  intro junk L p d
  have hlength : (exchangesOf L p neutralStore () d).length ≤ 2 * 2 :=
    length_exchanges_le L p neutralStore () 2 [Neutral.key, Neutral.key]
  have hdelivered : delivered (exchangesOf L p neutralStore () d)
      ≤ (exchangesOf L p neutralStore () d).length * 2 := by
    refine delivered_le fun e he => ?_
    obtain ⟨_, hanswer⟩ := answered_of_mem_exchanges he
    rw [← hanswer]
    exact Nat.le_refl 2
  have hroom : neutralStore.ledger.height.toNat
      + delivered (exchangesOf L p neutralStore () d) < 2 ^ 64 - 1 := by
    show 0 + delivered (exchangesOf L p neutralStore () d) < 2 ^ 64 - 1
    omega
  obtain ⟨hevent, hexchanges⟩ :=
    delivered_blocks_never_overflow L p neutralStore () d (by decide) hroom
  refine ⟨hevent, fun e he => ?_⟩
  obtain ⟨before, after, hsplit⟩ := List.append_of_mem he
  obtain ⟨-, -, -, hnext, -⟩ := hexchanges before e after hsplit
  exact hnext

end Synchronizer

end LedgerCommit
