import LedgerCommit.Proofs.ForkAccountability

/-!
# The block of the agreed height

A decision for another block names the hash of that block, and the chain is
asked for by its height alone. What is committed at the height is new, was
delivered, and is certified on top of the chain below it. It need not be the
agreed block: any other block that the peers have certified is taken as well.
When the agreed block is certified too, at least `sharedPeers` peers have
sealed both.
-/

namespace LedgerCommit

/-- The ledger of the chain below a height. -/
def Store.ledgerBelow (s : Store) (height : UInt64) : Ledger :=
  (Store.ofChain s.peers (s.blocks.take (height.toNat - 1))).ledger

namespace Synchronizer

/-- Only a ledger that was returned gives an event. -/
theorem commitEvent_eq_some {ε : Type} {round : Round} {r : Except (Fault ε) (Option Ledger)}
    {e : SyncEvent} (h : commitEvent round r = .ok (some e)) :
    ∃ led, r = .ok (some led) ∧ e = ⟨.commit, round, led⟩ := by
  unfold commitEvent at h
  split at h
  · rename_i led
    cases led with
    | none => cases h
    | some led =>
        cases h
        exact ⟨led, rfl, rfl⟩
  · cases h
  · cases h

section

variable {σ : Type} {L : Loader σ} {p : SyncPolicy} {s : Store} {l : σ} {target : UInt64}
  {peers : List PublicKey} {log : List Exchange}
  {run : Run σ (Except (Fault SyncError) (Option Ledger))}

/-- A download that commits puts a new block at its target, which was
delivered and is certified there. -/
theorem Download.block_at_target {led : Ledger} (h : Download L p s l target peers log run)
    (hnumbered : Numbered s.blocks) (hr : run.result = .ok (some led)) :
    ∃ b, run.store.blockAt target = some b ∧ s.blocks.length < target.toNat
      ∧ Validation.check p.model b (run.store.ledgerBelow target) = .ok ()
      ∧ ∃ x ∈ log, b ∈ x.answer := by
  have hheight : s.ledger.height.toNat = s.blocks.length := hnumbered.height_ledger s.peers
  have hbelow : s.blocks.length < target.toNat := by
    have hnone : run.result ≠ .ok none := by simp [hr]
    have := UInt64.le_iff_toNat_le.not.mp (h.result_none_iff.not.mp hnone)
    omega
  obtain ⟨new, -, hblocks, hcertified, hpeers, hled, hreached⟩ := h.committed_chain hr
  have htop : target.toNat ≤ s.blocks.length + new.length := by
    have hchain := (hnumbered.append_certified s.peers hcertified).height_ledger s.peers
    rw [hled, UInt64.le_iff_toNat_le, Store.ledger_eq_ofChain, hpeers, hblocks, hchain,
      List.length_append] at hreached
    exact hreached
  -- the target is a position in the new chain
  obtain ⟨i, hi⟩ : ∃ i, target.toNat = s.blocks.length + i + 1 :=
    ⟨target.toNat - s.blocks.length - 1, by omega⟩
  obtain ⟨b, hb⟩ : ∃ b, new[i]? = some b := ⟨_, List.getElem?_eq_getElem (by omega)⟩
  refine ⟨b, ?_, hbelow, ?_, ?_⟩
  · rw [Store.blockAt_eq hi, hblocks, List.getElem?_append_right (Nat.le_add_right _ _),
      Nat.add_sub_cancel_left, hb]
  · have hledger : run.store.ledgerBelow target = s.ledger.extendAll (new.take i) := by
      rw [Store.ledgerBelow, hpeers, hblocks, hi, Nat.add_sub_cancel,
        List.take_length_add_append, Store.ledger_ofChain_append]
      rfl
    rw [hledger, Validation.check_eq_ok_iff]
    exact hcertified.certificate hb
  · have hmem : b ∈ run.store.blocks := by
      rw [hblocks]
      exact List.mem_append_right _ (List.mem_of_getElem? hb)
    refine (h.mem_answer hr hmem).resolve_left ?_
    -- it is higher than all the old blocks
    intro hold
    obtain ⟨j, hj⟩ := List.getElem?_of_mem hold
    have hlow := hnumbered j b hj
    have hhigh := hcertified.height_getElem hb
    have := (List.getElem?_eq_some_iff.mp hj).1
    omega

end

/-- **The block of the agreed height is certified, agreed or not.** On a
numbered chain, let a decision for another block be reported as a commit. The
chain then has a new block of the decision's height, which was delivered and
passes the check on the chain below it. It is the agreed block if no other
block was delivered that passes this check. With any block that is certified
over the same peers, the agreed one for instance, it has at least
`sharedPeers` peers in common that have validly sealed both. The agreed hash
plays no part in what is done. -/
theorem certified_block_of_agreed_height {σ : Type} (L : Loader σ) (p : SyncPolicy) {s : Store}
    (l : σ) (round : Round) (ledger : Ledger) (signers : List PublicKey) (agreed : Hash)
    {e : SyncEvent} (hnumbered : Numbered s.blocks)
    (hr : (resolve L p s l (.otherBlock round ledger signers agreed)).result = .ok (some e)) :
    let r := resolve L p s l (.otherBlock round ledger signers agreed)
    let log := exchanges L p s l round.height signers
    let below := r.store.ledgerBelow round.height
    e = ⟨.commit, round, r.store.ledger⟩
      ∧ (∃ b, r.store.blockAt round.height = some b ∧ s.blocks.length < round.height.toNat
          ∧ Validation.check p.model b below = .ok () ∧ (∃ x ∈ log, b ∈ x.answer)
          ∧ ((∀ x ∈ log, ∀ c ∈ x.answer, Validation.check p.model c below = .ok () →
              c.hash = agreed) → b.hash = agreed)
          ∧ ∀ (c : Block) (led : Ledger), led.peers = s.peers →
              Validation.check p.model c led = .ok () →
              ∃ keys : Finset PublicKey, p.model.sharedPeers s.peers.length ≤ keys.card
                ∧ ∀ k ∈ keys, (∃ peer ∈ s.peers, peer.key = k) ∧ b.ValidlySealedBy k
                    ∧ c.ValidlySealedBy k)
      ∧ ∀ hash, resolve L p s l (.otherBlock round ledger signers hash) = r := by
  intro r log below
  obtain ⟨led, hled, rfl⟩ := commitEvent_eq_some hr
  have hcases := download_cases L p s l round.height signers ledger.height
  obtain ⟨-, -, -, -, hpeers, hledger, -⟩ := hcases.committed_chain hled
  obtain ⟨b, hat, hnew, hcheck, x, hx, hb⟩ := hcases.block_at_target hnumbered hled
  refine ⟨by rw [hledger]; rfl, ⟨b, hat, hnew, hcheck, ⟨x, hx, hb⟩, ?_, ?_⟩, fun _ => rfl⟩
  · intro hagreed
    exact hagreed x hx b hb hcheck
  · intro c led' hled' hc
    have hbelow : below.peers = s.peers := hpeers
    have hcertificate : Validation.Certificate p.model b below :=
      Validation.check_eq_ok_iff.mp hcheck
    have hsealed := hcertificate.double_seals (Validation.check_eq_ok_iff.mp hc)
      (hled'.trans hbelow.symm)
    rwa [hbelow] at hsealed

theorem neutral_peer_seals_both :
    let b := Neutral.nextBlock neutralStore.ledger 7
    let c := Neutral.nextBlock neutralStore.ledger 8
    let d : Decision := .otherBlock ⟨1, 0⟩ neutralStore.ledger [Neutral.key] c.hash
    let r := resolve (handingOut b) ⟨.byzantine, 1⟩ neutralStore () d
    r.result = .ok (some ⟨.commit, ⟨1, 0⟩, r.store.ledger⟩) ∧ r.store.blockAt 1 = some b
      ∧ ∃ keys : Finset PublicKey, FaultModel.byzantine.sharedPeers 1 ≤ keys.card
          ∧ ∀ k ∈ keys, (∃ peer ∈ Neutral.peers, peer.key = k) ∧ b.ValidlySealedBy k
              ∧ c.ValidlySealedBy k := by
  have hb := Neutral.check_nextBlock .byzantine (l := neutralStore.ledger) 7 rfl (by decide)
  have hc := Neutral.check_nextBlock .byzantine (l := neutralStore.ledger) 8 rfl (by decide)
  -- no more of the blocks is needed, and their hashes are not to be computed
  generalize Neutral.nextBlock neutralStore.ledger 7 = b at hb ⊢
  generalize Neutral.nextBlock neutralStore.ledger 8 = c at hc ⊢
  intro b' c' d r
  obtain ⟨hresult, hat⟩ := resolve_handingOut c.hash hb
  obtain ⟨-, ⟨x, hx, -, -, -, -, hsealed⟩, -⟩ := certified_block_of_agreed_height (handingOut b)
    ⟨.byzantine, 1⟩ () ⟨1, 0⟩ neutralStore.ledger [Neutral.key] c.hash .nil hresult
  have hsame : x = b := Option.some.inj (hx.symm.trans hat)
  rw [hsame] at hsealed
  exact ⟨hresult, hat, hsealed c neutralStore.ledger rfl hc⟩

/-- A commit is reported for the round of a decision while the chain has
another block there than the agreed one. -/
theorem another_block_is_committed :
    let b := Neutral.nextBlock neutralStore.ledger 7
    let agreed := (Neutral.nextBlock neutralStore.ledger 8).hash
    let r := resolve (handingOut b) ⟨.byzantine, 1⟩ neutralStore ()
      (.otherBlock ⟨1, 0⟩ neutralStore.ledger [Neutral.key] agreed)
    Numbered neutralStore.blocks ∧ r.result = .ok (some ⟨.commit, ⟨1, 0⟩, r.store.ledger⟩)
      ∧ r.store.blockAt 1 = some b ∧ b.hash ≠ agreed := by
  have hb := Neutral.check_nextBlock .byzantine (l := neutralStore.ledger) 7 rfl (by decide)
  have hne : (Neutral.nextBlock neutralStore.ledger 7).hash
      ≠ (Neutral.nextBlock neutralStore.ledger 8).hash := by decide +kernel
  generalize Neutral.nextBlock neutralStore.ledger 7 = b at hb hne ⊢
  generalize (Neutral.nextBlock neutralStore.ledger 8).hash = agreed at hne ⊢
  intro b' agreed' r
  obtain ⟨hresult, hat⟩ := resolve_handingOut agreed hb
  exact ⟨.nil, hresult, hat, hne⟩

end Synchronizer

end LedgerCommit
