import LedgerCommit.Proofs.Attempt
import LedgerCommit.Proofs.Chain

/-!
# What a download does to the chain

A download either leaves the committed chain as it was or puts a certified
chain on top of it that reaches the target, as one commit. It is a success
without a commit exactly when the target was reached before, and then nobody
is asked.
-/

namespace LedgerCommit

namespace Synchronizer

variable {σ : Type} {L : Loader σ} {p : SyncPolicy} {s : Store} {l : σ} {target : UInt64}
  {peers : List PublicKey} {log : List Exchange}
  {run : Run σ (Except (Fault SyncError) (Option Ledger))}

/-- **The chain that is committed**: it is new, certified on top of the old
one, and reaches the target. -/
theorem Download.committed_chain {led : Ledger} (h : Download L p s l target peers log run)
    (hr : run.result = .ok (some led)) :
    ∃ new, new ≠ [] ∧ run.store.blocks = s.blocks ++ new
      ∧ Validation.Certified p.model s.ledger new ∧ run.store.peers = s.peers
      ∧ led = run.store.ledger ∧ target ≤ led.height := by
  cases h with
  | alreadyThere => cases hr
  | overflow => cases hr
  | exhausted => cases hr
  | refused => cases hr
  | @committed _ tx l' led' s' _ hattempt hcommit =>
      cases hr
      obtain ⟨new, rfl, hcertified, hdone⟩ := hattempt.grows rfl
      obtain ⟨hblocks, hpending, -, -, -, hled⟩ := Store.commit_ok hcommit
      have hnew : (s.openTransaction.1.grow new).pending = new := List.nil_append new
      rw [hnew] at hblocks hpending
      have hpeers : s'.peers = s.peers := by
        have := Store.peers_commit s.openTransaction.2 (s.openTransaction.1.grow new)
        rwa [hcommit] at this
      have hledger : led = s.ledger.extendAll new := by
        rw [hled, Store.ledger_eq_ofChain, hpeers, hblocks]
        exact Store.ledger_ofChain_append s.peers s.blocks new
      refine ⟨new, hpending, hblocks, hcertified, hpeers, hled, ?_⟩
      rw [hledger]
      exact hdone rfl

/-- A block that is committed was on the chain before or is in an answer. -/
theorem Download.mem_answer {led : Ledger} {b : Block}
    (h : Download L p s l target peers log run) (hr : run.result = .ok (some led))
    (hb : b ∈ run.store.blocks) : b ∈ s.blocks ∨ ∃ e ∈ log, b ∈ e.answer := by
  cases h with
  | alreadyThere => cases hr
  | overflow => cases hr
  | exhausted => cases hr
  | refused => cases hr
  | @committed _ tx l' led' s' _ hattempt hcommit =>
      have hblocks : s'.blocks = s.blocks ++ tx.pending := (Store.commit_ok hcommit).1
      have hb' : b ∈ s'.blocks := hb
      rw [hblocks, List.mem_append] at hb'
      rcases hb' with hold | hnew
      · exact .inl hold
      · exact .inr ((hattempt.mem_answer rfl hnew).resolve_left List.not_mem_nil)

/-- A failed download leaves the chain and the peers as they were. -/
theorem Download.unchanged_of_error {e : Fault SyncError}
    (h : Download L p s l target peers log run) (hr : run.result = .error e) :
    run.store.blocks = s.blocks ∧ run.store.peers = s.peers := by
  cases h with
  | alreadyThere => cases hr
  | overflow => exact ⟨rfl, rfl⟩
  | exhausted => exact ⟨rfl, rfl⟩
  | @refused _ tx l' e' s' _ _ hcommit =>
      obtain ⟨hblocks, -⟩ := Store.commit_error hcommit
      have hpeers := Store.peers_commit s.openTransaction.2 tx
      rw [hcommit] at hpeers
      exact ⟨hblocks, hpeers⟩
  | committed => cases hr

/-- There is no result exactly when the target was reached before. -/
theorem Download.result_none_iff (h : Download L p s l target peers log run) :
    run.result = .ok none ↔ target ≤ s.ledger.height := by
  cases h with
  | alreadyThere hthere => exact ⟨fun _ => hthere, fun _ => rfl⟩
  | overflow hbelow => exact ⟨nofun, fun h => absurd h hbelow⟩
  | exhausted hbelow => exact ⟨nofun, fun h => absurd h hbelow⟩
  | refused hbelow => exact ⟨nofun, fun h => absurd h hbelow⟩
  | committed hbelow => exact ⟨nofun, fun h => absurd h hbelow⟩

/-- When the target was reached before nobody is asked and nothing changes. -/
theorem Download.idle_of_reached (h : Download L p s l target peers log run)
    (hthere : target ≤ s.ledger.height) :
    log = [] ∧ run.loader = l ∧ run.store.blocks = s.blocks ∧ run.store.peers = s.peers := by
  cases h with
  | alreadyThere => exact ⟨rfl, rfl, rfl, rfl⟩
  | overflow hbelow => exact absurd hthere hbelow
  | exhausted hbelow => exact absurd hthere hbelow
  | refused hbelow => exact absurd hthere hbelow
  | committed hbelow => exact absurd hthere hbelow

/-- However a download goes, the chain only grows, and by certified blocks. -/
theorem Download.grows (h : Download L p s l target peers log run) :
    run.store.peers = s.peers ∧ ∃ new, run.store.blocks = s.blocks ++ new
      ∧ Validation.Certified p.model s.ledger new := by
  rcases hr : run.result with e | _ | led
  · obtain ⟨hblocks, hpeers⟩ := h.unchanged_of_error hr
    exact ⟨hpeers, [], by rw [hblocks, List.append_nil], trivial⟩
  · obtain ⟨-, -, hblocks, hpeers⟩ := h.idle_of_reached (h.result_none_iff.mp hr)
    exact ⟨hpeers, [], by rw [hblocks, List.append_nil], trivial⟩
  · obtain ⟨new, -, hblocks, hcertified, hpeers, -⟩ := h.committed_chain hr
    exact ⟨hpeers, new, hblocks, hcertified⟩

/-- What reaches the target is committed when no failure is scripted. -/
theorem download_of_reached {new : List Block} {l' : σ} (start : UInt64)
    (hbelow : ¬ target ≤ s.ledger.height)
    (hask : askPeers L p target peers s.openTransaction.1 l
      = (.ok (true, s.openTransaction.1.grow new), l'))
    (hne : new ≠ []) (hcommit : s.failNextCommit = false)
    (hbase : s.ledger.height.toNat = s.blocks.length) :
    let run := download L p s l target peers start
    run.result = .ok (some run.store.ledger) ∧ run.store.blocks = s.blocks ++ new
      ∧ run.loader = l' := by
  intro run
  have hopen : ¬ target ≤ s.openTransaction.1.ledger.height := hbelow
  obtain ⟨s', hs'⟩ := Store.commit_eq_ok s.openTransaction.2 (s.openTransaction.1.grow new)
    hne hcommit hbase
  have hrun : run = ⟨.ok (some s'.ledger), s', l'⟩ := by
    simp only [run, download, if_neg hopen, hask, hs']
    rfl
  obtain ⟨hblocks, -⟩ := Store.commit_ok hs'
  rw [hrun]
  exact ⟨rfl, hblocks, rfl⟩

/-- When the first answer is certified and reaches the target, it is what is committed. -/
theorem download_of_first_answer {peer : PublicKey} {l' : σ} {blocks : List Block}
    (peers : List PublicKey) (start : UInt64) (hbelow : s.ledger.height < target)
    (hanswer : L.retrieve l s.ledger.height peer = (blocks, l'))
    (hcertified : Validation.Certified p.model s.ledger blocks)
    (hreached : target ≤ (s.ledger.extendAll blocks).height) (hasked : 1 ≤ p.maxRequests)
    (happly : s.failApplyAt = none) (hcommit : s.failNextCommit = false)
    (hbase : s.ledger.height.toNat = s.blocks.length) :
    let run := download L p s l target (peer :: peers) start
    run.result = .ok (some run.store.ledger) ∧ run.store.blocks = s.blocks ++ blocks
      ∧ run.loader = l' := by
  obtain ⟨n, hn⟩ := Nat.exists_eq_add_of_le' hasked
  have habsorb := Validation.absorb_of_certified s.openTransaction.1 happly hcertified
  have hask : askPeers L p target (peer :: peers) s.openTransaction.1 l
      = (.ok (true, s.openTransaction.1.grow blocks), l') := by
    have hopen : s.openTransaction.1.ledger = s.ledger := rfl
    simp only [askPeers, hn, askPeer, hopen, hanswer, habsorb, Transaction.ledger_grow, hreached,
      decide_true, Bool.and_self, if_true]
  have hne : blocks ≠ [] := by
    rintro rfl
    exact absurd hreached (UInt64.not_le.mpr hbelow)
  exact download_of_reached start (UInt64.not_le.mpr hbelow) hask hne hcommit hbase

/-- **Downloads are sound and atomic.** There is no result exactly when the
committed ledger had reached the target, and then nobody is asked. A ledger is
returned only when one commit has put new blocks on the chain, each of which
passes the check on the ledger of the chain below it; it is the committed one
and has reached the target. An error leaves the chain as it was. The height
that the decision was made at plays no part. -/
theorem download_sound_and_atomic (L : Loader σ) (p : SyncPolicy) (s : Store) (l : σ)
    (target : UInt64) (peers : List PublicKey) (start : UInt64) :
    let r := download L p s l target peers start
    (r.result = .ok none ↔ target ≤ s.ledger.height)
      ∧ (r.result = .ok none →
          exchanges L p s l target peers = [] ∧ r.loader = l ∧ r.store.blocks = s.blocks)
      ∧ (∀ led, r.result = .ok (some led) → ∃ new, new ≠ [] ∧ r.store.blocks = s.blocks ++ new
          ∧ (∀ i b, new[i]? = some b → Validation.check p.model b
              (Store.ofChain s.peers (s.blocks ++ new.take i)).ledger = .ok ())
          ∧ led = r.store.ledger ∧ r.store.peers = s.peers ∧ target ≤ led.height)
      ∧ (∀ e, r.result = .error e → r.store.blocks = s.blocks)
      ∧ ∀ start', download L p s l target peers start' = r := by
  intro r
  have hcases := download_cases L p s l target peers start
  refine ⟨hcases.result_none_iff, ?_, ?_, ?_, fun _ => rfl⟩
  · intro hnone
    obtain ⟨hlog, hloader, hblocks, -⟩ := hcases.idle_of_reached (hcases.result_none_iff.mp hnone)
    exact ⟨hlog, hloader, hblocks⟩
  · intro led hled
    obtain ⟨new, hne, hblocks, hcertified, hpeers, hledger, hle⟩ := hcases.committed_chain hled
    refine ⟨new, hne, hblocks, ?_, hledger, hpeers, hle⟩
    intro i b hb
    rw [Validation.check_eq_ok_iff, Store.ledger_ofChain_append]
    exact hcertified.certificate hb
  · intro e he
    exact (hcases.unchanged_of_error he).1

end Synchronizer

end LedgerCommit
