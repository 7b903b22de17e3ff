import LedgerCommit.Proofs.SyncRun

/-!
# Events and the ledger

A commit event is given exactly when the chain has grown, and then by one
commit. `Resolution` lists the ways in which a decision is resolved: one
commit puts new blocks on the chain and is reported, or no block comes to the
chain and no commit is reported. The only way to be broken off is to reach the
last height.
-/

namespace LedgerCommit

/-! ## How far exchanges lead -/

namespace Validation

/-- The transaction as far as a chain is taken into it: up to the first block
that is refused or cannot be checked. -/
def furthest (m : FaultModel) : Transaction → List Block → Transaction
  | tx, [] => tx
  | tx, b :: rest =>
      match check m b tx.ledger with
      | .error _ => tx
      | .ok () =>
          match tx.apply b with
          | .error _ => tx
          | .ok tx => furthest m tx rest

variable {m : FaultModel} {tx tx' : Transaction} {bs : List Block}

theorem furthest_of_absorb {valid : Bool} (h : absorb m tx bs = .ok (valid, tx')) :
    furthest m tx bs = tx' := by
  induction bs generalizing tx with
  | nil => cases h; rfl
  | cons b rest ih =>
      rw [furthest]
      rw [absorb] at h
      split at h
      · cases h
      · rename_i hcheck
        cases h
        rw [hcheck]
      · rename_i hcheck
        rw [hcheck]
        split at h
        · cases h
        · rename_i happly
          cases h
          simp only [happly]
        · rename_i happly
          simp only [happly]
          exact ih h

/-- With fewer than `2 ^ 62` peers a chain overflows only at the last height. -/
theorem height_furthest_of_overflow {o : Overflow} (hpeers : tx.ledger.peers.length < 2 ^ 62)
    (h : absorb m tx bs = .error o) :
    2 ^ 64 - 1 ≤ (furthest m tx bs).ledger.height.toNat := by
  induction bs generalizing tx with
  | nil => cases h
  | cons b rest ih =>
      -- where the block itself overflows, the transaction stands at the last height
      have hhere : 2 ^ 64 - 1 ≤ tx.ledger.height.toNat ∨ tx.ledger.height.toNat + 1 < 2 ^ 64 := by
        omega
      rw [furthest]
      rw [absorb] at h
      split at h
      · rename_i hcheck
        rw [hcheck]
        exact hhere.resolve_right fun hroom => check_ne_overflow hpeers hroom hcheck
      · cases h
      · rename_i hcheck
        rw [hcheck]
        split at h
        · rename_i happly
          simp only [happly]
          exact hhere.resolve_right fun hroom => apply_ne_overflow hroom happly
        · cases h
        · rename_i happly
          simp only [happly]
          obtain rfl := Transaction.eq_grow_of_apply happly
          exact ih (by rwa [Transaction.ledger_grow, Ledger.peers_extendAll]) h

end Validation

namespace Synchronizer

variable {σ : Type} {L : Loader σ} {m : FaultModel} {p : SyncPolicy} {target : UInt64}
  {peer : PublicKey} {peers : List PublicKey}

/-- The transaction after some exchanges, as far as each answer is taken into it. -/
def follow (m : FaultModel) (tx : Transaction) (log : List Exchange) : Transaction :=
  log.foldl (fun tx e => Validation.furthest m tx e.answer) tx

theorem follow_append (m : FaultModel) (tx : Transaction) (log log' : List Exchange) :
    follow m tx (log ++ log') = follow m (follow m tx log) log' := List.foldl_append

theorem follow_cons_of_absorb {e : Exchange} {log : List Exchange} {tx tx' : Transaction}
    {valid : Bool} (h : Validation.absorb m tx e.answer = .ok (valid, tx')) :
    follow m tx (e :: log) = follow m tx' log := by
  rw [follow, List.foldl_cons, Validation.furthest_of_absorb h, follow]

/-- A result that goes with a transaction: it holds it, or the transaction
stands at the last height and an overflow is the result. -/
def EndsAt (tx : Transaction) : Except Overflow (Bool × Transaction) → Prop
  | .ok (_, tx') => tx = tx'
  | .error _ => 2 ^ 64 - 1 ≤ tx.ledger.height.toNat

theorem Conversation.endsAt {n : Nat} {tx : Transaction} {l l' : σ} {log : List Exchange}
    {r : Except Overflow (Bool × Transaction)}
    (h : Conversation L m target peer n tx l log r l') (hpeers : tx.ledger.peers.length < 2 ^ 62) :
    EndsAt (follow m tx log) r := by
  induction h with
  | spent => exact rfl
  | overflow _ habsorb => exact Validation.height_furthest_of_overflow hpeers habsorb
  | reached _ habsorb _ => exact Validation.furthest_of_absorb habsorb
  | stopped _ habsorb _ => exact Validation.furthest_of_absorb habsorb
  | again _ habsorb _ _ _ ih =>
      rw [follow_cons_of_absorb habsorb]
      obtain ⟨new, -, rfl, -, -⟩ := Validation.absorb_eq_ok habsorb
      exact ih (by rwa [Transaction.ledger_grow, Ledger.peers_extendAll])

/-- An attempt ends where its exchanges lead. -/
theorem Attempt.endsAt {tx : Transaction} {l l' : σ} {log : List Exchange}
    {r : Except Overflow (Bool × Transaction)} (h : Attempt L p target peers tx l log r l')
    (hpeers : tx.ledger.peers.length < 2 ^ 62) : EndsAt (follow p.model tx log) r := by
  induction h with
  | exhausted => exact rfl
  | reached hpeer => exact hpeer.endsAt hpeers
  | overflow hpeer => exact hpeer.endsAt hpeers
  | next hpeer _ ih =>
      have hfirst := hpeer.endsAt hpeers
      obtain ⟨new, rfl, -, -⟩ := hpeer.grows rfl
      rw [EndsAt] at hfirst
      rw [follow_append, hfirst]
      exact ih (by rwa [Transaction.ledger_grow, Ledger.peers_extendAll])

/-- The exchanges of resolving a decision. Only downloads make any. -/
def exchangesOf (L : Loader σ) (p : SyncPolicy) (s : Store) (l : σ) : Decision → List Exchange
  | .otherBlock round _ signers _ => exchanges L p s l round.height signers
  | .future round _ signers => exchanges L p s l (heightBelow round.height) signers
  | _ => []

/-- The height that a transaction reaches when a decision is resolved. -/
def heightReached (L : Loader σ) (p : SyncPolicy) (s : Store) (l : σ) (d : Decision) : UInt64 :=
  (follow p.model s.openTransaction.1 (exchangesOf L p s l d)).ledger.height

end Synchronizer

/-! ## Commits -/

namespace Store

/-- No block has come to the chain. -/
structure Keeps (s s' : Store) : Prop where
  peers : s'.peers = s.peers
  blocks : s'.blocks = s.blocks
  commits : s'.commits = s.commits
  preparedCommits : s'.preparedCommits = s.preparedCommits

/-- One commit, of a transaction or as prepared, is counted. -/
def CountedOnce (s s' : Store) : Prop :=
  s'.commits = s.commits + 1 ∧ s'.preparedCommits = s.preparedCommits
    ∨ s'.commits = s.commits ∧ s'.preparedCommits = s.preparedCommits + 1

/-- One commit has put new blocks on the chain. -/
structure Gains (s s' : Store) (new : List Block) : Prop where
  peers : s'.peers = s.peers
  nonempty : new ≠ []
  blocks : s'.blocks = s.blocks ++ new
  counted : s.CountedOnce s'
  numbered : Numbered s.blocks → Numbered s'.blocks

variable {s s' : Store} {new : List Block}

theorem Keeps.refl (s : Store) : s.Keeps s := ⟨rfl, rfl, rfl, rfl⟩

theorem Gains.blocks_ne (h : s.Gains s' new) : s'.blocks ≠ s.blocks := by
  rw [h.blocks]
  intro heq
  exact h.nonempty (List.append_right_eq_self.mp heq)

theorem keeps_of_commit {tx : Transaction} {e : StoreError}
    (h : s.openTransaction.2.commit tx = (.error e, s')) : s.Keeps s' := by
  obtain ⟨hblocks, hcommits, hprepared, -⟩ := commit_error h
  have hpeers := peers_commit s.openTransaction.2 tx
  rw [h] at hpeers
  exact ⟨hpeers, hblocks, hcommits, hprepared⟩

theorem gains_of_commit {led : Ledger} (hnew : new ≠ [])
    (hnumbered : Numbered s.blocks → Numbered (s.blocks ++ new))
    (h : s.openTransaction.2.commit (s.openTransaction.1.grow new) = (.ok led, s')) :
    s.Gains s' new ∧ led = s'.ledger := by
  obtain ⟨hblocks, -, -, hcommits, hprepared, hled⟩ := commit_ok h
  have hpeers := peers_commit s.openTransaction.2 (s.openTransaction.1.grow new)
  rw [h] at hpeers
  have hchain : s'.blocks = s.blocks ++ new := hblocks
  exact ⟨⟨hpeers, hnew, hchain, .inl ⟨hcommits, hprepared⟩, by rwa [hchain]⟩, hled⟩

end Store

namespace Synchronizer

section

variable {s s' : Store} {b : Block} {led : Ledger} {e : Fault StoreError}

theorem gains_of_applyAndCommit (h : applyAndCommit s b = (.ok led, s')) :
    s.Gains s' [b] ∧ led = s'.ledger := by
  unfold applyAndCommit at h
  dsimp only at h
  split at h
  · cases h
  · rename_i tx happly
    obtain ⟨-, -, -, -, hheight, -⟩ := Transaction.apply_eq_ok happly
    obtain rfl := Transaction.eq_grow_of_apply happly
    have hnumbered : Numbered s.blocks → Numbered (s.blocks ++ [b]) := by
      intro hs
      refine numbered_concat.mpr ⟨hs, ?_⟩
      rw [hheight, ← hs.height_ledger s.peers]
      rfl
    rcases hcommit : s.openTransaction.2.commit (s.openTransaction.1.grow [b]) with ⟨e | l, s''⟩
    · rw [hcommit] at h
      cases h
    · rw [hcommit] at h
      cases h
      exact Store.gains_of_commit (List.cons_ne_nil b []) hnumbered hcommit

/-- A block that is not committed leaves the chain alone, and overflows at the last height only. -/
theorem keeps_of_applyAndCommit (h : applyAndCommit s b = (.error e, s')) :
    s.Keeps s' ∧ ∀ o, e = .overflow o → 2 ^ 64 - 1 ≤ s.ledger.height.toNat := by
  unfold applyAndCommit at h
  dsimp only at h
  split at h
  · rename_i e' happly
    cases h
    refine ⟨⟨rfl, rfl, rfl, rfl⟩, ?_⟩
    rintro o rfl
    by_contra hroom
    refine Validation.apply_ne_overflow ?_ happly
    show s.ledger.height.toNat + 1 < 2 ^ 64
    omega
  · rename_i tx happly
    rcases hcommit : s.openTransaction.2.commit tx with ⟨e' | l, s''⟩
    · rw [hcommit] at h
      cases h
      exact ⟨Store.keeps_of_commit hcommit, nofun⟩
    · rw [hcommit] at h
      cases h

/-- The held block is committed once, whether or not it was prepared. -/
theorem gains_of_commitHeld (h : commitHeld s b = (.ok led, s')) :
    s.Gains s' [b] ∧ led = s'.ledger := by
  unfold commitHeld at h
  split at h
  · split at h
    · rename_i l s'' hprepared
      cases h
      obtain ⟨hblocks, hheight, hpeers, hcommits, hcount, hled⟩ := Store.commitPrepared_ok hprepared
      refine ⟨⟨hpeers, List.cons_ne_nil b [], hblocks, .inr ⟨hcommits, hcount⟩, ?_⟩, hled⟩
      intro hs
      rw [hblocks]
      exact numbered_concat.mpr ⟨hs, hheight⟩
    · rename_i e' s'' hprepared
      obtain rfl := Store.commitPrepared_error hprepared
      exact gains_of_applyAndCommit h
  · exact gains_of_applyAndCommit h

theorem keeps_of_commitHeld (h : commitHeld s b = (.error e, s')) :
    s.Keeps s' ∧ ∀ o, e = .overflow o → 2 ^ 64 - 1 ≤ s.ledger.height.toNat := by
  unfold commitHeld at h
  split at h
  · split at h
    · cases h
    · rename_i e' s'' hprepared
      obtain rfl := Store.commitPrepared_error hprepared
      exact keeps_of_applyAndCommit h
  · exact keeps_of_applyAndCommit h

end

section

variable {σ : Type} {L : Loader σ} {p : SyncPolicy} {s : Store} {l : σ} {target : UInt64}
  {peers : List PublicKey} {log : List Exchange}
  {run : Run σ (Except (Fault SyncError) (Option Ledger))}

/-- A download that returns a ledger has committed once, up to the target. -/
theorem Download.gains {led : Ledger} (h : Download L p s l target peers log run)
    (hr : run.result = .ok (some led)) :
    (∃ new, s.Gains run.store new) ∧ led = run.store.ledger ∧ target ≤ led.height := by
  obtain ⟨-, -, -, -, -, -, hreached⟩ := h.committed_chain hr
  cases h with
  | alreadyThere => cases hr
  | overflow => cases hr
  | exhausted => cases hr
  | refused => cases hr
  | committed _ hattempt hcommit =>
      cases hr
      obtain ⟨new, rfl, hcertified, -⟩ := hattempt.grows rfl
      have hnew : new ≠ [] := (Store.commit_ok hcommit).2.1
      obtain ⟨hgains, hled⟩ := Store.gains_of_commit hnew
        (fun hs => hs.append_certified s.peers hcertified) hcommit
      exact ⟨⟨new, hgains⟩, hled, hreached⟩

/-- A download that returns no ledger leaves the chain alone. -/
theorem Download.keeps (h : Download L p s l target peers log run)
    (hr : ∀ led, run.result ≠ .ok (some led)) : s.Keeps run.store := by
  cases h with
  | alreadyThere => exact ⟨rfl, rfl, rfl, rfl⟩
  | overflow => exact ⟨rfl, rfl, rfl, rfl⟩
  | exhausted => exact ⟨rfl, rfl, rfl, rfl⟩
  | refused _ _ hcommit => exact Store.keeps_of_commit hcommit
  | committed => exact absurd rfl (hr _)

/-- A download overflows only when its transaction has reached the last height. -/
theorem Download.height_of_overflow {o : Overflow} (h : Download L p s l target peers log run)
    (hpeers : s.peers.length < 2 ^ 62) (hr : run.result = .error (.overflow o)) :
    2 ^ 64 - 1 ≤ (follow p.model s.openTransaction.1 log).ledger.height.toNat := by
  cases h with
  | alreadyThere => cases hr
  | overflow _ hattempt => exact hattempt.endsAt hpeers
  | exhausted => cases hr
  | refused => cases hr
  | committed => cases hr

end

/-! ## The ways to resolve a decision -/

/-- What the new blocks and the ledger after them are for a decision: the
held block alone, or the chain up to the height that is asked for. -/
def Fulfils : Decision → List Block → Ledger → Prop
  | .heldBlock _ _ block, new, _ => new = [block]
  | .otherBlock round _ _ _, _, led => round.height.toNat ≤ led.height.toNat
  | .future round _ _, _, led => round.height.toNat - 1 ≤ led.height.toNat
  | _, _, _ => False

variable {σ : Type}

/-- The ways in which resolving a decision can go. -/
inductive Resolution (L : Loader σ) (p : SyncPolicy) (s : Store) (l : σ) (d : Decision)
    (r : Run σ (Except Overflow (Option SyncEvent))) : Prop where
  /-- One commit, which is reported. -/
  | committed {new : List Block} : s.Gains r.store new → Fulfils d new r.store.ledger →
      r.result = .ok (some ⟨.commit, d.round, r.store.ledger⟩) → Resolution L p s l d r
  /-- Nothing could be committed. -/
  | failed : s.Keeps r.store → r.result = .ok none → Resolution L p s l d r
  /-- An overflow broke it off. -/
  | overflow {o : Overflow} : s.Keeps r.store → r.result = .error o →
      (s.peers.length < 2 ^ 62 → 2 ^ 64 - 1 ≤ (heightReached L p s l d).toNat) →
      Resolution L p s l d r
  /-- There was nothing to commit. -/
  | reported (result : SyncResult) : result ≠ .commit →
      r = ⟨.ok (some ⟨result, d.round, d.ledger⟩), s, l⟩ → Resolution L p s l d r

theorem toNat_heightBelow (h : UInt64) : (heightBelow h).toNat = h.toNat - 1 := by
  unfold heightBelow
  split
  · rename_i hzero
    rw [hzero]
    rfl
  · rename_i hne
    obtain ⟨n, hn⟩ := exists_position hne
    rw [UInt64.toNat_sub_of_le _ _ (UInt64.le_iff_toNat_le.mpr (by rw [hn]; exact Nat.succ_pos n))]
    rfl

variable {L : Loader σ} {p : SyncPolicy} {s : Store} {l : σ}

/-- A decision that is resolved by a download up to `target` goes one of the ways. -/
theorem resolution_of_download {d : Decision} {target : UInt64} {peers : List PublicKey}
    {round : Round} {ledger : Ledger} (hround : d.round = round)
    (hlog : exchangesOf L p s l d = exchanges L p s l target peers)
    (hfulfils : ∀ new led, target ≤ led.height → Fulfils d new led) :
    Resolution L p s l d (catchUp L p s l round ledger target peers) := by
  have hcases := download_cases L p s l target peers ledger.height
  unfold catchUp
  dsimp only
  rcases hr : (download L p s l target peers ledger.height).result with (e | o) | _ | led
  · exact .failed (hcases.keeps (by simp [hr])) rfl
  · refine .overflow (hcases.keeps (by simp [hr])) rfl ?_
    intro hpeers
    rw [heightReached, hlog]
    exact hcases.height_of_overflow hpeers hr
  · exact .failed (hcases.keeps (by simp [hr])) rfl
  · obtain ⟨⟨new, hgains⟩, hled, hreached⟩ := hcases.gains hr
    rw [hled] at hreached
    refine .committed hgains (hfulfils new _ hreached) ?_
    rw [hround, ← hled]
    rfl

/-- **Every decision is resolved in one of these ways.** -/
theorem resolve_cases (L : Loader σ) (p : SyncPolicy) (s : Store) (l : σ) (d : Decision) :
    Resolution L p s l d (resolve L p s l d) := by
  cases d with
  | heldBlock round ledger block =>
      unfold resolve
      dsimp only
      rcases hcommit : commitHeld s block with ⟨(e | o) | led, s'⟩
      · exact .failed (keeps_of_commitHeld hcommit).1 rfl
      · obtain ⟨hkeeps, hlast⟩ := keeps_of_commitHeld hcommit
        exact .overflow hkeeps rfl fun _ => hlast o rfl
      · obtain ⟨hgains, rfl⟩ := gains_of_commitHeld hcommit
        exact .committed hgains rfl rfl
  | otherBlock round ledger signers block =>
      refine resolution_of_download rfl rfl ?_
      intro new led hle
      exact UInt64.le_iff_toNat_le.mp hle
  | future round ledger signers =>
      refine resolution_of_download rfl rfl ?_
      intro new led hle
      have := UInt64.le_iff_toNat_le.mp hle
      rwa [toNat_heightBelow] at this
  | nothing round ledger signers => exact .reported .nothing nofun rfl
  | blockReject round ledger signers => exact .reported .reject nofun rfl
  | proposalReject round ledger signers => exact .reported .reject nofun rfl

variable {d : Decision} {r : Run σ (Except Overflow (Option SyncEvent))}

theorem Resolution.peers (h : Resolution L p s l d r) : r.store.peers = s.peers := by
  cases h with
  | committed hgains _ _ => exact hgains.peers
  | failed hkeeps _ => exact hkeeps.peers
  | overflow hkeeps _ _ => exact hkeeps.peers
  | reported _ _ hr => rw [hr]

theorem Resolution.numbered (h : Resolution L p s l d r) (hs : Numbered s.blocks) :
    Numbered r.store.blocks := by
  cases h with
  | committed hgains _ _ => exact hgains.numbered hs
  | failed hkeeps _ => rwa [hkeeps.blocks]
  | overflow hkeeps _ _ => rwa [hkeeps.blocks]
  | reported _ _ hr => rwa [hr]

/-- With fewer than `2 ^ 62` peers only the last height breaks a decision off. -/
theorem Resolution.height_of_overflow {o : Overflow} (h : Resolution L p s l d r)
    (hr : r.result = .error o) (hpeers : s.peers.length < 2 ^ 62) :
    2 ^ 64 - 1 ≤ (heightReached L p s l d).toNat := by
  cases h with
  | committed _ _ hevent => rw [hr] at hevent; cases hevent
  | failed _ hnone => rw [hr] at hnone; cases hnone
  | overflow _ _ hlast => exact hlast hpeers
  | reported _ _ hrun => rw [hrun] at hr; cases hr

/-- Without a commit event the chain and the counters stay. -/
theorem Resolution.keeps (h : Resolution L p s l d r)
    (hquiet : ∀ e, r.result = .ok (some e) → e.result ≠ .commit) : s.Keeps r.store := by
  cases h with
  | committed _ _ hr => exact absurd rfl (hquiet _ hr)
  | failed hkeeps _ => exact hkeeps
  | overflow hkeeps _ _ => exact hkeeps
  | reported _ _ hr => rw [hr]; exact .refl s

/-- A commit event tells of one commit, which is what the decision asks for. -/
theorem Resolution.gains {e : SyncEvent} (h : Resolution L p s l d r)
    (hr : r.result = .ok (some e)) (hcommit : e.result = .commit) :
    e = ⟨.commit, d.round, r.store.ledger⟩
      ∧ ∃ new, s.Gains r.store new ∧ Fulfils d new r.store.ledger := by
  cases h with
  | committed hgains hfulfils hevent =>
      rw [hr] at hevent
      cases hevent
      exact ⟨rfl, _, hgains, hfulfils⟩
  | failed _ hnone => rw [hr] at hnone; cases hnone
  | overflow _ herror _ => rw [hr] at herror; cases herror
  | reported _ hne hrun =>
      rw [hrun] at hr
      cases hr
      exact absurd hcommit hne

/-! ## Runs -/

theorem peers_step (s : Store) (l : σ) (i : Input) : (step L p s l i).1.peers = s.peers := by
  cases i with
  | resolve d => exact (resolve_cases L p s l d).peers
  | prepare b => rfl
  | scriptCommitFailure => rfl
  | scriptApplyFailure height => rfl

theorem numbered_step {s : Store} (h : Numbered s.blocks) (l : σ) (i : Input) :
    Numbered (step L p s l i).1.blocks := by
  cases i with
  | resolve d => exact (resolve_cases L p s l d).numbered h
  | prepare b => exact h
  | scriptCommitFailure => exact h
  | scriptApplyFailure height => exact h

theorem peers_run (s : Store) (l : σ) (is : List Input) :
    (run L p s l is).1.peers = s.peers := by
  induction is generalizing s l with
  | nil => rfl
  | cons i is ih => rw [run, ih, peers_step]

/-- No run of decisions, prepared blocks and scripted failures spoils the numbers. -/
theorem numbered_run {s : Store} (h : Numbered s.blocks) (l : σ) (is : List Input) :
    Numbered (run L p s l is).1.blocks := by
  induction is generalizing s l with
  | nil => exact h
  | cons i is ih => exact ih (numbered_step h l i) _

/-- **Events match the ledger.** After any inputs on a numbered chain, let one
more decision be resolved, in which no transaction reaches the last height.
The call returns. It gives a commit event exactly when the chain has changed;
the event carries the round of the decision and the committed ledger, one
commit is counted, and the new blocks are what the decision asks for. Without
a commit event chain and counters stay. Decisions that ask for no block are
reported as they are, and touch neither store nor loader. -/
theorem events_match_ledger (L : Loader σ) (p : SyncPolicy) {s : Store} (l : σ)
    (hnumbered : Numbered s.blocks) (hpeers : s.peers.length < 2 ^ 62) (is : List Input)
    (d : Decision)
    (hroom : (heightReached L p (run L p s l is).1 (run L p s l is).2 d).toNat < 2 ^ 64 - 1) :
    let before := (run L p s l is).1
    let loader := (run L p s l is).2
    let r := resolve L p before loader d
    (∃ event, r.result = .ok event)
      ∧ ((∃ e, r.result = .ok (some e) ∧ e.result = .commit) ↔ r.store.blocks ≠ before.blocks)
      ∧ (∀ e, r.result = .ok (some e) → e.result = .commit →
          e.round = d.round ∧ e.ledger = r.store.ledger
            ∧ e.ledger.height.toNat = r.store.blocks.length
            ∧ before.CountedOnce r.store
            ∧ ∃ new, new ≠ [] ∧ r.store.blocks = before.blocks ++ new ∧ Fulfils d new e.ledger)
      ∧ ((∀ e, r.result = .ok (some e) → e.result ≠ .commit) → before.Keeps r.store)
      ∧ (∀ round ledger signers, d = .nothing round ledger signers →
          r = ⟨.ok (some ⟨.nothing, round, ledger⟩), before, loader⟩)
      ∧ ∀ round ledger signers, d = .blockReject round ledger signers
          ∨ d = .proposalReject round ledger signers →
          r = ⟨.ok (some ⟨.reject, round, ledger⟩), before, loader⟩ := by
  intro before loader r
  have hcases : Resolution L p before loader d r := resolve_cases L p before loader d
  have hpeers' : before.peers.length < 2 ^ 62 := by rwa [peers_run]
  have hheight : r.store.ledger.height.toNat = r.store.blocks.length :=
    (hcases.numbered (numbered_run hnumbered l is)).height_ledger r.store.peers
  refine ⟨?_, ⟨?_, ?_⟩, ?_, hcases.keeps, ?_, ?_⟩
  · cases hcases with
    | committed _ _ hr => exact ⟨_, hr⟩
    | failed _ hr => exact ⟨_, hr⟩
    | overflow _ _ hlast => exact absurd (hlast hpeers') (Nat.not_le.mpr hroom)
    | reported _ _ hr => exact ⟨_, by rw [hr]⟩
  · rintro ⟨e, hr, hcommit⟩
    obtain ⟨-, new, hgains, -⟩ := hcases.gains hr hcommit
    exact hgains.blocks_ne
  · intro hchanged
    by_contra hquiet
    refine hchanged (hcases.keeps ?_).blocks
    intro e hr hcommit
    exact hquiet ⟨e, hr, hcommit⟩
  · intro e hr hcommit
    obtain ⟨rfl, new, hgains, hfulfils⟩ := hcases.gains hr hcommit
    exact ⟨rfl, rfl, hheight, hgains.counted, new, hgains.nonempty, hgains.blocks, hfulfils⟩
  · rintro round ledger signers rfl
    rfl
  · rintro round ledger signers (rfl | rfl)
    · rfl
    · rfl

theorem prepared_block_is_reported :
    let L : Loader Unit := ⟨fun _ _ _ => ([], ())⟩
    let b : Block := ⟨1, .zero, 0, [], .zero, []⟩
    let before := (run L ⟨.byzantine, 1⟩ (.ofChain [] []) () [.prepare b]).1
    let r := resolve L ⟨.byzantine, 1⟩ before () (.heldBlock ⟨1, 0⟩ before.ledger b)
    before.CountedOnce r.store ∧ r.store.blocks = [b] := by
  intro L b before r
  obtain ⟨-, -, hcommit, -⟩ := events_match_ledger L ⟨.byzantine, 1⟩ (s := .ofChain [] []) ()
    .nil (by decide) [.prepare b] (.heldBlock ⟨1, 0⟩ before.ledger b) (by decide)
  obtain ⟨-, -, -, hcounted, new, -, hblocks, hnew⟩ :=
    hcommit ⟨.commit, ⟨1, 0⟩, r.store.ledger⟩ rfl rfl
  rw [hnew] at hblocks
  exact ⟨hcounted, hblocks⟩

end Synchronizer

end LedgerCommit
