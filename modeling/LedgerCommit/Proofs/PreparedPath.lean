import LedgerCommit.Proofs.SyncEvents

/-!
# The prepared path and the generic one

A held block is committed directly when it is the prepared one, and through a
transaction otherwise. Two stores with one chain are compared, of which the
second does not use the prepared path. They stay twins whatever is decided,
with one exception: the transaction also looks at the link to the top, which
the prepared path does not.
-/

namespace LedgerCommit

namespace Store

/-- The same store with the prepared path disabled. -/
def unprepared (s : Store) : Store := { s with usesPrepared := false, prepared := none }

/-- The block is prepared and next in height, without a link to the top. -/
structure TakesUnlinked (s : Store) (b : Block) : Prop where
  uses : s.usesPrepared = true
  prepared : s.prepared = some b.hash
  next : b.height.toNat = s.blocks.length + 1
  unlinked : b.prev ≠ s.ledger.tip.hash

/-- One chain and nothing scripted, and no prepared path in the second store. -/
structure Twin (s t : Store) : Prop where
  peers : t.peers = s.peers
  blocks : t.blocks = s.blocks
  generic : t.usesPrepared = false
  commits : s.failNextCommit = false ∧ t.failNextCommit = false
  applies : s.failApplyAt = none ∧ t.failApplyAt = none

variable {s t : Store}

theorem Twin.of_unprepared (hcommit : s.failNextCommit = false) (happly : s.failApplyAt = none) :
    s.Twin s.unprepared :=
  ⟨rfl, rfl, rfl, ⟨hcommit, hcommit⟩, ⟨happly, happly⟩⟩

theorem Twin.ledger_eq (h : s.Twin t) : t.ledger = s.ledger := by
  rw [ledger_eq_ofChain, h.peers, h.blocks]
  rfl

theorem Twin.prepare (h : s.Twin t) (b : Block) : (s.prepare b).Twin t :=
  ⟨h.peers, h.blocks, h.generic, h.commits, h.applies⟩

/-- A store that does not use the prepared path is its own twin. -/
theorem Twin.self (h : s.Twin t) : t.Twin t :=
  ⟨rfl, rfl, h.generic, ⟨h.commits.2, h.commits.2⟩, ⟨h.applies.2, h.applies.2⟩⟩

/-- The same result, over twin stores. -/
def Agree {α : Type} (x y : α × Store) : Prop := x.1 = y.1 ∧ x.2.Twin y.2

theorem Twin.openTransaction (h : s.Twin t) : Agree s.openTransaction t.openTransaction := by
  refine ⟨?_, h.peers, h.blocks, h.generic, h.commits, h.applies⟩
  simp only [Store.openTransaction, h.ledger_eq, h.applies.1, h.applies.2]

theorem Twin.commit (h : s.Twin t) (tx : Transaction) : Agree (s.commit tx) (t.commit tx) := by
  obtain ⟨hs, ht⟩ := h.commits
  by_cases hpending : tx.pending = []
  · simp only [Store.commit, if_pos hpending]
    exact ⟨rfl, h⟩
  · by_cases hbase : tx.base.toNat = s.blocks.length
    · have htwin : Twin
          { s with blocks := s.blocks ++ tx.pending, prepared := none, commits := s.commits + 1 }
          { t with blocks := t.blocks ++ tx.pending, prepared := none, commits := t.commits + 1 } :=
        ⟨h.peers, by rw [h.blocks], h.generic, h.commits, h.applies⟩
      simp only [Store.commit, hpending, hs, ht, hbase, h.blocks, if_false, Bool.false_eq_true,
        ne_eq, not_true_eq_false] at htwin ⊢
      exact ⟨congrArg Except.ok htwin.ledger_eq.symm, htwin⟩
    · simp only [Store.commit, hpending, hs, ht, hbase, h.blocks, if_false, Bool.false_eq_true,
        ne_eq, not_false_eq_true, if_true]
      exact ⟨rfl, h⟩

end Store

namespace Synchronizer

open Store (Agree Twin TakesUnlinked)

/-! ## The held block -/

section

variable {s t : Store} {b : Block}

theorem agree_applyAndCommit (h : s.Twin t) (b : Block) :
    Agree (applyAndCommit s b) (applyAndCommit t b) := by
  obtain ⟨htx, hopened⟩ := h.openTransaction
  rcases happly : s.openTransaction.1.apply b with e | tx
  · simp only [applyAndCommit, ← htx, happly]
    exact ⟨rfl, hopened⟩
  · obtain ⟨hresult, hstores⟩ := hopened.commit tx
    simp only [applyAndCommit, ← htx, happly, hresult]
    exact ⟨rfl, hstores⟩

/-- The next block that links to the top is committed by a transaction. -/
theorem applyAndCommit_of_linked (hnumbered : Numbered s.blocks)
    (hcommit : s.failNextCommit = false) (happly : s.failApplyAt = none)
    (hnext : b.height.toNat = s.blocks.length + 1) (hlink : b.prev = s.ledger.tip.hash) :
    ∃ s', applyAndCommit s b = (.ok s'.ledger, s') ∧ s.Gains s' [b] := by
  have hheight : s.ledger.height.toNat = s.blocks.length := hnumbered.height_ledger s.peers
  have hunscripted : s.openTransaction.1.failAt ≠ some b.height := by
    simp [Store.openTransaction, happly]
  have happlied : s.openTransaction.1.apply b = .ok (s.openTransaction.1.grow [b]) :=
    Transaction.apply_eq_grow hunscripted (by rw [hnext, ← hheight]; rfl) hlink
  obtain ⟨s', hs'⟩ := Store.commit_eq_ok s.openTransaction.2 (s.openTransaction.1.grow [b])
    (List.cons_ne_nil b []) hcommit hheight
  have hrun : applyAndCommit s b = (.ok s'.ledger, s') := by
    simp only [applyAndCommit, happlied, hs']
    rfl
  exact ⟨s', hrun, (gains_of_applyAndCommit hrun).1⟩

/-- A transaction takes no block that does not link to the top. -/
theorem applyAndCommit_of_unlinked (hnumbered : Numbered s.blocks)
    (hnext : b.height.toNat = s.blocks.length + 1) (hlink : b.prev ≠ s.ledger.tip.hash) :
    ∃ e s', applyAndCommit s b = (.error (.failed e), s') ∧ s.Keeps s' := by
  rcases hrun : applyAndCommit s b with ⟨(e | o) | led, s'⟩
  · exact ⟨e, s', rfl, (keeps_of_applyAndCommit hrun).1⟩
  · -- there is a next height
    have hlast := (keeps_of_applyAndCommit hrun).2 o rfl
    have hheight : s.ledger.height.toNat = s.blocks.length := hnumbered.height_ledger s.peers
    have := b.height.toNat_lt
    omega
  · refine absurd ?_ hlink
    simp only [applyAndCommit] at hrun
    split at hrun
    · cases hrun
    · rename_i tx happly
      exact (Transaction.apply_eq_ok happly).2.2.2.2.2

/-- The prepared block is committed directly when it is the next one in height. -/
theorem commitHeld_of_prepared (huses : s.usesPrepared = true)
    (hprepared : s.prepared = some b.hash) (hnext : b.height.toNat = s.blocks.length + 1) :
    ∃ s', commitHeld s b = (.ok s'.ledger, s') ∧ s'.peers = s.peers
      ∧ s'.blocks = s.blocks ++ [b] ∧ s'.failNextCommit = s.failNextCommit
      ∧ s'.failApplyAt = s.failApplyAt := by
  refine ⟨{ s with
    blocks := s.blocks ++ [b], prepared := none, preparedCommits := s.preparedCommits + 1 }, ?_⟩
  simp [commitHeld, Store.commitPrepared, huses, hprepared, hnext]

/-- In all other cases the block goes through a transaction. -/
theorem commitHeld_of_not_prepared (h : ¬ (s.usesPrepared = true ∧ s.prepared = some b.hash
    ∧ b.height.toNat = s.blocks.length + 1)) : commitHeld s b = applyAndCommit s b := by
  rw [commitHeld]
  split
  · rename_i huses
    split
    · rename_i led s' hprepared
      refine absurd ⟨huses, ?_, (Store.commitPrepared_ok hprepared).2.1⟩ h
      rw [Store.commitPrepared] at hprepared
      split at hprepared
      · cases hprepared
      · rename_i hhash
        exact Decidable.not_not.mp hhash
    · rename_i e s' hrefused
      rw [Store.commitPrepared_error hrefused]
  · rfl

/-- **Both paths agree on the held block unless it is taken unlinked.** -/
theorem agree_commitHeld (h : s.Twin t) (hnumbered : Numbered s.blocks)
    (hlinked : ¬ s.TakesUnlinked b) : Agree (commitHeld s b) (commitHeld t b) := by
  have hgeneric : commitHeld t b = applyAndCommit t b := by
    simp [commitHeld, h.generic]
  rw [hgeneric]
  by_cases hdirect : s.usesPrepared = true ∧ s.prepared = some b.hash
      ∧ b.height.toNat = s.blocks.length + 1
  · obtain ⟨huses, hprepared, hnext⟩ := hdirect
    have hlink : b.prev = t.ledger.tip.hash := by
      by_contra hne
      exact hlinked ⟨huses, hprepared, hnext, by rwa [← h.ledger_eq]⟩
    obtain ⟨s', hs, hpeers, hblocks, hcommit, happly⟩ :=
      commitHeld_of_prepared huses hprepared hnext
    obtain ⟨t', ht, hgains⟩ := applyAndCommit_of_linked (h.blocks ▸ hnumbered) h.commits.2
      h.applies.2 (h.blocks ▸ hnext) hlink
    have hkept := (agree_applyAndCommit h.self b).2
    rw [ht] at hkept
    have htwin : s'.Twin t' :=
      ⟨by rw [hgains.peers, hpeers, h.peers], by rw [hgains.blocks, hblocks, h.blocks],
        hkept.generic, ⟨hcommit.trans h.commits.1, hkept.commits.2⟩,
        ⟨happly.trans h.applies.1, hkept.applies.2⟩⟩
    rw [hs, ht]
    exact ⟨congrArg Except.ok htwin.ledger_eq.symm, htwin⟩
  · rw [commitHeld_of_not_prepared hdirect]
    exact agree_applyAndCommit h b

end

/-! ## Decisions and runs -/

section

variable {σ : Type} {L : Loader σ} {p : SyncPolicy} {s t : Store}

/-- Downloads do not know of the prepared path. -/
theorem agree_download (h : s.Twin t) (l : σ) (target : UInt64) (peers : List PublicKey)
    (start start' : UInt64) :
    let x := download L p s l target peers start
    let y := download L p t l target peers start'
    x.result = y.result ∧ x.loader = y.loader ∧ x.store.Twin y.store := by
  obtain ⟨htx, hopened⟩ := h.openTransaction
  by_cases hthere : target ≤ s.openTransaction.1.ledger.height
  · simp only [download, ← htx, if_pos hthere, true_and]
    exact hopened
  · rcases hask : askPeers L p target peers s.openTransaction.1 l with ⟨o | ⟨done, tx⟩, l'⟩
    · simp only [download, ← htx, if_neg hthere, hask, true_and]
      exact hopened
    · cases done with
      | false =>
          simp only [download, ← htx, if_neg hthere, hask, true_and]
          exact hopened
      | true =>
          obtain ⟨hresult, hstores⟩ := hopened.commit tx
          simp only [download, ← htx, if_neg hthere, hask, hresult, true_and]
          exact hstores

/-- No decision to take a block unlinked, and no failure scripted. -/
def Input.SafeOn (s : Store) : Input → Prop
  | .resolve (.heldBlock _ _ block) => ¬ s.TakesUnlinked block
  | .resolve _ => True
  | .prepare _ => True
  | .scriptCommitFailure => False
  | .scriptApplyFailure _ => False

/-- **Twins stay twins**, and give the same events, whatever is decided. -/
theorem agree_resolve (h : s.Twin t) (hnumbered : Numbered s.blocks) (l : σ) {d : Decision}
    (hsafe : (Input.resolve d).SafeOn s) :
    let x := resolve L p s l d
    let y := resolve L p t l d
    x.result = y.result ∧ x.loader = y.loader ∧ x.store.Twin y.store := by
  cases d with
  | heldBlock round ledger block =>
      obtain ⟨hresult, hstores⟩ := agree_commitHeld h hnumbered hsafe
      exact ⟨congrArg (fun r => commitEvent round (Except.map some r)) hresult, rfl, hstores⟩
  | otherBlock round ledger signers agreed =>
      obtain ⟨hresult, hloader, hstores⟩ := agree_download (L := L) (p := p) h l round.height
        signers ledger.height ledger.height
      exact ⟨congrArg (commitEvent round) hresult, hloader, hstores⟩
  | future round ledger signers =>
      obtain ⟨hresult, hloader, hstores⟩ := agree_download (L := L) (p := p) h l
        (heightBelow round.height) signers ledger.height ledger.height
      exact ⟨congrArg (commitEvent round) hresult, hloader, hstores⟩
  | nothing => exact ⟨rfl, rfl, h⟩
  | blockReject => exact ⟨rfl, rfl, h⟩
  | proposalReject => exact ⟨rfl, rfl, h⟩

/-- All inputs of a run are safe on the store they meet. -/
def SafeRun (L : Loader σ) (p : SyncPolicy) : Store → σ → List Input → Prop
  | _, _, [] => True
  | s, l, i :: is => i.SafeOn s ∧ SafeRun L p (step L p s l i).1 (step L p s l i).2 is

/-- The decisions of a run alone, without the blocks that are prepared. -/
def decided (is : List Input) : List Input :=
  is.filter fun | .resolve _ => true | _ => false

/-- **Runs with and without the prepared path end alike**, as long as no block is taken unlinked. -/
theorem agree_run {is : List Input} (h : s.Twin t) (hnumbered : Numbered s.blocks) (l : σ)
    (hsafe : SafeRun L p s l is) :
    (run L p s l is).2 = (run L p t l (decided is)).2
      ∧ (run L p s l is).1.Twin (run L p t l (decided is)).1 := by
  induction is generalizing s t l with
  | nil => exact ⟨rfl, h⟩
  | cons i is ih =>
      obtain ⟨hfirst, hrest⟩ := hsafe
      cases i with
      | resolve d =>
          obtain ⟨-, hloader, htwin⟩ := agree_resolve (L := L) (p := p) h hnumbered l hfirst
          have hkept : run L p t l (decided (.resolve d :: is))
              = run L p (resolve L p t l d).store (resolve L p t l d).loader (decided is) := rfl
          rw [hkept, ← hloader]
          exact ih htwin (numbered_step hnumbered l (.resolve d)) _ hrest
      | prepare b => exact ih (h.prepare b) hnumbered l hrest
      | scriptCommitFailure => exact hfirst.elim
      | scriptApplyFailure => exact hfirst.elim

/-- **The prepared path agrees with the generic one unless it takes a block
unlinked.** On a numbered chain with no failure scripted, whatever was
prepared, the held block of a decision leads to the same event and the same
chain on the store and on the one with the prepared path disabled, except when
the block is prepared and next in height and does not link to the top. Then it
is committed and reported on the prepared path, and the chain is broken at its
position; the generic path refuses it. -/
theorem prepared_path_agrees_iff (L : Loader σ) (p : SyncPolicy) {s : Store} (l : σ)
    (round : Round) (ledger : Ledger) (b : Block) (hnumbered : Numbered s.blocks)
    (hcommit : s.failNextCommit = false) (happly : s.failApplyAt = none) :
    let d : Decision := .heldBlock round ledger b
    let direct := resolve L p s l d
    let generic := resolve L p s.unprepared l d
    (direct.result = generic.result ∧ direct.store.blocks = generic.store.blocks
        ↔ ¬ s.TakesUnlinked b)
      ∧ (s.TakesUnlinked b →
          direct.result = .ok (some ⟨.commit, round, direct.store.ledger⟩)
            ∧ direct.store.blocks = s.blocks ++ [b]
            ∧ ¬ LinkedAt direct.store.blocks s.blocks.length
            ∧ generic.result = .ok none ∧ generic.store.blocks = s.blocks) := by
  intro d direct generic
  have hdiffer : s.TakesUnlinked b →
      direct.result = .ok (some ⟨.commit, round, direct.store.ledger⟩)
        ∧ direct.store.blocks = s.blocks ++ [b]
        ∧ ¬ LinkedAt direct.store.blocks s.blocks.length
        ∧ generic.result = .ok none ∧ generic.store.blocks = s.blocks := by
    intro h
    obtain ⟨s', hdirect, -, hblocks, -, -⟩ := commitHeld_of_prepared h.uses h.prepared h.next
    obtain ⟨e, t', hgeneric, hkeeps⟩ := applyAndCommit_of_unlinked (s := s.unprepared) hnumbered
      h.next h.unlinked
    have hdirect' : direct = ⟨.ok (some ⟨.commit, round, s'.ledger⟩), s', l⟩ := by
      simp only [direct, d, resolve, hdirect]
      rfl
    have hgeneric' : generic = ⟨.ok none, t', l⟩ := by
      have hpath : commitHeld s.unprepared b = applyAndCommit s.unprepared b := rfl
      simp only [generic, d, resolve, hpath, hgeneric]
      rfl
    rw [hdirect', hgeneric']
    refine ⟨rfl, hblocks, ?_, rfl, hkeeps.blocks⟩
    rw [hblocks, linkedAt_concat, ← hash_tip_ofChain s.peers]
    exact h.unlinked
  refine ⟨⟨?_, ?_⟩, hdiffer⟩
  · rintro ⟨hresult, -⟩ h
    obtain ⟨hdirect, -, -, hgeneric, -⟩ := hdiffer h
    rw [hdirect, hgeneric] at hresult
    cases hresult
  · intro hlinked
    obtain ⟨hresult, -, htwin⟩ := agree_resolve (L := L) (p := p) (d := d)
      (.of_unprepared hcommit happly) hnumbered l hlinked
    exact ⟨hresult, htwin.blocks.symm⟩

/-- A prepared block that links to the chain is committed either way. -/
theorem linked_prepared_block_agrees :
    let L : Loader Unit := ⟨fun _ _ _ => ([], ())⟩
    let b : Block := ⟨1, .zero, 0, [], .zero, []⟩
    let s := (Store.ofChain [] []).prepare b
    let d : Decision := .heldBlock ⟨1, 0⟩ s.ledger b
    (resolve L ⟨.byzantine, 1⟩ s () d).result = (resolve L ⟨.byzantine, 1⟩ s.unprepared () d).result
      ∧ (resolve L ⟨.byzantine, 1⟩ s () d).store.blocks
        = (resolve L ⟨.byzantine, 1⟩ s.unprepared () d).store.blocks := by
  intro L b s d
  obtain ⟨hagree, -⟩ := prepared_path_agrees_iff L ⟨.byzantine, 1⟩ (s := s) () ⟨1, 0⟩ s.ledger b
    .nil rfl rfl
  exact hagree.mpr fun h => h.unlinked rfl

/-- A prepared block that names another hash than the one below it is
committed on the prepared path and refused on the generic one. -/
theorem unlinked_prepared_block_differs :
    let L : Loader Unit := ⟨fun _ _ _ => ([], ())⟩
    let b : Block := ⟨1, ⟨.replicate 32 9⟩, 0, [], .zero, []⟩
    let s := (Store.ofChain [] []).prepare b
    let d : Decision := .heldBlock ⟨1, 0⟩ s.ledger b
    Numbered s.blocks ∧ (∀ i, LinkedAt s.blocks i) ∧ s.failNextCommit = false
      ∧ s.failApplyAt = none
      ∧ (resolve L ⟨.byzantine, 1⟩ s () d).result = .ok (some ⟨.commit, ⟨1, 0⟩, ⟨[], ⟨1, .zero⟩⟩⟩)
      ∧ (resolve L ⟨.byzantine, 1⟩ s () d).store.blocks = [b]
      ∧ (resolve L ⟨.byzantine, 1⟩ s.unprepared () d).result = .ok none
      ∧ (resolve L ⟨.byzantine, 1⟩ s.unprepared () d).store.blocks = [] := by
  intro L b s d
  refine ⟨.nil, ?_, rfl, rfl, ?_⟩
  · intro i b hb
    simp [s, Store.ofChain, Store.prepare] at hb
  · exact ⟨rfl, rfl, rfl, rfl⟩

end

end Synchronizer

end LedgerCommit
