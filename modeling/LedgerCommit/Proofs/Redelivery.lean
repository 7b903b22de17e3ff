import LedgerCommit.Proofs.HeldBlock
import LedgerCommit.Proofs.SyncEvents

/-!
# Delivering twice

Outcomes and decisions may come more than once. A gate that reads an outcome
twice in a row gives the same answer again and stays as the first reading left
it: seals that were collected are not collected again, and a block that was
given up is gone. A decision that has been committed asks for a height that
the chain has reached, and a chain never falls behind a height: whatever
happens in between, the decision is passed over when it comes again.
-/

namespace LedgerCommit

/-! ## Outcomes -/

namespace Gate

variable {g : Gate} {b : Ballot}

theorem collectSeals_twice (block : Block) (votes : List Vote) :
    collectSeals (collectSeals block votes) votes = collectSeals block votes :=
  Block.foldl_addSeal_twice block _

/-- What a reading leaves is read in the same way again. -/
theorem Reading.again {g' : Gate} {votes : List Vote} {ending : Ending} {d : Option Decision}
    (h : Reading g b votes ending d g') : Reading g' b votes ending d g' := by
  cases h with
  | stale hending hstale => exact .stale hending hstale
  | notAhead hbehind => exact .notAhead hbehind
  | @held block hagrees _ =>
      have hagain : Reading (g.hold (collectSeals block votes)) b votes .commit _ _ :=
        .held hagrees rfl
      rw [collectSeals_twice] at hagain
      exact hagain
  -- the block is given up, and then there is none to give up
  | nothing hfresh hheight _ hnothing => exact .nothing hfresh hheight (.inl rfl) hnothing
  | other hfresh _ hsome => exact .other hfresh (fun _ => .inl rfl) hsome
  | nothingAhead hfresh hheight hnothing => exact .nothingAhead hfresh hheight hnothing
  | blockReject hfresh hheight hall => exact .blockReject hfresh hheight hall
  | proposalReject hfresh hheight hall => exact .proposalReject hfresh hheight hall
  | rejectAhead hfresh hheight => exact .rejectAhead hfresh hheight
  | ahead hahead => exact .ahead hahead

theorem readBallot_twice (g : Gate) (ending : Ending) (b : Ballot) (votes : List Vote) :
    (g.readBallot ending b votes).2.readBallot ending b votes = g.readBallot ending b votes :=
  (reading_readBallot g ending b votes).again.readBallot_eq

/-- **An outcome that is read twice in a row is read the same way again**, and
the second reading changes nothing. -/
theorem step_read_twice (g : Gate) (o : Outcome) :
    (g.step (.read o)).1.step (.read o) = g.step (.read o) := by
  cases hcommon : commonBallot o.votes with
  | error e => rw [step_read_of_error hcommon, step_read_of_error hcommon]
  | ok b => simp only [step_read_of_ok hcommon, readBallot_twice]

end Gate

/-! ## Decisions -/

namespace Synchronizer

/-- The height that the chain has to reach for the decision, if it asks for blocks. -/
def heightAsked : Decision → Option UInt64
  | .heldBlock _ _ block => some block.height
  | .otherBlock round _ _ _ => some round.height
  | .future round _ _ => some (heightBelow round.height)
  | _ => none

/-- A decision that has been committed asks for a height that the chain has reached. -/
theorem heightAsked_of_fulfils {s s' : Store} {d : Decision} {new : List Block}
    (hnumbered : Numbered s.blocks) (hgains : s.Gains s' new) (h : Fulfils d new s'.ledger) :
    ∃ height, heightAsked d = some height ∧ height.toNat ≤ s'.blocks.length := by
  have hheight : s'.ledger.height.toNat = s'.blocks.length :=
    (hgains.numbered hnumbered).height_ledger s'.peers
  cases d with
  | heldBlock round ledger block =>
      have hnew : new = [block] := h
      have hnumbered' := hgains.numbered hnumbered
      rw [hgains.blocks, hnew] at hnumbered' ⊢
      refine ⟨block.height, rfl, ?_⟩
      rw [(numbered_concat.mp hnumbered').2, List.length_append]
      exact Nat.le_refl _
  | otherBlock round ledger signers block =>
      exact ⟨round.height, rfl, hheight ▸ h⟩
  | future round ledger signers =>
      refine ⟨_, rfl, ?_⟩
      rw [toNat_heightBelow]
      exact hheight ▸ h
  | nothing => exact h.elim
  | blockReject => exact h.elim
  | proposalReject => exact h.elim

section

variable {σ : Type} {L : Loader σ} {p : SyncPolicy}

/-- A held block of a height that the chain has reached is not committed. -/
theorem commitHeld_of_reached {s : Store} {b : Block} (hnumbered : Numbered s.blocks)
    (hreached : b.height.toNat ≤ s.blocks.length) (hroom : s.ledger.height.toNat < 2 ^ 64 - 1) :
    ∃ e s', commitHeld s b = (.error (.failed e), s') ∧ s.Keeps s' := by
  rcases hcommit : commitHeld s b with ⟨(e | o) | led, s'⟩
  · exact ⟨e, s', rfl, (keeps_of_commitHeld hcommit).1⟩
  · exact absurd ((keeps_of_commitHeld hcommit).2 o rfl) (Nat.not_le.mpr hroom)
  · obtain ⟨hgains, -⟩ := gains_of_commitHeld hcommit
    have hnumbered' := hgains.numbered hnumbered
    rw [hgains.blocks] at hnumbered'
    have := (numbered_concat.mp hnumbered').2
    omega

/-- A decision for a height that the chain has reached is passed over. -/
theorem resolve_of_reached {s : Store} (l : σ) {d : Decision} {height : UInt64}
    (hnumbered : Numbered s.blocks) (hasked : heightAsked d = some height)
    (hreached : height.toNat ≤ s.blocks.length) (hroom : s.ledger.height.toNat < 2 ^ 64 - 1) :
    (resolve L p s l d).result = .ok none ∧ s.Keeps (resolve L p s l d).store
      ∧ (resolve L p s l d).loader = l := by
  have hheight : s.ledger.height.toNat = s.blocks.length := hnumbered.height_ledger s.peers
  -- a download has nothing to fetch
  have hdownload : ∀ (round : Round) (ledger : Ledger) (signers : List PublicKey),
      (catchUp L p s l round ledger height signers).result = .ok none
        ∧ s.Keeps (catchUp L p s l round ledger height signers).store
        ∧ (catchUp L p s l round ledger height signers).loader = l := by
    intro round ledger signers
    have hcases := download_cases L p s l height signers ledger.height
    have hthere : height ≤ s.ledger.height := by
      rw [UInt64.le_iff_toNat_le, hheight]
      exact hreached
    have hnone := hcases.result_none_iff.mpr hthere
    refine ⟨?_, hcases.keeps (by simp [hnone]), (hcases.idle_of_reached hthere).2.1⟩
    simp only [catchUp, hnone]
    rfl
  cases d with
  | heldBlock round ledger block =>
      cases hasked
      obtain ⟨e, s', hcommit, hkeeps⟩ := commitHeld_of_reached hnumbered hreached hroom
      have hrun : resolve L p s l (.heldBlock round ledger block) = ⟨.ok none, s', l⟩ := by
        simp only [resolve, hcommit]
        rfl
      rw [hrun]
      exact ⟨rfl, hkeeps, rfl⟩
  | otherBlock round ledger signers block =>
      cases hasked
      exact hdownload round ledger signers
  | future round ledger signers =>
      cases hasked
      exact hdownload round ledger signers
  | nothing => cases hasked
  | blockReject => cases hasked
  | proposalReject => cases hasked

/-! ### Chains do not shrink -/

theorem length_le_step (s : Store) (l : σ) (i : Input) :
    s.blocks.length ≤ (step L p s l i).1.blocks.length := by
  cases i with
  | resolve d =>
      show s.blocks.length ≤ (resolve L p s l d).store.blocks.length
      cases resolve_cases L p s l d with
      | committed hgains _ _ =>
          rw [hgains.blocks, List.length_append]
          exact Nat.le_add_right _ _
      | failed hkeeps _ => rw [hkeeps.blocks]
      | overflow hkeeps _ _ => rw [hkeeps.blocks]
      | reported _ _ hr => rw [hr]
  | prepare b => exact Nat.le_refl _
  | scriptCommitFailure => exact Nat.le_refl _
  | scriptApplyFailure height => exact Nat.le_refl _

theorem length_le_run (s : Store) (l : σ) (is : List Input) :
    s.blocks.length ≤ (run L p s l is).1.blocks.length := by
  induction is generalizing s l with
  | nil => exact Nat.le_refl _
  | cons i is ih => exact Nat.le_trans (length_le_step s l i) (ih _ _)

/-- **A committed decision is not committed again**, whatever happens before it comes again. -/
theorem resolve_again {s : Store} {l : σ} {d : Decision} {e : SyncEvent}
    (hnumbered : Numbered s.blocks) (hr : (resolve L p s l d).result = .ok (some e))
    (hcommit : e.result = .commit) (js : List Input)
    (hroom : (run L p (resolve L p s l d).store (resolve L p s l d).loader js).1.ledger.height.toNat
      < 2 ^ 64 - 1) :
    let later := run L p (resolve L p s l d).store (resolve L p s l d).loader js
    let again := resolve L p later.1 later.2 d
    again.result = .ok none ∧ later.1.Keeps again.store ∧ again.loader = later.2 := by
  intro later again
  have hcases := resolve_cases L p s l d
  obtain ⟨-, new, hgains, hfulfils⟩ := hcases.gains hr hcommit
  obtain ⟨height, hasked, hreached⟩ := heightAsked_of_fulfils hnumbered hgains hfulfils
  have hgrown := length_le_run (L := L) (p := p) (resolve L p s l d).store
    (resolve L p s l d).loader js
  exact resolve_of_reached later.2 (numbered_run (hcases.numbered hnumbered) _ js) hasked
    (Nat.le_trans hreached hgrown) hroom

end

end Synchronizer

/-- **Delivering twice does no harm.** A gate that reads an outcome a second
time in a row answers the same and stays as it is. A decision that was
reported as a commit, on a numbered chain, is passed over whenever it comes
again below the last height, whatever decisions were resolved, blocks prepared
and failures scripted in between: no event is given, chain and counters stay,
and nobody is asked. -/
theorem redelivery_is_harmless :
    (∀ (g : Gate) (o : Outcome), (g.step (.read o)).1.step (.read o) = g.step (.read o))
      ∧ ∀ {σ : Type} (L : Loader σ) (p : SyncPolicy) (s : Store) (l : σ) (d : Decision)
          (e : SyncEvent) (js : List Synchronizer.Input), Numbered s.blocks →
        let first := Synchronizer.resolve L p s l d
        first.result = .ok (some e) → e.result = .commit →
        let later := Synchronizer.run L p first.store first.loader js
        later.1.ledger.height.toNat < 2 ^ 64 - 1 →
        let again := Synchronizer.resolve L p later.1 later.2 d
        again.result = .ok none ∧ later.1.Keeps again.store ∧ again.loader = later.2 := by
  refine ⟨Gate.step_read_twice, ?_⟩
  intro σ L p s l d e js hnumbered first hr hcommit later hroom
  exact Synchronizer.resolve_again hnumbered hr hcommit js hroom

theorem prepared_block_comes_again :
    let L : Loader Unit := ⟨fun _ _ _ => ([], ())⟩
    let p : SyncPolicy := ⟨.byzantine, 1⟩
    let b : Block := ⟨1, .zero, 0, [], .zero, []⟩
    let s := (Store.ofChain [] []).prepare b
    let d : Decision := .heldBlock ⟨1, 0⟩ s.ledger b
    let first := Synchronizer.resolve L p s () d
    let later := Synchronizer.run L p first.store first.loader [.prepare b, .scriptCommitFailure]
    first.result = .ok (some ⟨.commit, ⟨1, 0⟩, ⟨[], ⟨1, .zero⟩⟩⟩)
      ∧ (Synchronizer.resolve L p later.1 later.2 d).result = .ok none
      ∧ later.1.Keeps (Synchronizer.resolve L p later.1 later.2 d).store := by
  intro L p b s d first later
  have hfirst : first.result = .ok (some ⟨.commit, ⟨1, 0⟩, ⟨[], ⟨1, .zero⟩⟩⟩) := rfl
  have hroom : later.1.ledger.height.toNat < 2 ^ 64 - 1 := by decide
  obtain ⟨hnone, hkeeps, -⟩ := redelivery_is_harmless.2 L p s () d _
    [.prepare b, .scriptCommitFailure] .nil hfirst rfl hroom
  exact ⟨hfirst, hnone, hkeeps⟩

end LedgerCommit
