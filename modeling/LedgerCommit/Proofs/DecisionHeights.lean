import LedgerCommit.Proofs.HeldBlock

/-!
# Heights of decisions

A decision is for the round of its outcome and carries the ledger of the gate.
Outcomes of rounds behind the current one are dropped, so no decision is for a
lower height than the current one. Once a proposal is taken up, that height is
the next one above the ledger. A gate that has just been started stands at the
height of its ledger, and an outcome of that height is still read.
-/

namespace LedgerCommit

namespace Gate

variable {g : Gate} {b : Ballot} {votes : List Vote}

/-! ## Round and ledger of a decision -/

/-- A decision carries the ledger of the gate and is for the round of its
votes, which is for no lower height than the current one. -/
theorem Reading.decided {g' : Gate} {ending : Ending} {d : Decision}
    (h : Reading g b votes ending (some d) g') :
    d.ledger = g.ledger ∧ d.round = b.round ∧ g.ballot.round.height ≤ b.round.height := by
  cases h with
  | held hagrees _ =>
      have hround : b.round = g.ballot.round := (Ballot.agrees_iff.mp hagrees).1
      exact ⟨rfl, hround.symm, hround ▸ UInt64.le_refl _⟩
  | nothing hfresh | other hfresh | nothingAhead hfresh | blockReject hfresh
  | proposalReject hfresh | rejectAhead hfresh =>
      exact ⟨rfl, rfl, Round.height_le_of_not_before hfresh⟩
  | ahead hahead => exact ⟨rfl, rfl, UInt64.le_of_lt hahead⟩

theorem decided_of_step {o : Outcome} {d : Decision}
    (h : (g.step (.read o)).2 = .decided (some d)) :
    d.ledger = g.ledger ∧ g.ballot.round.height ≤ d.round.height := by
  cases hcommon : commonBallot o.votes with
  | error e =>
      rw [step_read_of_error hcommon] at h
      cases h
  | ok b =>
      have hreading := reading_readBallot g o.ending b o.votes
      rw [step_read_of_ok hcommon] at h
      rw [Reply.decided.inj h] at hreading
      obtain ⟨hledger, hround, hheight⟩ := hreading.decided
      exact ⟨hledger, hround ▸ hheight⟩

/-! ## Runs -/

/-- The round of a proposal is for the height above its ledger. -/
def Input.FollowsLedger : Input → Prop
  | propose p => p.round.height.toNat = p.ledger.height.toNat + 1
  | read _ => True

theorem Input.FollowsLedger.fits {i : Input} (h : i.FollowsLedger) : i.Fits := by
  cases i with
  | propose p =>
      have hround : p.round.height.toNat = p.ledger.height.toNat + 1 := h
      have := p.round.height.toNat_lt
      show p.ledger.height.toNat < 2 ^ 64 - 1
      omega
  | read o => trivial

/-- After a proposal that was taken up, the current height stays above the ledger. -/
theorem Latest.height_lt {before after : List Input} {p : Proposal} (h : Latest g before p after)
    (hround : (g.rule.ballot p).round = p.round) (hp : (Input.propose p).FollowsLedger) :
    (g.run (before ++ .propose p :: after)).ledger.height
      < (g.run (before ++ .propose p :: after)).ballot.round.height := by
  obtain ⟨hballot, hledger, -⟩ := adopted_upTo hp.fits h.accepted
  obtain ⟨hballot', hledger'⟩ := h.quiet.ballot_ledger
  have hnext : p.round.height.toNat = p.ledger.height.toNat + 1 := hp
  rw [run_upTo, hledger', hledger, hballot', hballot, hround, UInt64.lt_iff_toNat_lt]
  omega

theorem not_quiet_of_accepts {before after : List Input} {p : Proposal}
    (h : (g.run before).Accepts p) : ¬ Quiet g (before ++ .propose p :: after) := by
  induction before generalizing g with
  | nil => exact fun hquiet => hquiet.1 h
  | cons i before ih => exact fun hquiet => ih h hquiet.2

/-- **No decision is for a height below the ledger.** Take a gate under any
rule that votes for a proposal in the proposal's round, and any proposals and
outcomes in any order, each proposal for the height above its ledger. No
decision is for a lower height than that of the ledger it carries. Once a
proposal has been taken up, every decision is for a height above it. -/
theorem decided_above_ledger (ledger : Ledger) (alternative : Option ContactOrder)
    (rule : VotingRule) (hrule : ∀ p, (rule.ballot p).round = p.round) (is : List Input)
    (hfollows : ∀ i ∈ is, i.FollowsLedger) (o : Outcome) (d : Decision)
    (h : (((start ledger alternative rule).run is).step (.read o)).2 = .decided (some d)) :
    let g := start ledger alternative rule
    d.ledger.height ≤ d.round.height
      ∧ ((∃ before p after, is = before ++ .propose p :: after ∧ (g.run before).Accepts p) →
          d.ledger.height < d.round.height) := by
  intro g
  obtain ⟨hledger, hheight⟩ := decided_of_step h
  rw [hledger]
  rcases quiet_or_latest g is with hquiet | ⟨before, p, after, rfl, hlatest⟩
  · -- nothing was taken up: the gate stands where it was started
    obtain ⟨hballot', hledger'⟩ := hquiet.ballot_ledger
    rw [hballot'] at hheight
    rw [hledger']
    refine ⟨hheight, ?_⟩
    rintro ⟨before, p, after, rfl, haccepts⟩
    exact absurd hquiet (not_quiet_of_accepts haccepts)
  · have hrule' : (g.rule.ballot p).round = p.round := hrule p
    have hlt := hlatest.height_lt hrule' (hfollows _ (by simp))
    have := UInt64.lt_of_lt_of_le hlt hheight
    exact ⟨UInt64.le_of_lt this, fun _ => this⟩

theorem reject_after_proposal_is_above :
    let ledger : Ledger := ⟨[], ⟨4, .zero⟩⟩
    let vote (block : Hash) : Vote :=
      ⟨⟨⟨5, 1⟩, ⟨.zero, block⟩, none⟩, ⟨⟨.replicate 32 1⟩, ⟨.replicate 64 0⟩⟩⟩
    let o : Outcome := ⟨.reject, [vote .zero, vote ⟨.replicate 32 1⟩]⟩
    let is : List Input := [.propose ⟨⟨5, 0⟩, ledger, none⟩]
    let d : Decision := .blockReject ⟨5, 1⟩ ledger (signersOf o.votes)
    (((start ledger none).run is).step (.read o)).2 = .decided (some d)
      ∧ d.ledger.height < d.round.height := by
  intro ledger vote o is d
  have hfollows : ∀ i ∈ is, i.FollowsLedger := by
    intro i hi
    rw [List.mem_singleton.mp hi]
    rfl
  have hdecided : (((start ledger none).run is).step (.read o)).2 = .decided (some d) := rfl
  have habove := (decided_above_ledger ledger none .usual round_ofProposal is hfollows o d
    hdecided).2
  exact ⟨hdecided, habove ⟨[], _, [], rfl, rfl⟩⟩

/-- Before any proposal is taken up, a reject of the height that the ledger
has reached already is read as a decision for that height. -/
theorem reject_at_start_is_not_above :
    ¬ ∀ (ledger : Ledger) (alternative : Option ContactOrder) (is : List Input) (o : Outcome)
      (d : Decision), (∀ i ∈ is, i.FollowsLedger) →
      (((start ledger alternative).run is).step (.read o)).2 = .decided (some d) →
      d.ledger.height < d.round.height := by
  intro habove
  let vote : Vote := ⟨⟨⟨4, 0⟩, ⟨⟨.replicate 32 1⟩, ⟨.replicate 32 2⟩⟩, none⟩,
    ⟨⟨.replicate 32 1⟩, ⟨.replicate 64 0⟩⟩⟩
  have hlt := habove ⟨[], ⟨4, .zero⟩⟩ none [] ⟨.reject, [vote]⟩
    (.blockReject ⟨4, 0⟩ ⟨[], ⟨4, .zero⟩⟩ [vote.signer]) nofun rfl
  exact absurd hlt (by decide)

end Gate

end LedgerCommit
