import LedgerCommit.Proofs.DecisionTable

/-!
# The order of the votes

The votes of an outcome come in some order, and a gate looks at the first one
for most of what it decides. Still no order is better than another: all votes
that are read are for one round, those of a commit also for one choice, and of
the other votes only whether they all share a proposal counts. So the same row
of the decision table applies in every order. What does depend on the order is
in which order signers are named, and which of two seals of one key the held
block keeps.
-/

namespace LedgerCommit

/-- The blocks are the same but for their seals, and those are of the same keys. -/
structure Block.SameButSeals (b c : Block) : Prop where
  contents : { b with seals := [] } = { c with seals := [] }
  signers : ∀ k, k ∈ b.signers ↔ k ∈ c.signers

theorem Block.sameButSeals_withFresh (b : Block) {seals seals' : List Seal}
    (h : seals.Perm seals') : (b.withFresh seals).SameButSeals (b.withFresh seals') := by
  refine ⟨rfl, fun k => ?_⟩
  rw [← foldl_addSeal, ← foldl_addSeal, mem_signers_foldl_addSeal, mem_signers_foldl_addSeal,
    (h.map Seal.signer).mem_iff]

namespace Gate

/-- What an outcome comes to when its votes are read in two orders. All of it
is the same, up to which votes a refusal names, the order of the signers and
the seals of the held block; the block decided is the one that is held then. -/
inductive ReadAlike : Gate × Reply → Gate × Reply → Prop where
  | refused (g : Gate) (e e' : OutcomeError) : ReadAlike (g, .unreadable e) (g, .unreadable e')
  | dropped (g : Gate) : ReadAlike (g, .decided none) (g, .decided none)
  | heldBlock (g : Gate) (round : Round) (ledger : Ledger) {b c : Block} : b.SameButSeals c →
      ReadAlike (g.hold b, .decided (some (.heldBlock round ledger b)))
        (g.hold c, .decided (some (.heldBlock round ledger c)))
  | otherBlock (g : Gate) (round : Round) (ledger : Ledger) (block : Hash)
      {signers signers' : List PublicKey} : signers.Perm signers' →
      ReadAlike (g, .decided (some (.otherBlock round ledger signers block)))
        (g, .decided (some (.otherBlock round ledger signers' block)))
  | nothing (g : Gate) (round : Round) (ledger : Ledger)
      {signers signers' : List PublicKey} : signers.Perm signers' →
      ReadAlike (g, .decided (some (.nothing round ledger signers)))
        (g, .decided (some (.nothing round ledger signers')))
  | blockReject (g : Gate) (round : Round) (ledger : Ledger)
      {signers signers' : List PublicKey} : signers.Perm signers' →
      ReadAlike (g, .decided (some (.blockReject round ledger signers)))
        (g, .decided (some (.blockReject round ledger signers')))
  | proposalReject (g : Gate) (round : Round) (ledger : Ledger)
      {signers signers' : List PublicKey} : signers.Perm signers' →
      ReadAlike (g, .decided (some (.proposalReject round ledger signers)))
        (g, .decided (some (.proposalReject round ledger signers')))
  | future (g : Gate) (round : Round) (ledger : Ledger)
      {signers signers' : List PublicKey} : signers.Perm signers' →
      ReadAlike (g, .decided (some (.future round ledger signers)))
        (g, .decided (some (.future round ledger signers')))

variable {g : Gate} {ending : Ending} {b b' : Ballot} {votes votes' : List Vote} {row : Row}

/-! ## The table in two orders -/

/-- Whether all votes are for the proposal of one of them does not depend on which one. -/
theorem oneProposal_perm (hperm : votes.Perm votes') (hb' : ∃ v ∈ votes', v.ballot = b')
    (h : ∀ v ∈ votes, v.ballot.choice.proposal = b.choice.proposal) :
    ∀ v ∈ votes', v.ballot.choice.proposal = b'.choice.proposal := by
  obtain ⟨w, hw, rfl⟩ := hb'
  intro v hv
  rw [h v (hperm.mem_iff.mpr hv), h w (hperm.mem_iff.mpr hw)]

/-- The row that applies to votes applies to them in any order. -/
theorem Row.Applies.perm (hperm : votes.Perm votes') (hb : ∃ v ∈ votes, v.ballot = b)
    (hb' : ∃ v ∈ votes', v.ballot = b') (hround : b'.round = b.round)
    (hchoice : ending = .commit → b'.choice = b.choice) (h : row.Applies g ending b votes) :
    row.Applies g ending b' votes' := by
  have hbehind : g.IsBehind b' ↔ g.IsBehind b := by rw [IsBehind, IsBehind, hround]
  have hhere : g.IsHere b' ↔ g.IsHere b := by rw [IsHere, IsHere, hround]
  have hahead : g.IsAhead b' ↔ g.IsAhead b := by rw [IsAhead, IsAhead, hround]
  have hwon : ending = .commit → (g.HasWon b' ↔ g.HasWon b) := by
    intro hending
    rw [HasWon, HasWon, hround, hchoice hending]
  have hproposals := oneProposal_perm (b := b) hperm hb'
  have hproposals' := oneProposal_perm (b := b') hperm.symm hb
  cases row with
  | dropped => rwa [Applies, hbehind, hround]
  | heldBlock => exact ⟨h.1, (hwon h.1).mpr h.2⟩
  | otherBlock => rwa [Applies, hahead, hhere, hwon h.1, hchoice h.1]
  | nothing => rwa [Applies, hhere, hwon h.1, hchoice h.1]
  | blockReject => exact ⟨h.1, hhere.mpr h.2.1, hproposals h.2.2⟩
  | proposalReject => exact ⟨h.1, hhere.mpr h.2.1, fun hall => h.2.2 (hproposals' hall)⟩
  | future =>
      refine ⟨hahead.mpr h.1, fun hending => ?_⟩
      rw [hchoice hending]
      exact h.2 hending

/-- A row comes to the same in any order of the votes. -/
theorem Row.readAlike (hperm : votes.Perm votes') (hround : b'.round = b.round)
    {block block' : Hash} (hblock : row = otherBlock → block' = block)
    (h : row.Applies g ending b votes) :
    ReadAlike (row.after g votes, .decided (row.decision g b block votes))
      (row.after g votes', .decided (row.decision g b' block' votes')) := by
  have hsigners := hperm.map (·.sign.signer)
  cases row with
  | dropped => exact .dropped _
  | heldBlock =>
      obtain ⟨held, hheld⟩ := (hasWon_iff.mp h.2).2
      have hsealed := held.sameButSeals_withFresh (hperm.filterMap (·.ballot.blockSeal))
      simp only [decision, after, sealedBlock, hheld, Option.map_some, hround]
      exact .heldBlock g b.round g.ledger hsealed
  | otherBlock =>
      rw [decision, decision, hround, hblock rfl]
      exact .otherBlock _ b.round g.ledger block hsigners
  | nothing =>
      rw [decision, decision, hround]
      exact .nothing _ b.round g.ledger hsigners
  | blockReject =>
      rw [decision, decision, hround]
      exact .blockReject _ b.round g.ledger hsigners
  | proposalReject =>
      rw [decision, decision, hround]
      exact .proposalReject _ b.round g.ledger hsigners
  | future =>
      rw [decision, decision, hround]
      exact .future _ b.round g.ledger hsigners

/-- Votes that are refused in one order are refused in any other. -/
theorem exists_unreadable_perm (hperm : votes.Perm votes') (h : ∃ e, Unreadable votes e) :
    ∃ e, Unreadable votes' e := by
  refine exists_unreadable_iff.mpr ?_
  rcases exists_unreadable_iff.mp h with rfl | ⟨v, hv, w, hw, hne⟩
  · exact .inl (List.nil_perm.mp hperm)
  · exact .inr ⟨v, hperm.mem_iff.mp hv, w, hperm.mem_iff.mp hw, hne⟩

theorem readAlike_of_refused (hperm : votes.Perm votes') (h : ∃ e, Unreadable votes e) :
    ReadAlike (g.step (.read ⟨ending, votes⟩)) (g.step (.read ⟨ending, votes'⟩)) := by
  obtain ⟨e', he'⟩ := exists_unreadable_perm hperm h
  obtain ⟨e, he⟩ := h
  rw [step_read_of_error (commonBallot_of_unreadable he),
    step_read_of_error (commonBallot_of_unreadable he')]
  exact .refused g e e'

/-- **The order of the votes does not matter.** Take any gate whose rule finds
the same block for ballots that agree, and the votes of an outcome in two
orders; if the outcome is a commit, all votes are for one choice. Then what
the gate replies and what becomes of it are alike in both orders. -/
theorem order_of_votes_does_not_matter (g : Gate)
    (hrule : ∀ a b : Ballot, a.agrees b = true → g.rule.block a = g.rule.block b)
    (ending : Ending) {votes votes' : List Vote} (hperm : votes.Perm votes')
    (hcommit : ending = .commit →
      ∀ v ∈ votes, ∀ w ∈ votes, v.ballot.choice = w.ballot.choice) :
    ReadAlike (g.step (.read ⟨ending, votes⟩)) (g.step (.read ⟨ending, votes'⟩)) := by
  rcases oneRound_or_unreadable votes with ⟨first, rest, rfl, hsame⟩ | hrefused
  · cases votes' with
    | nil => cases hperm.eq_nil
    | cons first' rest' =>
        have hmem : first' ∈ first :: rest := hperm.mem_iff.mpr List.mem_cons_self
        have hrounds : ∀ v ∈ first :: rest, v.ballot.round = first.ballot.round :=
          List.forall_mem_cons.mpr ⟨rfl, hsame⟩
        have hsame' : ∀ v ∈ rest', v.ballot.round = first'.ballot.round := by
          intro v hv
          rw [hrounds first' hmem]
          exact hrounds v (hperm.mem_iff.mpr (List.mem_cons_of_mem first' hv))
        have hchoice : ending = .commit → first'.ballot.choice = first.ballot.choice :=
          fun h => hcommit h first' hmem first List.mem_cons_self
        obtain ⟨row, happlies⟩ := Row.exists_applies g ending first.ballot (first :: rest)
        have happlies' : row.Applies g ending first'.ballot (first' :: rest') :=
          happlies.perm hperm ⟨first, List.mem_cons_self, rfl⟩ ⟨first', List.mem_cons_self, rfl⟩
            (hrounds first' hmem) hchoice
        simp only [step, happlies.read_eq hsame, happlies'.read_eq hsame']
        refine Row.readAlike hperm (hrounds first' hmem) ?_ happlies
        -- Another block is decided for a commit only, and its votes are for one choice.
        rintro rfl
        exact hrule _ _ (Ballot.agrees_iff.mpr ⟨hrounds first' hmem, hchoice happlies.1⟩)
  · exact readAlike_of_refused hperm hrefused

/-- A key seals the held block in two ways, and the way that comes first stays. -/
theorem order_decides_which_seal_is_kept :
    let choice : Choice := ⟨⟨.replicate 32 9⟩, ⟨.replicate 32 7⟩⟩
    let block : Block := ⟨5, .zero, 0, [], choice.block, []⟩
    let g : Gate := { start ⟨[], ⟨4, .zero⟩⟩ none with
      ballot := ⟨⟨5, 1⟩, choice, none⟩, held := some block, cache := ⟨some block⟩ }
    let one : Seal := ⟨⟨.replicate 32 1⟩, ⟨.replicate 64 1⟩⟩
    let two : Seal := ⟨⟨.replicate 32 1⟩, ⟨.replicate 64 2⟩⟩
    let vote (s : Seal) : Vote := ⟨⟨⟨5, 1⟩, choice, some s⟩, s⟩
    let step (votes : List Vote) := g.step (.read ⟨.commit, votes⟩)
    ReadAlike (step [vote one, vote two]) (step [vote two, vote one])
      ∧ (step [vote one, vote two]).1.held = some { block with seals := [one] }
      ∧ (step [vote two, vote one]).1.held = some { block with seals := [two] } := by
  intro choice block g one two vote step
  have hrule : ∀ a b : Ballot, a.agrees b = true → g.rule.block a = g.rule.block b :=
    fun a b h => congrArg Choice.block (Ballot.agrees_iff.mp h).2
  have hone : ∀ v ∈ [vote one, vote two], v.ballot.choice = choice := by simp [vote]
  refine ⟨?_, rfl, rfl⟩
  exact order_of_votes_does_not_matter g hrule .commit (.swap (vote two) (vote one) [])
    fun _ v hv w hw => (hone v hv).trans (hone w hw).symm

end Gate

end LedgerCommit
