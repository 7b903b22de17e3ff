import LedgerCommit.Proofs.HeldBlock

/-!
# The result cache shows the held block

The block voted for is kept twice, by the gate and in the result cache that
others look at. Whatever replaces, seals or gives up the one does the same to
the other, so the two are the same block after every run, seals included.
There is a block exactly while the candidate of the latest proposal stands:
until a decision finds nothing or another block agreed.
-/

namespace LedgerCommit

/-- Keys that were all different stay so when seals are added. -/
theorem Block.nodup_signers_foldl_addSeal {b : Block} (seals : List Seal) (h : b.signers.Nodup) :
    (seals.foldl addSeal b).signers.Nodup := by
  induction seals generalizing b with
  | nil => exact h
  | cons s seals ih => exact ih (nodup_signers_addSeal s h)

namespace Gate

variable {g g' : Gate} {i : Input} {is before after : List Input} {reply : Reply}
  {p : Proposal} {c : Candidate} {b : Block}

/-! ## Two copies of one block -/

/-- The result cache shows the block that the gate holds, or that it holds none. -/
def Mirrored (g : Gate) : Prop := g.cache.block = g.held

theorem mirrored_start (ledger : Ledger) (alternative : Option ContactOrder) (rule : VotingRule) :
    (start ledger alternative rule).Mirrored := rfl

theorem mirrored_hold (g : Gate) (b : Block) : (g.hold b).Mirrored := rfl

theorem mirrored_letGo (g : Gate) : g.letGo.Mirrored := rfl

theorem mirrored_adopt (g : Gate) (p : Proposal) : (g.adopt p).Mirrored := by
  unfold adopt
  split
  · exact mirrored_letGo _
  · exact mirrored_hold _ _

/-- No input changes one copy alone. -/
theorem Step.mirrored (h : Step g i g' reply) (hg : g.Mirrored) : g'.Mirrored := by
  cases h with
  | passedOver _ => exact hg
  | overflow _ => exact hg
  | alone _ _ => exact mirrored_adopt g _
  | cast _ _ => exact mirrored_adopt g _
  | unreadable _ => exact hg
  | agreed _ _ _ _ => exact mirrored_hold g _
  | gaveUp _ => exact mirrored_letGo g
  | kept _ => exact hg

theorem mirrored_run (hg : g.Mirrored) (is : List Input) : (g.run is).Mirrored := by
  induction is generalizing g with
  | nil => exact hg
  | cons i is ih => exact ih ((step_cases g i).mirrored hg)

/-! ## The candidate that stands -/

/-- The run splits at the latest proposal, which has a candidate, and no
decision since then gave it up. -/
structure Standing (g : Gate) (is before : List Input) (p : Proposal) (c : Candidate)
    (after : List Input) : Prop where
  split : is = before ++ .propose p :: after
  latest : Latest g before p after
  candidate : p.candidate = some c
  kept : ∀ d ∈ (g.upTo before p).decisions after, ¬ d.GivesUp

theorem Standing.fits (h : Standing g is before p c after) (hfits : ∀ i ∈ is, i.Fits) :
    (Input.propose p).Fits := by
  refine hfits _ ?_
  simp [h.split]

/-- The candidate that stands is held, with the seals of the commits for it. -/
theorem Standing.held (h : Standing g is before p c after) (hfits : ∀ i ∈ is, i.Fits) :
    (g.run is).held
      = some (((g.upTo before p).agreedSeals after).foldl Block.addSeal c.block) := by
  obtain ⟨-, -, hcandidate⟩ := adopted_upTo (h.fits hfits) h.latest.accepted
  rw [h.split, run_upTo, h.latest.quiet.held h.kept, hcandidate, h.candidate]
  rfl

/-- The ballot is still the one for the candidate that stands. -/
theorem Standing.ballot (h : Standing g is before p c after) (hfits : ∀ i ∈ is, i.Fits) :
    (g.run is).ballot = g.rule.ballot p := by
  obtain ⟨hballot, -, -⟩ := adopted_upTo (h.fits hfits) h.latest.accepted
  rw [h.split, run_upTo, h.latest.quiet.ballot_ledger.1, hballot]

/-- What is held is a candidate that stands. -/
theorem exists_standing (hg : g.held = none) (hfits : ∀ i ∈ is, i.Fits)
    (hb : (g.run is).held = some b) : ∃ before p c after, Standing g is before p c after := by
  rcases quiet_or_latest g is with hquiet | ⟨before, p, after, rfl, hlatest⟩
  · -- nothing was ever taken up, so nothing is held
    rw [hquiet.held_of_none hg] at hb
    cases hb
  · obtain ⟨-, -, hcandidate⟩ := adopted_upTo (hfits _ (by simp)) hlatest.accepted
    rw [run_upTo] at hb
    obtain ⟨hkept, first, hfirst, -⟩ := hlatest.quiet.held_eq_some hb
    rw [hcandidate] at hfirst
    obtain ⟨c, hc, -⟩ := Option.map_eq_some_iff.mp hfirst
    exact ⟨before, p, c, after, rfl, hlatest, hc, hkept⟩

/-! ## What the cache shows -/

/-- **The result cache always shows the held block.** Take a gate with any
order of contact and any alternative order, any proposals and outcomes in any
order, each proposal on a ledger that a height follows. After all of them the
cache shows the block that the gate holds, with all its seals, or nothing if
the gate holds nothing. There is a block if and only if the latest proposal of
a round ahead has a candidate and no decision since has found nothing or
another block agreed. The hash of the block is the one that the ballot of the
gate is for, and its signers are all different if those of the candidate are. -/
theorem cache_shows_held_block (ledger : Ledger) (alternative : Option ContactOrder)
    (order : Ballot → List Peer → Option ContactOrder) (is : List Input)
    (hfits : ∀ i ∈ is, i.Fits) :
    let g := start ledger alternative { VotingRule.usual with order }
    (g.run is).cache.block = (g.run is).held
      ∧ ((g.run is).held ≠ none ↔ ∃ before p c after, Standing g is before p c after)
      ∧ ∀ b, (g.run is).held = some b → b.hash = (g.run is).ballot.blockHash
          ∧ ∀ before p c after, Standing g is before p c after →
              c.block.signers.Nodup → b.signers.Nodup := by
  intro g
  have hempty : g.held = none := rfl
  refine ⟨mirrored_run (mirrored_start _ _ _) is, ?_, ?_⟩
  · constructor
    · intro hheld
      obtain ⟨b, hb⟩ := Option.ne_none_iff_exists'.mp hheld
      exact exists_standing hempty hfits hb
    · rintro ⟨before, p, c, after, hstanding⟩ hnone
      rw [hstanding.held hfits] at hnone
      cases hnone
  · intro b hb
    refine ⟨?_, ?_⟩
    · obtain ⟨before, p, c, after, hstanding⟩ := exists_standing hempty hfits hb
      have hheld := hstanding.held hfits
      rw [hb, Block.foldl_addSeal] at hheld
      have husual : g.rule.ballot p = .ofProposal p := rfl
      rw [hstanding.ballot hfits, husual, Ballot.ofProposal, hstanding.candidate,
        Option.some.inj hheld]
      rfl
    · intro before p c after hstanding hdistinct
      have hheld := hstanding.held hfits
      rw [hb] at hheld
      rw [Option.some.inj hheld]
      exact Block.nodup_signers_foldl_addSeal _ hdistinct

/-- A commit brings one seal that is new and one that is not; a later one is
for another block. -/
theorem cache_after_commits :
    let mark (n : UInt8) : Seal := ⟨⟨.replicate 32 n⟩, ⟨.replicate 64 n⟩⟩
    let own : Choice := ⟨⟨.replicate 32 9⟩, ⟨.replicate 32 7⟩⟩
    let other : Choice := ⟨⟨.replicate 32 9⟩, ⟨.replicate 32 8⟩⟩
    let block : Block := ⟨5, .zero, 0, [], own.block, [mark 1]⟩
    let agreed : Block := { block with seals := [mark 1, mark 2] }
    let p : Proposal := ⟨⟨5, 0⟩, ⟨[], ⟨4, .zero⟩⟩, some ⟨own.proposal, block⟩⟩
    let commit (c : Choice) (n : UInt8) : Input :=
      .read ⟨.commit, [1, n].map fun n => ⟨⟨⟨5, 0⟩, c, some (mark n)⟩, mark n⟩⟩
    let g := start ⟨[], ⟨4, .zero⟩⟩ none
    (g.run [.propose p, commit own 2]).cache.block = some agreed ∧ agreed.signers.Nodup
      ∧ (g.run [.propose p, commit own 2, commit other 3]).cache.block = none := by
  intro mark own other block agreed p commit g
  have hp : (Input.propose p).Fits := by
    show (4 : UInt64).toNat < 2 ^ 64 - 1
    decide
  have hreads : ∀ c n, (commit c n).Fits := fun _ _ => trivial
  have hstart : start ⟨[], ⟨4, .zero⟩⟩ none { VotingRule.usual with
    order := VotingRule.usual.order } = g := rfl
  have hfirst := cache_shows_held_block ⟨[], ⟨4, .zero⟩⟩ none VotingRule.usual.order
    [.propose p, commit own 2] (by simpa [hreads] using hp)
  have hsecond := cache_shows_held_block ⟨[], ⟨4, .zero⟩⟩ none VotingRule.usual.order
    [.propose p, commit own 2, commit other 3] (by simpa [hreads] using hp)
  rw [hstart] at hfirst hsecond
  have hagreed : (g.run [.propose p, commit own 2]).held = some agreed := rfl
  have hgone : (g.run [.propose p, commit own 2, commit other 3]).held = none := rfl
  have hstanding : Standing g [.propose p, commit own 2] [] p ⟨own.proposal, block⟩
      [commit own 2] := by
    refine ⟨rfl, ⟨rfl, id, trivial⟩, rfl, ?_⟩
    intro d hd
    cases List.mem_singleton.mp hd
    exact id
  clear_value g
  refine ⟨hfirst.1.trans hagreed, ?_, hsecond.1.trans hgone⟩
  exact (hfirst.2.2 agreed hagreed).2 _ _ _ _ hstanding (by simp [block, Block.signers])

end Gate

end LedgerCommit
