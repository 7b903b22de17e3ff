import LedgerCommit.Proofs.HeldBlock
import Mathlib.Logic.ExistsUnique

/-!
# The decision table

What a finished round means for a node is a table. Its columns are how the
round ended, where the round of the votes stands against the one of the gate,
whether the first vote is for nothing, whether the node's own vote is agreed
and its block still held, and whether all votes are for one proposal. `Row`
names the rows of the table, `Row.Applies` says when a row applies, and
`Row.decision` and `Row.after` what is decided then and what becomes of the
gate. Exactly one row applies to votes of one round, and by that row the
outcome is read.

Votes of several rounds, and no votes at all, are in no row: `Unreadable` says
how they are refused.
-/

namespace LedgerCommit

/-! ## Votes of several rounds -/

/-- How votes are refused that have no common round. -/
inductive Unreadable : List Vote → OutcomeError → Prop where
  | noVotes : Unreadable [] .noVotes
  /-- The first round is named, and the first one that differs from it. -/
  | mixedRounds {first odd : Vote} {same rest : List Vote} :
      (∀ v ∈ same, v.ballot.round = first.ballot.round) →
      odd.ballot.round ≠ first.ballot.round →
      Unreadable (first :: (same ++ odd :: rest))
        (.mixedRounds first.ballot.round odd.ballot.round)

variable {votes : List Vote} {e : OutcomeError}

theorem commonBallot_of_unreadable (h : Unreadable votes e) : commonBallot votes = .error e := by
  cases h with
  | noVotes => rfl
  | @mixedRounds first odd same rest hsame hodd =>
      have hfind : (first :: (same ++ odd :: rest)).find? (·.ballot.round ≠ first.ballot.round)
          = some odd := by
        refine List.find?_eq_some_iff_append.mpr ⟨by simpa using hodd, first :: same, rest, rfl, ?_⟩
        simpa using hsame
      simp only [commonBallot, hfind]

/-- Votes are for one round, or they are refused. -/
theorem oneRound_or_unreadable (votes : List Vote) :
    (∃ first rest, votes = first :: rest ∧ ∀ v ∈ rest, v.ballot.round = first.ballot.round)
      ∨ ∃ e, Unreadable votes e := by
  cases votes with
  | nil => exact .inr ⟨_, .noVotes⟩
  | cons first rest =>
      cases hfind : rest.find? (·.ballot.round ≠ first.ballot.round) with
      | none => exact .inl ⟨first, rest, rfl, by simpa [List.find?_eq_none] using hfind⟩
      | some odd =>
          obtain ⟨hodd, same, more, rfl, hsame⟩ := List.find?_eq_some_iff_append.mp hfind
          exact .inr ⟨_, .mixedRounds (by simpa using hsame) (by simpa using hodd)⟩

theorem commonBallot_eq_error_iff : commonBallot votes = .error e ↔ Unreadable votes e := by
  refine ⟨fun h => ?_, commonBallot_of_unreadable⟩
  rcases oneRound_or_unreadable votes with ⟨first, rest, rfl, hsame⟩ | ⟨e', he'⟩
  · rw [commonBallot_eq_ok hsame] at h
    cases h
  · rw [commonBallot_of_unreadable he'] at h
    cases h
    exact he'

theorem exists_unreadable_iff :
    (∃ e, Unreadable votes e)
      ↔ votes = [] ∨ ∃ v ∈ votes, ∃ w ∈ votes, v.ballot.round ≠ w.ballot.round := by
  constructor
  · rintro ⟨e, he⟩
    cases he with
    | noVotes => exact .inl rfl
    | @mixedRounds first odd same rest _ hodd =>
        exact .inr ⟨odd, by simp, first, by simp, hodd⟩
  · intro h
    refine (oneRound_or_unreadable votes).resolve_left ?_
    rintro ⟨first, rest, rfl, hsame⟩
    have hfirst : ∀ v ∈ first :: rest, v.ballot.round = first.ballot.round :=
      List.forall_mem_cons.mpr ⟨rfl, hsame⟩
    rcases h with hnone | ⟨v, hv, w, hw, hne⟩
    · cases hnone
    · exact hne ((hfirst v hv).trans (hfirst w hw).symm)

namespace Gate

/-! ## The table -/

/-- The round of the ballot comes before the one of the gate. -/
def IsBehind (g : Gate) (b : Ballot) : Prop :=
  b.round.height < g.ballot.round.height
    ∨ b.round.height = g.ballot.round.height ∧ b.round.attempt < g.ballot.round.attempt

/-- The ballot is for the height of the gate, and for no earlier attempt. -/
def IsHere (g : Gate) (b : Ballot) : Prop :=
  b.round.height = g.ballot.round.height ∧ g.ballot.round.attempt ≤ b.round.attempt

/-- The ballot is for a later height than the gate's. -/
def IsAhead (g : Gate) (b : Ballot) : Prop := g.ballot.round.height < b.round.height

/-- What the node voted for is agreed, and it holds the block. -/
def HasWon (g : Gate) (b : Ballot) : Prop :=
  b.round = g.ballot.round ∧ b.choice = g.ballot.choice ∧ g.held ≠ none

/-- The held block with the seals of the votes, of each new key the first one. -/
def sealedBlock (g : Gate) (votes : List Vote) : Option Block :=
  g.held.map fun block => block.withFresh (votes.filterMap (·.ballot.blockSeal))

/-- The rows of the table. -/
inductive Row where
  | dropped
  | heldBlock
  | otherBlock
  | nothing
  | blockReject
  | proposalReject
  | future
  deriving DecidableEq

namespace Row

/-- When a row applies to an outcome with the votes, of which `b` is the first. -/
def Applies (g : Gate) (ending : Ending) (b : Ballot) (votes : List Vote) : Row → Prop
  | dropped => ending ≠ .future ∧ g.IsBehind b
      ∨ ending = .future ∧ b.round.height ≤ g.ballot.round.height
  | heldBlock => ending = .commit ∧ g.HasWon b
  | otherBlock =>
      ending = .commit ∧ b.choice.proposal ≠ .zero ∧ (g.IsAhead b ∨ g.IsHere b ∧ ¬ g.HasWon b)
  | nothing => ending = .commit ∧ b.choice.proposal = .zero ∧ g.IsHere b ∧ ¬ g.HasWon b
  | blockReject => ending = .reject ∧ g.IsHere b
      ∧ ∀ v ∈ votes, v.ballot.choice.proposal = b.choice.proposal
  | proposalReject => ending = .reject ∧ g.IsHere b
      ∧ ¬ ∀ v ∈ votes, v.ballot.choice.proposal = b.choice.proposal
  | future => g.IsAhead b ∧ (ending = .commit → b.choice.proposal = .zero)

/-- What is decided in a row; `block` is the hash of the block that `b` stands for. -/
def decision (g : Gate) (b : Ballot) (block : Hash) (votes : List Vote) : Row → Option Decision
  | dropped => none
  | heldBlock => (g.sealedBlock votes).map (.heldBlock b.round g.ledger ·)
  | otherBlock => some (.otherBlock b.round g.ledger (votes.map (·.sign.signer)) block)
  | nothing => some (.nothing b.round g.ledger (votes.map (·.sign.signer)))
  | blockReject => some (.blockReject b.round g.ledger (votes.map (·.sign.signer)))
  | proposalReject => some (.proposalReject b.round g.ledger (votes.map (·.sign.signer)))
  | future => some (.future b.round g.ledger (votes.map (·.sign.signer)))

/-- What becomes of the gate in a row: only the held block can change, and the
cache with it. -/
def after (g : Gate) (votes : List Vote) : Row → Gate
  | heldBlock => { g with held := g.sealedBlock votes, cache := ⟨g.sealedBlock votes⟩ }
  | otherBlock | nothing => { g with held := none, cache := ⟨none⟩ }
  | dropped | blockReject | proposalReject | future => g

/-- The row that a decision belongs to. -/
def ofDecision : Option Decision → Row
  | none => dropped
  | some (.heldBlock ..) => heldBlock
  | some (.otherBlock ..) => otherBlock
  | some (.nothing ..) => nothing
  | some (.blockReject ..) => blockReject
  | some (.proposalReject ..) => proposalReject
  | some (.future ..) => future

end Row

/-! ## Where a ballot stands -/

variable {g : Gate} {b : Ballot}

theorem before_eq_true_iff : b.round.before g.ballot.round = true ↔ g.IsBehind b :=
  Round.before_iff

theorem isHere_iff :
    g.IsHere b ↔ b.round.before g.ballot.round = false
      ∧ b.round.height = g.ballot.round.height := by
  rw [← Bool.not_eq_true, before_eq_true_iff, IsHere, IsBehind]
  simp only [UInt64.lt_iff_toNat_lt, UInt64.le_iff_toNat_le, ← UInt64.toNat_inj]
  omega

theorem isAhead_iff :
    g.IsAhead b ↔ b.round.before g.ballot.round = false
      ∧ b.round.height ≠ g.ballot.round.height := by
  rw [← Bool.not_eq_true, before_eq_true_iff, IsAhead, IsBehind]
  simp only [UInt64.lt_iff_toNat_lt, ne_eq, ← UInt64.toNat_inj]
  omega

theorem hasWon_iff : g.HasWon b ↔ b.agrees g.ballot = true ∧ ∃ block, g.held = some block := by
  rw [HasWon, Ballot.agrees_iff, Option.ne_none_iff_exists', and_assoc]

theorem not_hasWon_iff : ¬ g.HasWon b ↔ g.held = none ∨ b.agrees g.ballot = false := by
  rw [hasWon_iff, ← Option.ne_none_iff_exists', not_and_or, not_not, Bool.not_eq_true, or_comm]

theorem isNothing_iff : b.choice.isNothing = true ↔ b.choice.proposal = .zero := Hash.isZero_iff

theorem not_isNothing_iff : b.choice.isNothing = false ↔ b.choice.proposal ≠ .zero := by
  rw [← Bool.not_eq_true, isNothing_iff]

theorem oneProposal_iff {votes : List Vote} {proposal : Hash} :
    votes.all (·.ballot.choice.proposal = proposal) = true
      ↔ ∀ v ∈ votes, v.ballot.choice.proposal = proposal := by
  simp

theorem not_oneProposal_iff {votes : List Vote} {proposal : Hash} :
    votes.all (·.ballot.choice.proposal = proposal) = false
      ↔ ¬ ∀ v ∈ votes, v.ballot.choice.proposal = proposal := by
  rw [← Bool.not_eq_true, oneProposal_iff]

/-! ## Each reading is in a row -/

variable {ending : Ending} {votes : List Vote}

/-- However a ballot is read, the row of the decision applies. -/
theorem Reading.applies {g' : Gate} {d : Option Decision} (h : Reading g b votes ending d g') :
    (Row.ofDecision d).Applies g ending b votes := by
  cases h with
  | stale hending hstale => exact .inl ⟨hending, before_eq_true_iff.mp hstale⟩
  | notAhead hbehind => exact .inr ⟨rfl, hbehind⟩
  | held hagrees hheld => exact ⟨rfl, hasWon_iff.mpr ⟨hagrees, _, hheld⟩⟩
  | nothing hfresh hheight hother hnothing =>
      exact ⟨rfl, isNothing_iff.mp hnothing, isHere_iff.mpr ⟨hfresh, hheight⟩,
        not_hasWon_iff.mpr hother⟩
  | other hfresh hother hsome =>
      refine ⟨rfl, not_isNothing_iff.mp hsome, ?_⟩
      by_cases hheight : b.round.height = g.ballot.round.height
      · exact .inr ⟨isHere_iff.mpr ⟨hfresh, hheight⟩, not_hasWon_iff.mpr (hother hheight)⟩
      · exact .inl (isAhead_iff.mpr ⟨hfresh, hheight⟩)
  | nothingAhead hfresh hheight hnothing =>
      exact ⟨isAhead_iff.mpr ⟨hfresh, hheight⟩, fun _ => isNothing_iff.mp hnothing⟩
  | blockReject hfresh hheight hall =>
      exact ⟨rfl, isHere_iff.mpr ⟨hfresh, hheight⟩, oneProposal_iff.mp hall⟩
  | proposalReject hfresh hheight hall =>
      exact ⟨rfl, isHere_iff.mpr ⟨hfresh, hheight⟩, not_oneProposal_iff.mp hall⟩
  | rejectAhead hfresh hheight => exact ⟨isAhead_iff.mpr ⟨hfresh, hheight⟩, nofun⟩
  | ahead hahead => exact ⟨hahead, nofun⟩

/-- A row that applies is how the ballot is read. -/
theorem Row.Applies.reading {row : Row} (h : row.Applies g ending b votes) :
    Reading g b votes ending (row.decision g b (g.rule.block b) votes) (row.after g votes) := by
  cases row with
  | dropped =>
      rcases h with ⟨hending, hbehind⟩ | ⟨rfl, hheight⟩
      · exact .stale hending (before_eq_true_iff.mpr hbehind)
      · exact .notAhead hheight
  | heldBlock =>
      obtain ⟨rfl, hwon⟩ := h
      obtain ⟨hagrees, block, hheld⟩ := hasWon_iff.mp hwon
      have hsealed : g.sealedBlock votes = some (collectSeals block votes) := by
        rw [sealedBlock, hheld, collectSeals, Block.foldl_addSeal]
        rfl
      rw [decision, after, hsealed, hwon.1]
      exact .held hagrees hheld
  | otherBlock =>
      obtain ⟨rfl, hsome, hahead | ⟨hhere, hother⟩⟩ := h
      · obtain ⟨hfresh, hheight⟩ := isAhead_iff.mp hahead
        exact .other hfresh (fun h => absurd h hheight) (not_isNothing_iff.mpr hsome)
      · exact .other (isHere_iff.mp hhere).1 (fun _ => not_hasWon_iff.mp hother)
          (not_isNothing_iff.mpr hsome)
  | nothing =>
      obtain ⟨rfl, hnothing, hhere, hother⟩ := h
      obtain ⟨hfresh, hheight⟩ := isHere_iff.mp hhere
      exact .nothing hfresh hheight (not_hasWon_iff.mp hother) (isNothing_iff.mpr hnothing)
  | blockReject =>
      obtain ⟨rfl, hhere, hall⟩ := h
      obtain ⟨hfresh, hheight⟩ := isHere_iff.mp hhere
      exact .blockReject hfresh hheight (oneProposal_iff.mpr hall)
  | proposalReject =>
      obtain ⟨rfl, hhere, hall⟩ := h
      obtain ⟨hfresh, hheight⟩ := isHere_iff.mp hhere
      exact .proposalReject hfresh hheight (not_oneProposal_iff.mpr hall)
  | future =>
      obtain ⟨hahead, hnothing⟩ := h
      obtain ⟨hfresh, hheight⟩ := isAhead_iff.mp hahead
      cases ending with
      | commit => exact .nothingAhead hfresh hheight (isNothing_iff.mpr (hnothing rfl))
      | reject => exact .rejectAhead hfresh hheight
      | future => exact .ahead hahead

theorem Row.exists_applies (g : Gate) (ending : Ending) (b : Ballot) (votes : List Vote) :
    ∃ row : Row, row.Applies g ending b votes :=
  ⟨_, (reading_readBallot g ending b votes).applies⟩

theorem Row.Applies.ofDecision_eq {row : Row} (h : row.Applies g ending b votes) (block : Hash) :
    Row.ofDecision (row.decision g b block votes) = row := by
  cases row with
  | heldBlock =>
      obtain ⟨held, hheld⟩ := (hasWon_iff.mp h.2).2
      rw [decision, sealedBlock, hheld]
      rfl
  | dropped | otherBlock | nothing | blockReject | proposalReject | future => rfl

/-- No two rows apply, since they are read differently. -/
theorem Row.Applies.unique {row row' : Row} (h : row.Applies g ending b votes)
    (h' : row'.Applies g ending b votes) : row' = row := by
  have hread := h.reading.readBallot_eq.symm.trans h'.reading.readBallot_eq
  rw [← h.ofDecision_eq (g.rule.block b), ← h'.ofDecision_eq (g.rule.block b),
    (Prod.mk.inj hread).1]

/-! ## Reading by the table -/

theorem read_eq_error_iff {o : Outcome} {e : OutcomeError} :
    g.read o = .error e ↔ Unreadable o.votes e := by
  rw [← commonBallot_eq_error_iff, read]
  cases commonBallot o.votes <;> simp [Except.map]

theorem Row.Applies.read_eq {row : Row} {first : Vote} {rest : List Vote}
    (hsame : ∀ v ∈ rest, v.ballot.round = first.ballot.round)
    (h : row.Applies g ending first.ballot (first :: rest)) :
    g.read ⟨ending, first :: rest⟩
      = .ok (row.decision g first.ballot (g.rule.block first.ballot) (first :: rest),
          row.after g (first :: rest)) := by
  rw [read, commonBallot_eq_ok hsame, ← h.reading.readBallot_eq]
  rfl

/-- **Outcomes are read by the table.** Take any gate that takes the block hash
of a ballot from the ballot, and any outcome. It is refused exactly when it
has no votes or votes of two rounds, and then in the way of `Unreadable`. If
all votes are for the round of the first one, exactly one row of the table
applies, and the decision and the gate afterwards are those of the row. -/
theorem outcomes_are_read_by_table (g : Gate) (hblock : g.rule.block = Ballot.blockHash)
    (o : Outcome) :
    (∀ e, g.read o = .error e ↔ Unreadable o.votes e)
      ∧ ((∃ e, g.read o = .error e)
          ↔ o.votes = [] ∨ ∃ v ∈ o.votes, ∃ w ∈ o.votes, v.ballot.round ≠ w.ballot.round)
      ∧ ∀ first rest, o.votes = first :: rest →
          (∀ v ∈ rest, v.ballot.round = first.ballot.round) →
          (∃! row : Row, row.Applies g o.ending first.ballot o.votes)
            ∧ ∀ row : Row, row.Applies g o.ending first.ballot o.votes →
                g.read o = .ok (row.decision g first.ballot first.ballot.choice.block o.votes,
                  row.after g o.votes) := by
  refine ⟨fun _ => read_eq_error_iff, ?_, ?_⟩
  · simp only [read_eq_error_iff, exists_unreadable_iff]
  · obtain ⟨ending, votes⟩ := o
    rintro first rest ⟨rfl⟩ hsame
    obtain ⟨row, happlies⟩ := Row.exists_applies g ending first.ballot (first :: rest)
    refine ⟨⟨row, happlies, fun _ h => happlies.unique h⟩, ?_⟩
    intro row h
    rw [h.read_eq hsame, hblock]
    rfl

/-- The votes are for the held block, and in a later attempt than the gate's. -/
theorem block_of_later_attempt_is_given_up :
    let choice : Choice := ⟨⟨.replicate 32 9⟩, ⟨.replicate 32 7⟩⟩
    let block : Block := ⟨5, .zero, 0, [], choice.block, []⟩
    let g : Gate := { start ⟨[], ⟨4, .zero⟩⟩ none with
      ballot := ⟨⟨5, 1⟩, choice, none⟩, held := some block, cache := ⟨some block⟩ }
    let mark : Seal := ⟨⟨.replicate 32 1⟩, ⟨.replicate 64 1⟩⟩
    let vote : Vote := ⟨⟨⟨5, 2⟩, choice, some mark⟩, mark⟩
    g.rule.block = Ballot.blockHash
      ∧ g.read ⟨.commit, [vote, vote]⟩ = .ok
        (some (.otherBlock ⟨5, 2⟩ g.ledger [mark.signer, mark.signer] choice.block), g.letGo) := by
  intro choice block g mark vote
  have hother : ¬ g.HasWon vote.ballot := fun hwon => absurd hwon.1 (by decide)
  have happlies : Row.otherBlock.Applies g .commit vote.ballot [vote, vote] :=
    ⟨rfl, by decide, .inr ⟨⟨rfl, by decide⟩, hother⟩⟩
  refine ⟨rfl, ?_⟩
  exact ((outcomes_are_read_by_table g rfl ⟨.commit, [vote, vote]⟩).2.2 vote [vote] rfl
    (by simp)).2 _ happlies

end Gate

end LedgerCommit
