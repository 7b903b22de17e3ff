import LedgerCommit.Proofs.GateRun
import Mathlib.Data.List.Forall2
import Mathlib.Data.List.Induction

/-!
# One vote in a round

The round of a gate only moves forward, and each vote is for a round that was
ahead when it was cast. So no two votes are for one round, whatever outcomes
are read in between. A vote is due for each proposal of a round ahead on a
ledger with peers; the votes cast answer the votes due one by one.
-/

namespace LedgerCommit

/-- The round is one of the rounds, and none of them comes after it. -/
def Round.IsLargest (r : Round) (rs : List Round) : Prop :=
  r ∈ rs ∧ ∀ x ∈ rs, r.before x = false

theorem Round.IsLargest.concat_of_not_before {r x : Round} {rs : List Round}
    (h : r.IsLargest rs) (hx : r.before x = false) : r.IsLargest (rs ++ [x]) := by
  refine ⟨List.mem_append_left _ h.1, ?_⟩
  intro y hy
  rcases List.mem_append.mp hy with hy | hy
  · exact h.2 y hy
  · rwa [List.mem_singleton.mp hy]

theorem Round.IsLargest.concat_of_before {r x : Round} {rs : List Round}
    (h : r.IsLargest rs) (hx : r.before x = true) : x.IsLargest (rs ++ [x]) := by
  refine ⟨List.mem_append_right _ (List.mem_singleton_self x), ?_⟩
  intro y hy
  rcases List.mem_append.mp hy with hy | hy
  · rw [← Bool.not_eq_true]
    intro hxy
    have hry := Round.before_trans hx hxy
    rw [h.2 y hy] at hry
    cases hry
  · rw [List.mem_singleton.mp hy]
    exact Round.not_before_self x

namespace Gate

def Input.round? : Input → Option Round
  | propose p => some p.round
  | read _ => none

/-- The rounds of the proposals, whether or not they are voted on. -/
def rounds (is : List Input) : List Round := is.filterMap Input.round?

instance (g : Gate) (p : Proposal) : Decidable (g.Accepts p) :=
  inferInstanceAs (Decidable (_ = true))

/-- The proposal that an input asks a vote for. -/
def asks (g : Gate) : Input → Option Proposal
  | .propose p => if g.Accepts p ∧ p.ledger.peers ≠ [] then some p else none
  | .read _ => none

/-- The proposals of a run that a vote is due for: their rounds are ahead when
they come, and there are peers to vote to. -/
def due : Gate → List Input → List Proposal
  | _, [] => []
  | g, i :: is => (g.asks i).toList ++ due (g.step i).1 is

/-- What a vote for a proposal carries: round and hashes, zero ones for
nothing, and all the peers of the ledger in some order. -/
structure IsVoteFor (p : Proposal) (v : CastVote) : Prop where
  round : v.ballot.round = p.round
  proposal : v.ballot.choice.proposal = (p.candidate.map Candidate.proposal).getD .zero
  block : v.ballot.choice.block = (p.candidate.map fun c => c.block.hash).getD .zero
  order : v.order.peers.Perm p.ledger.peers
  position : v.order.position = 0

theorem isVoteFor_ofProposal {p : Proposal} {order : ContactOrder}
    (alternative : Option ContactOrder)
    (h : VotingRule.usual.order (.ofProposal p) p.ledger.peers = some order) :
    IsVoteFor p ⟨.ofProposal p, order, alternative⟩ := by
  obtain ⟨hpeers, hposition⟩ := ContactOrder.perm_of_seeded h
  refine ⟨round_ofProposal p, ?_, ?_, hpeers, hposition⟩
  · cases hc : p.candidate <;> simp [Ballot.ofProposal, hc, Choice.nothing]
  · cases hc : p.candidate <;> simp [Ballot.ofProposal, hc, Choice.nothing]

/-! ## The current round -/

variable {g g' : Gate} {i : Input} {is : List Input} {reply : Reply}

/-- The current round stays, or moves on to the one of the proposal. -/
theorem Step.largest {rs : List Round} (h : Step g i g' reply) (hrule : g.rule = .usual)
    (hfits : i.Fits) (hlargest : g.ballot.round.IsLargest rs) :
    g'.ballot.round.IsLargest (rs ++ i.round?.toList) := by
  have hread : g.ballot.round.IsLargest (rs ++ []) := by rwa [List.append_nil]
  cases h with
  | passedOver hstale => exact hlargest.concat_of_not_before (Bool.not_eq_true _ ▸ hstale)
  | overflow hlast => exact absurd hfits (Nat.not_lt.mpr hlast)
  | alone haccepts _ =>
      rw [ballot_adopt, hrule, ballot_usual, round_ofProposal]
      exact hlargest.concat_of_before haccepts
  | cast haccepts _ =>
      show (Gate.adopt _ _).ballot.round.IsLargest _
      rw [ballot_adopt, hrule, ballot_usual, round_ofProposal]
      exact hlargest.concat_of_before haccepts
  | unreadable _ => exact hread
  | agreed _ _ _ _ => exact hread
  | gaveUp _ => exact hread
  | kept _ => exact hread

/-- A vote is for a round ahead, which becomes the current one. -/
theorem Step.round_of_vote {v : CastVote} (h : Step g i g' (.voted (some v)))
    (hrule : g.rule = .usual) :
    g.ballot.round.before v.ballot.round = true ∧ g'.ballot.round = v.ballot.round := by
  cases h with
  | cast haccepts _ =>
      refine ⟨?_, ?_⟩
      · rw [hrule, ballot_usual, round_ofProposal]
        exact haccepts
      · show (Gate.adopt _ _).ballot.round = _
        rw [ballot_adopt]

/-- **The current round is the largest one so far**, whatever outcomes were read. -/
theorem largest_run (hrule : g.rule = .usual) (hfits : ∀ i ∈ is, i.Fits) :
    (g.run is).ballot.round.IsLargest (g.ballot.round :: rounds is) := by
  induction is using List.reverseRecOn with
  | nil =>
      refine ⟨List.mem_singleton_self _, ?_⟩
      intro x hx
      rw [List.mem_singleton.mp hx]
      exact Round.not_before_self _
  | append_singleton is i ih =>
      have hlargest := ih fun j hj => hfits j (List.mem_append_left [i] hj)
      have hrounds : rounds (is ++ [i]) = rounds is ++ i.round?.toList := filterMap_concat ..
      rw [run_concat, hrounds, ← List.cons_append]
      exact (step_cases _ i).largest ((rule_run g is).trans hrule) (hfits i (by simp)) hlargest

/-! ## The votes cast -/

/-- Votes for rounds that rise, all of them after `first` and up to `current`. -/
structure Rising (first current : Round) (votes : List CastVote) : Prop where
  pairwise : votes.Pairwise fun v w => v.ballot.round.before w.ballot.round = true
  after : ∀ v ∈ votes, first.before v.ballot.round = true
  upTo : ∀ v ∈ votes, current.before v.ballot.round = false

/-- One more vote for a round ahead. -/
theorem Rising.concat {first current : Round} {votes : List CastVote} {v : CastVote}
    (h : Rising first current votes) (hfirst : current.before first = false)
    (hv : current.before v.ballot.round = true) : Rising first v.ballot.round (votes ++ [v]) := by
  have hlater : ∀ w ∈ votes, w.ballot.round.before v.ballot.round = true :=
    fun w hw => Round.before_of_not_before (h.upTo w hw) hv
  refine ⟨?_, ?_, ?_⟩
  · rw [List.pairwise_append]
    refine ⟨h.pairwise, List.pairwise_singleton _ _, ?_⟩
    intro w hw x hx
    rw [List.mem_singleton.mp hx]
    exact hlater w hw
  · intro w hw
    rcases List.mem_append.mp hw with hw | hw
    · exact h.after w hw
    · rw [List.mem_singleton.mp hw]
      exact Round.before_of_not_before hfirst hv
  · intro w hw
    rcases List.mem_append.mp hw with hw | hw
    · rw [← Bool.not_eq_true]
      intro hback
      have := Round.before_trans (hlater w hw) hback
      rw [Round.not_before_self] at this
      cases this
    · rw [List.mem_singleton.mp hw]
      exact Round.not_before_self _

/-- A current round that moves on leaves the votes before it. -/
theorem Rising.upTo_largest {first current : Round} {votes : List CastVote} {rs : List Round}
    (h : Rising first current votes) (hcurrent : current ∈ rs) {r : Round} (hr : r.IsLargest rs) :
    Rising first r votes := by
  refine ⟨h.pairwise, h.after, ?_⟩
  intro v hv
  rw [← Bool.not_eq_true]
  intro hback
  have hle := hr.2 current hcurrent
  have := Round.before_of_not_before hle hback
  rw [h.upTo v hv] at this
  cases this

theorem rising_run (hrule : g.rule = .usual) (hfits : ∀ i ∈ is, i.Fits) :
    Rising g.ballot.round (g.run is).ballot.round (g.casts is) := by
  induction is using List.reverseRecOn with
  | nil => exact ⟨List.Pairwise.nil, nofun, nofun⟩
  | append_singleton is i ih =>
      have hfits' : ∀ j ∈ is, j.Fits := fun j hj => hfits j (List.mem_append_left [i] hj)
      have hlargest := largest_run hrule hfits'
      rw [casts_concat]
      cases hvote : ((g.run is).step i).2.vote? with
      | none =>
          rw [Option.toList_none, List.append_nil]
          refine (ih hfits').upTo_largest ?_ (largest_run hrule hfits)
          rw [rounds, List.filterMap_append, ← List.cons_append]
          exact List.mem_append_left _ hlargest.1
      | some v =>
          obtain ⟨hahead, hround⟩ :=
            (step_of_vote hvote).round_of_vote ((rule_run g is).trans hrule)
          rw [run_concat, hround]
          exact (ih hfits').concat (hlargest.2 _ List.mem_cons_self) hahead

/-! ## The votes due -/

/-- The vote that is due is cast, and no other. -/
theorem Step.asked (h : Step g i g' reply) (hrule : g.rule = .usual) (hfits : i.Fits) :
    List.Forall₂ IsVoteFor (g.asks i).toList reply.vote?.toList := by
  cases h with
  | passedOver hstale =>
      rw [asks, if_neg fun hasks => hstale hasks.1]
      exact .nil
  | overflow hlast => exact absurd hfits (Nat.not_lt.mpr hlast)
  | alone haccepts hnone =>
      rw [hrule] at hnone
      rw [asks, if_neg fun hasks => hasks.2 (ContactOrder.seeded_eq_none_iff.mp hnone)]
      exact .nil
  | @cast p order haccepts hsome =>
      rw [hrule, ballot_usual] at hsome
      have hpeers : p.ledger.peers ≠ [] := by
        intro hnil
        have hnone : VotingRule.usual.order (.ofProposal p) p.ledger.peers = none :=
          ContactOrder.seeded_eq_none_iff.mpr hnil
        rw [hnone] at hsome
        cases hsome
      rw [asks, if_pos ⟨haccepts, hpeers⟩, hrule]
      exact .cons (isVoteFor_ofProposal _ hsome) .nil
  | unreadable _ => exact .nil
  | agreed _ _ _ _ => exact .nil
  | gaveUp _ => exact .nil
  | kept _ => exact .nil

/-- The votes cast answer the votes due, one by one and in order. -/
theorem casts_of_due (hrule : g.rule = .usual) (hfits : ∀ i ∈ is, i.Fits) :
    List.Forall₂ IsVoteFor (g.due is) (g.casts is) := by
  induction is generalizing g with
  | nil => exact .nil
  | cons i is ih =>
      have hstep := step_cases g i
      rw [due, casts_cons]
      refine List.rel_append (hstep.asked hrule (hfits i List.mem_cons_self)) (ih ?_ ?_)
      · rw [hstep.rule, hrule]
      · exact fun j hj => hfits j (List.mem_cons_of_mem i hj)

/-! ## The alternative order -/

/-- The alternative order goes with a vote and is used up by it. -/
theorem Step.alternative_of_vote {v : CastVote} (h : Step g i g' (.voted (some v))) :
    v.alternative = g.alternative.value ∧ g'.alternative.value = none := by
  cases h with
  | cast _ _ => exact ⟨rfl, rfl⟩

theorem Step.alternative_of_none (h : Step g i g' reply) (hv : reply.vote? = none) :
    g'.alternative = g.alternative := by
  cases h with
  | cast _ _ => cases hv
  | passedOver _ => rfl
  | overflow _ => rfl
  | alone _ _ => exact alternative_adopt g _
  | unreadable _ => rfl
  | agreed _ _ _ _ => rfl
  | gaveUp _ => rfl
  | kept _ => rfl

/-- Until a vote is cast the alternative order is kept, and then it is gone. -/
theorem alternative_run (g : Gate) (is : List Input) :
    (g.run is).alternative.value
      = if g.casts is = [] then g.alternative.value else none := by
  induction is using List.reverseRecOn with
  | nil => rfl
  | append_singleton is i ih =>
      rw [run_concat, casts_concat]
      cases hvote : ((g.run is).step i).2.vote? with
      | none =>
          rw [(step_cases (g.run is) i).alternative_of_none hvote, ih]
          simp
      | some v =>
          rw [(step_of_vote hvote).alternative_of_vote.2]
          simp

/-- The alternative order goes with the first vote and with no later one. -/
theorem alternative_of_cast (g : Gate) {n : Nat} {v : CastVote}
    (h : (g.casts is)[n]? = some v) :
    v.alternative = if n = 0 then g.alternative.value else none := by
  induction is using List.reverseRecOn with
  | nil => cases h
  | append_singleton is i ih =>
      rw [casts_concat, List.getElem?_append] at h
      split at h
      · exact ih h
      · -- the last vote: it is the first one if there was none before
        rename_i hlength
        cases hvote : ((g.run is).step i).2.vote? with
        | none => rw [hvote] at h; cases h
        | some w =>
            rw [hvote, Option.toList_some, List.getElem?_singleton] at h
            split at h
            · rename_i hn
              cases h
              have hn' : n = (g.casts is).length := by omega
              rw [(step_of_vote hvote).alternative_of_vote.1, alternative_run]
              simp only [hn', List.length_eq_zero_iff]
            · cases h

/-- **A node votes once in a round.** Take a gate with any alternative order,
and any proposals and outcomes in any order, each proposal on a ledger that a
height follows. The rounds of the votes cast rise, and all come after the
round that the gate begins with. The votes answer one by one the proposals
they are due for. The alternative order goes with the first vote and with no
later one. A proposal whose round is not ahead changes nothing. The current
round is the largest of the first one and those of all proposals. -/
theorem votes_once_in_a_round (ledger : Ledger) (alternative : Option ContactOrder)
    (is : List Input) (hfits : ∀ i ∈ is, i.Fits) :
    let g := start ledger alternative
    (g.casts is).Pairwise (fun v w => v.ballot.round.before w.ballot.round = true)
      ∧ (∀ v ∈ g.casts is, Round.before ⟨ledger.height, 0⟩ v.ballot.round = true)
      ∧ List.Forall₂ IsVoteFor (g.due is) (g.casts is)
      ∧ (∀ n v, (g.casts is)[n]? = some v → v.alternative = if n = 0 then alternative else none)
      ∧ (∀ p, ¬ (g.run is).Accepts p → (g.run is).step (.propose p) = (g.run is, .voted none))
      ∧ (g.run is).ballot.round.IsLargest (⟨ledger.height, 0⟩ :: rounds is) := by
  intro g
  have hrising := rising_run (g := g) rfl hfits
  refine ⟨hrising.pairwise, hrising.after, casts_of_due rfl hfits, ?_, ?_, largest_run rfl hfits⟩
  · intro n v hv
    exact alternative_of_cast g hv
  · intro p hstale
    have hround : ¬ (g.run is).ballot.round.before p.round = true := hstale
    rw [step, propose, if_neg hround]

theorem two_votes_for_three_proposals :
    let ledger : Ledger := ⟨[⟨"127.0.0.1:10001", ⟨Vector.replicate 32 1⟩⟩], ⟨4, .zero⟩⟩
    let p : Proposal := ⟨⟨5, 0⟩, ledger, none⟩
    let q : Proposal := ⟨⟨5, 1⟩, ledger, none⟩
    let is : List Input := [.propose p, .propose p, .read ⟨.reject, []⟩, .propose q]
    let g := start ledger none
    List.Forall₂ IsVoteFor [p, q] (g.casts is)
      ∧ (g.casts is).Pairwise (fun v w => v.ballot.round.before w.ballot.round = true) := by
  intro ledger p q is g
  have hheight : ledger.height.toNat < 2 ^ 64 - 1 := by decide
  have hfits : ∀ i ∈ is, i.Fits := by
    intro i hi
    simp only [is, List.mem_cons, List.not_mem_nil, or_false] at hi
    rcases hi with rfl | rfl | rfl | rfl
    · exact hheight
    · exact hheight
    · trivial
    · exact hheight
  obtain ⟨hrising, -, hdue, -⟩ := votes_once_in_a_round ledger none is hfits
  have hasked : g.due is = [p, q] := by decide
  rw [hasked] at hdue
  exact ⟨hdue, hrising⟩

end Gate

end LedgerCommit
