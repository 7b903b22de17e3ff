import LedgerCommit.Proofs.GateRun

/-!
# Where the held block comes from

The block that a gate holds is the candidate of the latest proposal it took
up, with the seals of every commit for it since then; of each key the first
seal counts. A run splits at that proposal: after it the gate takes up none,
so ballot and ledger stay, and the held block is only sealed or given up.
-/

namespace LedgerCommit

/-! ## Sealing a block -/

namespace Block

/-- The seals of keys that have not sealed the block, of each key the first. -/
def fresh (b : Block) (seals : List Seal) : List Seal :=
  (seals.filter fun s => s.signer ∉ b.signers).eraseDupsBy fun s t => s.signer == t.signer

theorem fresh_cons_of_mem {b : Block} {s : Seal} (h : s.signer ∈ b.signers) (seals : List Seal) :
    b.fresh (s :: seals) = b.fresh seals := by
  rw [fresh, List.filter_cons_of_neg (by simpa using h)]
  rfl

theorem fresh_cons_of_notMem {b : Block} {s : Seal} (h : s.signer ∉ b.signers)
    (seals : List Seal) :
    b.fresh (s :: seals) = s :: { b with seals := b.seals ++ [s] }.fresh seals := by
  have hsigners : { b with seals := b.seals ++ [s] }.signers = b.signers ++ [s.signer] :=
    List.map_append
  rw [fresh, List.filter_cons_of_pos (by simpa using h), List.eraseDupsBy_cons, fresh, hsigners,
    List.filter_filter]
  congr 3
  funext t
  by_cases hs : t.signer = s.signer <;> simp [hs]

/-- The block with the fresh ones of some seals appended; all else is as it was. -/
def withFresh (b : Block) (seals : List Seal) : Block :=
  { b with seals := b.seals ++ b.fresh seals }

/-- Adding seals one by one appends the fresh ones. -/
theorem foldl_addSeal (b : Block) (seals : List Seal) :
    seals.foldl addSeal b = b.withFresh seals := by
  induction seals generalizing b with
  | nil => simp [withFresh, fresh]
  | cons s seals ih =>
      rw [List.foldl_cons, ih]
      by_cases hs : s.signer ∈ b.signers
      · rw [addSeal, if_pos (sealedBy_iff.mpr hs), withFresh, withFresh, fresh_cons_of_mem hs]
      · rw [addSeal, if_neg (mt sealedBy_iff.mp hs), withFresh, withFresh,
          fresh_cons_of_notMem hs]
        simp

/-- Who has sealed a block afterwards: who had, and the new signers. -/
theorem mem_signers_foldl_addSeal {b : Block} {seals : List Seal} {k : PublicKey} :
    k ∈ (seals.foldl addSeal b).signers ↔ k ∈ b.signers ∨ k ∈ seals.map Seal.signer := by
  induction seals generalizing b with
  | nil => simp
  | cons s seals ih =>
      have hfirst : k ∈ (b.addSeal s).signers ↔ k ∈ b.signers ∨ k = s.signer := by
        rw [signers_addSeal]
        split
        · rename_i hs
          exact ⟨.inl, fun hk => hk.elim id fun heq => heq ▸ hs⟩
        · rw [List.mem_append, List.mem_singleton]
      rw [List.foldl_cons, ih, hfirst, List.map_cons, List.mem_cons, or_assoc]

/-- No seal comes from elsewhere. -/
theorem mem_seals_foldl_addSeal {b : Block} {seals : List Seal} {s : Seal}
    (h : s ∈ (seals.foldl addSeal b).seals) : s ∈ b.seals ++ seals := by
  induction seals generalizing b with
  | nil => rwa [List.append_nil]
  | cons t seals ih =>
      rcases List.mem_append.mp (ih h) with hs | hs
      · rw [addSeal] at hs
        split at hs
        · exact List.mem_append_left _ hs
        · rcases List.mem_append.mp hs with hs | hs
          · exact List.mem_append_left _ hs
          · rw [List.mem_singleton.mp hs]
            exact List.mem_append_right _ List.mem_cons_self
      · exact List.mem_append_right _ (List.mem_cons_of_mem t hs)

/-- Seals of keys that have all sealed the block add nothing. -/
theorem foldl_addSeal_of_signers {b : Block} {seals : List Seal}
    (h : ∀ s ∈ seals, s.signer ∈ b.signers) : seals.foldl addSeal b = b := by
  induction seals with
  | nil => rfl
  | cons s seals ih =>
      rw [List.foldl_cons, addSeal, if_pos (sealedBy_iff.mpr (h s List.mem_cons_self))]
      exact ih fun t ht => h t (List.mem_cons_of_mem s ht)

/-- Adding the same seals once more adds nothing. -/
theorem foldl_addSeal_twice (b : Block) (seals : List Seal) :
    seals.foldl addSeal (seals.foldl addSeal b) = seals.foldl addSeal b := by
  refine foldl_addSeal_of_signers ?_
  intro s hs
  exact mem_signers_foldl_addSeal.mpr (.inr (List.mem_map_of_mem hs))

end Block

/-- The ballot that stands for some votes is the one of the first vote. -/
theorem exists_first_of_commonBallot {votes : List Vote} {b : Ballot}
    (h : commonBallot votes = .ok b) : ∃ first rest, votes = first :: rest ∧ first.ballot = b := by
  cases votes with
  | nil => cases h
  | cons first rest =>
      refine ⟨first, rest, rfl, ?_⟩
      unfold commonBallot at h
      dsimp only at h
      split at h
      · cases h
      · exact Except.ok.inj h

namespace Gate

/-! ## The latest proposal -/

/-- Whether the input is a proposal of a round ahead. -/
def TakesUp (g : Gate) : Input → Prop
  | .propose p => g.Accepts p
  | .read _ => False

/-- None of the inputs is taken up as a proposal of a round ahead. -/
def Quiet : Gate → List Input → Prop
  | _, [] => True
  | g, i :: is => ¬ g.TakesUp i ∧ Quiet (g.step i).1 is

/-- The gate after some inputs and then a proposal. -/
def upTo (g : Gate) (before : List Input) (p : Proposal) : Gate := g.run (before ++ [.propose p])

/-- The proposal between two parts of a run is the last one of a round ahead. -/
structure Latest (g : Gate) (before : List Input) (p : Proposal) (after : List Input) : Prop where
  accepted : (g.run before).Accepts p
  quiet : Quiet (g.upTo before p) after

theorem run_upTo (g : Gate) (before : List Input) (p : Proposal) (after : List Input) :
    g.run (before ++ .propose p :: after) = (g.upTo before p).run after := by
  rw [upTo, ← run_append, List.append_assoc]
  rfl

theorem quiet_or_latest (g : Gate) (is : List Input) :
    Quiet g is
      ∨ ∃ before p after, is = before ++ .propose p :: after ∧ Latest g before p after := by
  induction is generalizing g with
  | nil => exact .inl trivial
  | cons i is ih =>
      rcases ih (g.step i).1 with hquiet | ⟨before, p, after, rfl, hlatest⟩
      · by_cases htakes : g.TakesUp i
        · -- taken up itself, and nothing after it
          cases i with
          | propose p => exact .inr ⟨[], p, is, rfl, htakes, hquiet⟩
          | read o => exact htakes.elim
        · exact .inl ⟨htakes, hquiet⟩
      · exact .inr ⟨i :: before, p, after, rfl, hlatest.accepted, hlatest.quiet⟩

/-! ## One input -/

/-- The seals that an input adds to the held block: those of the votes, if the
outcome is a commit of it. -/
def Input.seals : Input → Reply → List Seal
  | .read o, .decided (some (.heldBlock ..)) => o.votes.filterMap (·.ballot.blockSeal)
  | _, _ => []

variable {g g' : Gate} {i : Input} {is : List Input} {reply : Reply}

/-- A decision for the held block is a commit whose first vote is for it. -/
theorem Step.agreed_of_heldBlock {round : Round} {ledger : Ledger} {block : Block}
    (h : Step g i g' (.decided (some (.heldBlock round ledger block)))) :
    ∃ o held first rest, i = .read o ∧ g.held = some held
      ∧ round = g.ballot.round ∧ ledger = g.ledger ∧ block = collectSeals held o.votes
      ∧ o.ending = .commit ∧ o.votes = first :: rest
      ∧ first.ballot.round = g.ballot.round ∧ first.ballot.choice = g.ballot.choice := by
  cases h with
  | @agreed o b held hending hcommon hagrees hheld =>
      obtain ⟨first, rest, hvotes, rfl⟩ := exists_first_of_commonBallot hcommon
      obtain ⟨hround, hchoice⟩ := Ballot.agrees_iff.mp hagrees
      exact ⟨o, held, first, rest, rfl, hheld, rfl, rfl, rfl, hending, hvotes, hround, hchoice⟩
  | gaveUp hgives => exact hgives.elim
  | kept hkept => exact absurd trivial (hkept _ rfl).2

/-- A proposal of a round ahead replaces ballot, ledger and held block. -/
theorem Step.adopted {p : Proposal} (h : Step g (.propose p) g' reply) (haccepts : g.Accepts p)
    (hfits : (Input.propose p).Fits) :
    g'.ballot = g.rule.ballot p ∧ g'.ledger = p.ledger
      ∧ g'.held = p.candidate.map Candidate.block := by
  cases h with
  | passedOver hstale => exact absurd haccepts hstale
  | overflow hlast => exact absurd hfits (Nat.not_lt.mpr hlast)
  | alone _ _ => exact ⟨ballot_adopt g p, ledger_adopt g p, held_adopt g p⟩
  | cast _ _ => exact ⟨ballot_adopt g p, ledger_adopt g p, held_adopt g p⟩

/-- Any other input leaves ballot and ledger. -/
theorem Step.ballot_ledger (h : Step g i g' reply) (hquiet : ¬ g.TakesUp i) :
    g'.ballot = g.ballot ∧ g'.ledger = g.ledger := by
  cases h with
  | passedOver _ => exact ⟨rfl, rfl⟩
  | overflow _ => exact ⟨rfl, rfl⟩
  | alone haccepts _ => exact absurd haccepts hquiet
  | cast haccepts _ => exact absurd haccepts hquiet
  | unreadable _ => exact ⟨rfl, rfl⟩
  | agreed _ _ _ _ => exact ⟨rfl, rfl⟩
  | gaveUp _ => exact ⟨rfl, rfl⟩
  | kept _ => exact ⟨rfl, rfl⟩

theorem Step.held_of_givesUp {d : Decision} (h : Step g i g' (.decided (some d)))
    (hgives : d.GivesUp) : g'.held = none := by
  cases h with
  | gaveUp _ => rfl
  | agreed _ _ _ _ => exact hgives.elim
  | kept hkept => exact absurd hgives (hkept d rfl).1

/-- Unless it is given up or replaced, the held block takes the seals. -/
theorem Step.held_of_not_givesUp (h : Step g i g' reply) (hquiet : ¬ g.TakesUp i)
    (hd : ∀ d ∈ reply.decision?, ¬ d.GivesUp) :
    g'.held = g.held.map fun b => (i.seals reply).foldl Block.addSeal b := by
  have hsame : g.held = g.held.map fun b => ([] : List Seal).foldl Block.addSeal b := by simp
  cases h with
  | passedOver _ => exact hsame
  | overflow _ => exact hsame
  | alone haccepts _ => exact absurd haccepts hquiet
  | cast haccepts _ => exact absurd haccepts hquiet
  | unreadable _ => exact hsame
  | agreed _ _ _ hheld =>
      rw [hheld]
      rfl
  | gaveUp hgives => exact absurd hgives (hd _ rfl)
  | @kept o d hkept =>
      have hnone : (Input.read o).seals (.decided d) = [] := by
        cases d with
        | none => rfl
        | some d =>
            cases d with
            | heldBlock _ _ _ => exact absurd trivial (hkept _ rfl).2
            | _ => rfl
      rw [hnone]
      exact hsame

/-! ## A run without a proposal of a round ahead -/

/-- The seals that commits add to the held block in a run, in order. -/
def agreedSeals : Gate → List Input → List Seal
  | _, [] => []
  | g, i :: is => i.seals (g.step i).2 ++ agreedSeals (g.step i).1 is

theorem agreedSeals_append (g : Gate) (xs ys : List Input) :
    g.agreedSeals (xs ++ ys) = g.agreedSeals xs ++ (g.run xs).agreedSeals ys := by
  induction xs generalizing g with
  | nil => rfl
  | cons i xs ih =>
      rw [List.cons_append, agreedSeals, agreedSeals, ih, List.append_assoc]
      rfl

theorem Quiet.ballot_ledger (h : Quiet g is) :
    (g.run is).ballot = g.ballot ∧ (g.run is).ledger = g.ledger := by
  induction is generalizing g with
  | nil => exact ⟨rfl, rfl⟩
  | cons i is ih =>
      obtain ⟨hballot, hledger⟩ := ih h.2
      obtain ⟨hballot', hledger'⟩ := (step_cases g i).ballot_ledger h.1
      exact ⟨hballot.trans hballot', hledger.trans hledger'⟩

/-- The held block takes all the seals, as long as no decision gives it up. -/
theorem Quiet.held (h : Quiet g is) (hd : ∀ d ∈ g.decisions is, ¬ d.GivesUp) :
    (g.run is).held = g.held.map fun b => (g.agreedSeals is).foldl Block.addSeal b := by
  induction is generalizing g with
  | nil => simp [run, agreedSeals]
  | cons i is ih =>
      rw [decisions_cons] at hd
      have hfirst := (step_cases g i).held_of_not_givesUp h.1 fun d hd' =>
        hd d (List.mem_append_left _ (Option.mem_toList.mpr hd'))
      have hrest := ih h.2 fun d hd' => hd d (List.mem_append_right _ hd')
      rw [run, List.foldl_cons, ← run, hrest, hfirst, Option.map_map, agreedSeals]
      congr 1
      funext b
      rw [Function.comp_apply, List.foldl_append]

theorem Quiet.held_of_none (h : Quiet g is) (hnone : g.held = none) : (g.run is).held = none := by
  induction is generalizing g with
  | nil => exact hnone
  | cons i is ih =>
      refine ih h.2 ?_
      by_cases hgives : ∃ d ∈ (g.step i).2.decision?, d.GivesUp
      · obtain ⟨d, hd, hgives⟩ := hgives
        exact (step_of_decision hd).held_of_givesUp hgives
      · rw [(step_cases g i).held_of_not_givesUp h.1 fun d hd hg => hgives ⟨d, hd, hg⟩, hnone]
        rfl

/-- Once given up, the held block does not come back. -/
theorem Quiet.held_of_givesUp (h : Quiet g is) {d : Decision} (hd : d ∈ g.decisions is)
    (hgives : d.GivesUp) : (g.run is).held = none := by
  induction is generalizing g with
  | nil => cases hd
  | cons i is ih =>
      rw [decisions_cons] at hd
      rcases List.mem_append.mp hd with hd | hd
      · refine h.2.held_of_none ?_
        exact (step_of_decision (Option.mem_toList.mp hd)).held_of_givesUp hgives
      · exact ih h.2 hd

/-- A held block has not been given up: it is the one before with the seals. -/
theorem Quiet.held_eq_some {b : Block} (h : Quiet g is) (hb : (g.run is).held = some b) :
    (∀ d ∈ g.decisions is, ¬ d.GivesUp)
      ∧ ∃ first, g.held = some first ∧ b = (g.agreedSeals is).foldl Block.addSeal first := by
  have hkept : ∀ d ∈ g.decisions is, ¬ d.GivesUp := by
    intro d hd hgives
    rw [h.held_of_givesUp hd hgives] at hb
    cases hb
  rw [h.held hkept] at hb
  obtain ⟨first, hfirst, rfl⟩ := Option.map_eq_some_iff.mp hb
  exact ⟨hkept, first, hfirst, rfl⟩

/-! ## The held block -/

/-- Right after the latest proposal of a run, ballot, ledger and held block are its own. -/
theorem adopted_upTo {before : List Input} {p : Proposal} (hfits : (Input.propose p).Fits)
    (haccepts : (g.run before).Accepts p) :
    (g.upTo before p).ballot = g.rule.ballot p ∧ (g.upTo before p).ledger = p.ledger
      ∧ (g.upTo before p).held = p.candidate.map Candidate.block := by
  rw [upTo, run_concat, ← rule_run g before]
  exact (step_cases _ _).adopted haccepts hfits

/-- **A decision for the held block tells where the block comes from.** Take a
gate with any rule for the contact order and any alternative order, any
proposals and outcomes in any order, each proposal on a ledger that a height
follows, and an outcome that is decided for the held block. Then some proposal
was the last one of a round ahead, and it has a candidate. Round and ledger of
the decision are those of the proposal. The outcome is a commit whose first vote
is for that round, proposal and block. No decision since the proposal gave the
block up. The block is the candidate with the seals of all commits for it since
then added, the last outcome included, of each new key the first seal. -/
theorem held_block_of_latest_proposal (ledger : Ledger) (alternative : Option ContactOrder)
    (order : Ballot → List Peer → Option ContactOrder) (is : List Input)
    (hfits : ∀ i ∈ is, i.Fits) (o : Outcome) (round : Round) (snapshot : Ledger) (block : Block)
    (h : (((start ledger alternative { VotingRule.usual with order }).run is).step (.read o)).2
      = .decided (some (.heldBlock round snapshot block))) :
    let g := start ledger alternative { VotingRule.usual with order }
    ∃ before p c after, is = before ++ .propose p :: after ∧ Latest g before p after
      ∧ p.candidate = some c ∧ round = p.round ∧ snapshot = p.ledger
      ∧ o.ending = .commit
      ∧ (∃ first rest, o.votes = first :: rest ∧ first.ballot.round = p.round
        ∧ first.ballot.choice = ⟨c.proposal, c.block.hash⟩)
      ∧ (∀ d ∈ (g.upTo before p).decisions (after ++ [.read o]), ¬ d.GivesUp)
      ∧ block = c.block.withFresh ((g.upTo before p).agreedSeals (after ++ [.read o])) := by
  intro g
  obtain ⟨o', held, first, rest, ho, hheld, hround, hledger, hblock, hending, hvotes, hfirst,
    hchoice⟩ := (step_of_decision (Gate.Reply.decision?_eq_some_iff.mpr h)).agreed_of_heldBlock
  cases ho
  rcases quiet_or_latest g is with hquiet | ⟨before, p, after, rfl, hlatest⟩
  · -- nothing was ever taken up, so nothing is held
    rw [hquiet.held_of_none rfl] at hheld
    cases hheld
  · have hp : (Input.propose p).Fits := hfits _ (by simp)
    obtain ⟨hballot, hsnapshot, hcandidate⟩ := adopted_upTo hp hlatest.accepted
    obtain ⟨hballot', hsnapshot'⟩ := hlatest.quiet.ballot_ledger
    rw [run_upTo] at h hheld hround hledger hfirst hchoice
    obtain ⟨hkept, b, hb, hcollected⟩ := hlatest.quiet.held_eq_some hheld
    rw [hcandidate] at hb
    obtain ⟨c, hc, rfl⟩ := Option.map_eq_some_iff.mp hb
    have husual : g.rule.ballot p = .ofProposal p := rfl
    rw [hballot', hballot, husual] at hround hfirst hchoice
    rw [round_ofProposal] at hround hfirst
    rw [hsnapshot', hsnapshot] at hledger
    refine ⟨before, p, c, after, rfl, hlatest, hc, hround, hledger, hending,
      ⟨first, rest, hvotes, hfirst, ?_⟩, ?_, ?_⟩
    · rw [hchoice, Ballot.ofProposal, hc]
    · rw [decisions_concat, h]
      intro d hd
      rcases List.mem_append.mp hd with hd | hd
      · exact hkept d hd
      · cases List.mem_singleton.mp hd
        exact id
    · have hseals : (g.upTo before p).agreedSeals (after ++ [.read o])
          = (g.upTo before p).agreedSeals after ++ o.votes.filterMap (·.ballot.blockSeal) := by
        rw [agreedSeals_append, agreedSeals, h]
        simp [agreedSeals, Input.seals]
      rw [hblock, hcollected, collectSeals, ← List.foldl_append, ← hseals, Block.foldl_addSeal]

theorem three_seals_from_two_commits :
    let mark (n m : UInt8) : Seal := ⟨⟨.replicate 32 n⟩, ⟨.replicate 64 m⟩⟩
    let choice : Choice := ⟨⟨.replicate 32 9⟩, ⟨.replicate 32 7⟩⟩
    let block : Block := ⟨5, .zero, 0, [], choice.block, [mark 1 1]⟩
    let p : Proposal := ⟨⟨5, 0⟩, ⟨[], ⟨4, .zero⟩⟩, some ⟨choice.proposal, block⟩⟩
    let vote (n m : UInt8) : Vote := ⟨⟨⟨5, 0⟩, choice, some (mark n m)⟩, mark n m⟩
    let is : List Input := [.propose p, .read ⟨.commit, [vote 1 2, vote 2 2]⟩]
    let o : Outcome := ⟨.commit, [vote 2 3, vote 3 3]⟩
    let agreed : Block := { block with seals := [mark 1 1, mark 2 2, mark 3 3] }
    let g := start ⟨[], ⟨4, .zero⟩⟩ none
    ((g.run is).step (.read o)).2 = .decided (some (.heldBlock ⟨5, 0⟩ p.ledger agreed))
      ∧ ∃ before q c after, is = before ++ .propose q :: after ∧ q.candidate = some c
        ∧ agreed = c.block.withFresh ((g.upTo before q).agreedSeals (after ++ [.read o])) := by
  intro mark choice block p vote is o agreed g
  have hfits : ∀ i ∈ is, i.Fits := by
    intro i hi
    simp only [is, List.mem_cons, List.not_mem_nil, or_false] at hi
    rcases hi with rfl | rfl
    · show (4 : UInt64).toNat < 2 ^ 64 - 1
      decide
    · trivial
  have hdecided : ((g.run is).step (.read o)).2
      = .decided (some (.heldBlock ⟨5, 0⟩ p.ledger agreed)) := rfl
  obtain ⟨before, q, c, after, his, -, hc, -, -, -, -, -, hblock⟩ :=
    held_block_of_latest_proposal _ none VotingRule.usual.order is hfits o _ _ _ hdecided
  exact ⟨hdecided, before, q, c, after, his, hc, hblock⟩

end Gate

end LedgerCommit
