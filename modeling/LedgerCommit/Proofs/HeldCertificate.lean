import LedgerCommit.Proofs.Certified
import LedgerCommit.Proofs.HeldBlock
import LedgerCommit.Proofs.NeutralKey

/-!
# The held block passes the check

A gate collects seals without looking at them: of each key it keeps the first
one, and it drops none. A validator counts the distinct keys and refuses a
block with one seal that is not a valid one of a peer. When all the seals that
were offered are good and their keys are a supermajority, both sides agree:
the block that the gate commits is one that every other node accepts.
-/

namespace LedgerCommit

/-! ## Collected seals -/

/-- Lists of the same keys have as many distinct ones. -/
theorem length_distinctKeys_congr {xs ys : List PublicKey} (h : ∀ k, k ∈ xs ↔ k ∈ ys) :
    (distinctKeys xs).length = (distinctKeys ys).length := by
  refine List.Perm.length_eq ?_
  rw [List.perm_ext_iff_of_nodup (nodup_distinctKeys xs) (nodup_distinctKeys ys)]
  intro k
  rw [mem_distinctKeys, mem_distinctKeys, h]

/-- A block that stands on a ledger is certified by the seals it collects, if
its own seals and those offered are good and their keys a supermajority. -/
theorem Validation.certificate_foldl_addSeal {m : FaultModel} {b : Block} {l : Ledger}
    {seals : List Seal} (hheight : b.height.toNat = l.height.toNat + 1)
    (hprev : b.prev = l.tip.hash) (hhash : b.hash = b.contentHash)
    (hseals : ∀ s ∈ b.seals ++ seals, l.hasPeer s.signer = true ∧ s.valid b.hash = true)
    (hquorum : m.isSupermajority (distinctKeys ((b.seals ++ seals).map Seal.signer)).length
      l.peers.length = .ok true) :
    Certificate m (seals.foldl Block.addSeal b) l := by
  -- all but the seals is as it was
  have hfresh := Block.foldl_addSeal b seals
  refine ⟨?_, ?_, ?_, ?_, ?_⟩
  · rw [hfresh]
    exact hheight
  · rw [hfresh]
    exact hprev
  · rw [hfresh]
    exact hhash
  · intro s hs
    have hgood := hseals s (Block.mem_seals_foldl_addSeal hs)
    rw [hfresh]
    exact hgood
  · have hkeys : ∀ k, k ∈ (seals.foldl Block.addSeal b).signers
        ↔ k ∈ (b.seals ++ seals).map Seal.signer := by
      intro k
      rw [Block.mem_signers_foldl_addSeal, List.map_append, List.mem_append]
      rfl
    rw [length_distinctKeys_congr hkeys]
    exact hquorum

namespace Gate

/-! ## The block that is committed last -/

/-- The block of a decision for the held block. -/
def Reply.agreedBlock? : Reply → Option Block
  | decided (some (.heldBlock _ _ b)) => some b
  | _ => none

/-- The blocks of the decisions for the held block, in order. -/
def agreedBlocks (g : Gate) (is : List Input) : List Block :=
  (g.replies is).filterMap Reply.agreedBlock?

variable {g g' : Gate} {i : Input} {is : List Input} {reply : Reply}

theorem agreedBlocks_concat (g : Gate) (is : List Input) (i : Input) :
    g.agreedBlocks (is ++ [i])
      = g.agreedBlocks is ++ ((g.run is).step i).2.agreedBlock?.toList :=
  filterMap_replies_concat Reply.agreedBlock? g is i

theorem Reply.agreedBlock?_eq_some_iff {b : Block} :
    reply.agreedBlock? = some b
      ↔ ∃ round ledger, reply = .decided (some (.heldBlock round ledger b)) := by
  unfold agreedBlock?
  split <;> simp_all

/-- Only a decision for the held block adds seals. -/
theorem Input.seals_of_agreedBlock?_eq_none (i : Input) (h : reply.agreedBlock? = none) :
    i.seals reply = [] := by
  unfold seals
  split
  · cases h
  · rfl

theorem quiet_append {xs ys : List Input} :
    Quiet g (xs ++ ys) ↔ Quiet g xs ∧ Quiet (g.run xs) ys := by
  induction xs generalizing g with
  | nil => simp [Quiet, run]
  | cons i xs ih =>
      simp only [List.cons_append, Quiet, ih, and_assoc]
      rfl

theorem agreedSeals_concat (g : Gate) (is : List Input) (i : Input) :
    g.agreedSeals (is ++ [i]) = g.agreedSeals is ++ i.seals ((g.run is).step i).2 := by
  rw [agreedSeals_append, agreedSeals, agreedSeals, List.append_nil]

/-- The block of a decision is the held one with the seals of its votes. -/
theorem Step.agreedBlock {b : Block} (h : Step g i g' reply) (hb : reply.agreedBlock? = some b) :
    ∃ held, g.held = some held ∧ b = (i.seals reply).foldl Block.addSeal held := by
  obtain ⟨round, ledger, rfl⟩ := Reply.agreedBlock?_eq_some_iff.mp hb
  obtain ⟨o, held, -, -, rfl, hheld, -, -, hcollected, -⟩ := h.agreed_of_heldBlock
  exact ⟨held, hheld, hcollected⟩

/-- The block that is committed last has collected all seals of a run. -/
theorem Quiet.last_agreedBlock {first block : Block} (h : Quiet g is)
    (hfirst : g.held = some first) (hlast : (g.agreedBlocks is).getLast? = some block) :
    block = (g.agreedSeals is).foldl Block.addSeal first := by
  induction is using List.reverseRecOn with
  | nil => cases hlast
  | append_singleton is i ih =>
      have hquiet := (quiet_append.mp h).1
      rw [agreedBlocks_concat] at hlast
      rw [agreedSeals_concat]
      cases hagreed : ((g.run is).step i).2.agreedBlock? with
      | none =>
          rw [hagreed, Option.toList_none, List.append_nil] at hlast
          rw [i.seals_of_agreedBlock?_eq_none hagreed, List.append_nil]
          exact ih hquiet hlast
      | some b =>
          rw [hagreed, Option.toList_some, List.getLast?_concat] at hlast
          cases hlast
          obtain ⟨held, hheld, hblock⟩ := (step_cases _ i).agreedBlock hagreed
          obtain ⟨-, first', hfirst', rfl⟩ := hquiet.held_eq_some hheld
          rw [hfirst] at hfirst'
          cases hfirst'
          rw [hblock, List.foldl_append]

/-- **The block that a node commits is one that others can download.** In a
run of a gate, let the latest proposal taken up be for a block that stands on
the ledger of the proposal. Let its seals and all those that commits have
brought since then be valid ones of peers of that ledger, and let their keys
be a supermajority. Then the block that is decided last passes the check on
that ledger, and every transaction on the ledger takes it. -/
theorem last_held_block_passes_check (m : FaultModel) (g : Gate) {before after : List Input}
    {p : Proposal} {c : Candidate} {block : Block} (hlatest : Latest g before p after)
    (hcandidate : p.candidate = some c)
    (hheight : c.block.height.toNat = p.ledger.height.toNat + 1)
    (hprev : c.block.prev = p.ledger.tip.hash) (hhash : c.block.hash = c.block.contentHash)
    (hseals : ∀ s ∈ c.block.seals ++ (g.upTo before p).agreedSeals after,
      p.ledger.hasPeer s.signer = true ∧ s.valid c.block.hash = true)
    (hquorum : m.isSupermajority
      (distinctKeys ((c.block.seals ++ (g.upTo before p).agreedSeals after).map
        Seal.signer)).length p.ledger.peers.length = .ok true)
    (hlast : ((g.upTo before p).agreedBlocks after).getLast? = some block) :
    Validation.check m block p.ledger = .ok ()
      ∧ ∀ tx : Transaction, tx.ledger = p.ledger → tx.failAt = none →
          Validation.absorb m tx [block] = .ok (true, tx.grow [block]) := by
  have hfits : (Input.propose p).Fits := by
    have := c.block.height.toNat_lt
    show p.ledger.height.toNat < 2 ^ 64 - 1
    omega
  obtain ⟨-, -, hheld⟩ := adopted_upTo hfits hlatest.accepted
  rw [hcandidate] at hheld
  obtain rfl := hlatest.quiet.last_agreedBlock hheld hlast
  have hcheck := Validation.check_eq_ok_iff.mpr
    (Validation.certificate_foldl_addSeal hheight hprev hhash hseals hquorum)
  refine ⟨hcheck, ?_⟩
  intro tx htx hfail
  refine Validation.absorb_of_certified tx hfail (Validation.certified_singleton.mpr ?_)
  rwa [htx]

theorem block_of_neutral_peer_passes_check :
    let ledger : Ledger := ⟨Neutral.peers, ⟨0, .zero⟩⟩
    let b : Block := Block.build 1 .zero 7 []
    let p : Proposal := ⟨⟨1, 0⟩, ledger, some ⟨⟨.replicate 32 9⟩, b⟩⟩
    let vote : Vote := ⟨⟨⟨1, 0⟩, ⟨⟨.replicate 32 9⟩, b.hash⟩, some Neutral.mark⟩, Neutral.mark⟩
    let after : List Input := [.read ⟨.commit, [vote, vote]⟩]
    (((start ledger none).upTo [] p).agreedBlocks after).getLast? = some (b.addSeal Neutral.mark)
      ∧ Validation.check .byzantine (b.addSeal Neutral.mark) ledger = .ok () := by
  intro ledger b p vote after
  have hcontents : b.height = 1 ∧ b.prev = .zero ∧ b.hash = b.contentHash ∧ b.seals = [] :=
    ⟨rfl, rfl, rfl, rfl⟩
  -- no more of the block is needed, and its hash is not to be computed
  clear_value b
  obtain ⟨hheight, hprev, hhash, hnone⟩ := hcontents
  have hlatest : Latest (start ledger none) [] p after := ⟨rfl, id, trivial⟩
  have hfits : (Input.propose p).Fits := by
    show (0 : UInt64).toNat < 2 ^ 64 - 1
    decide
  obtain ⟨hballot, -, hheld⟩ := adopted_upTo hfits hlatest.accepted
  have hagrees : vote.ballot.agrees ((start ledger none).upTo [] p).ballot = true := by
    rw [hballot]
    exact Ballot.agrees_iff.mpr ⟨rfl, rfl⟩
  have hcommit := step_read_of_agrees (o := ⟨.commit, [vote, vote]⟩) rfl
    (commonBallot_eq_ok (by simp)) hagrees hheld
  -- the second vote brings the same seal again
  have hcollected : collectSeals b [vote, vote] = b.addSeal Neutral.mark := by
    have hsigned : Neutral.key ∈ ([Neutral.mark].foldl Block.addSeal b).signers :=
      Block.mem_signers_foldl_addSeal.mpr (.inr List.mem_cons_self)
    have hsame : [Neutral.mark].foldl Block.addSeal (b.addSeal Neutral.mark)
        = b.addSeal Neutral.mark := by
      refine Block.foldl_addSeal_of_signers ?_
      intro s hs
      rw [List.mem_singleton.mp hs]
      exact hsigned
    exact hsame
  rw [hcollected] at hcommit
  have hlast : (((start ledger none).upTo [] p).agreedBlocks after).getLast?
      = some (b.addSeal Neutral.mark) := by
    simp [agreedBlocks, after, replies, hcommit, Reply.agreedBlock?]
  have hseals : ((start ledger none).upTo [] p).agreedSeals after
      = [Neutral.mark, Neutral.mark] := by
    simp [agreedSeals, after, hcommit, Input.seals, vote]
  refine ⟨hlast, ?_⟩
  refine (last_held_block_passes_check .byzantine (start ledger none) hlatest rfl ?_ hprev hhash
    ?_ ?_ hlast).1
  · rw [hheight]
    rfl
  · intro s hs
    rw [hseals, hnone] at hs
    have hmark : s = Neutral.mark := by simpa using hs
    rw [hmark]
    refine ⟨?_, Neutral.valid_mark _⟩
    exact Ledger.hasPeer_iff.mpr ⟨_, List.mem_singleton_self _, rfl⟩
  · rw [hseals, hnone]
    rfl

end Gate

end LedgerCommit
