import LedgerCommit.Voting.Gate
import Mathlib.Algebra.Ring.Nat

/-!
# Runs of the gate

A run takes proposals and outcomes in any order and keeps what each of them
came to: the votes cast, and the decisions read. `Reading` lists the ways in
which the ballot of an outcome can be read, and `Step` the ways in which one
input can go, with all that it changes in the gate; what holds of runs follows
from them, one case for each way.
-/

namespace LedgerCommit

theorem filterMap_concat {α β : Type} (f : α → Option β) (xs : List α) (x : α) :
    (xs ++ [x]).filterMap f = xs.filterMap f ++ (f x).toList := by
  rw [List.filterMap_append]
  cases h : f x <;> simp [h]

/-- Whether the decision makes the held block obsolete: nothing is agreed, or
another block. -/
def Decision.GivesUp : Decision → Prop
  | nothing .. | otherBlock .. => True
  | _ => False

/-- Whether the decision is for the held block. -/
def Decision.IsHeldBlock : Decision → Prop
  | heldBlock .. => True
  | _ => False

namespace Gate

/-! ## Inputs and replies -/

inductive Input where
  | propose (p : Proposal)
  | read (o : Outcome)

/-- A height follows the one of the ledger, if the input is a proposal. -/
def Input.Fits : Input → Prop
  | propose p => p.ledger.height.toNat < 2 ^ 64 - 1
  | read _ => True

/-- What an input comes to. -/
inductive Reply where
  /-- The proposal was passed over or taken up, without or with a vote cast. -/
  | voted (vote : Option CastVote)
  /-- No height follows the one of the proposal's ledger. -/
  | overflow (cause : Overflow)
  | decided (d : Option Decision)
  | unreadable (cause : OutcomeError)

def Reply.vote? : Reply → Option CastVote
  | voted v => v
  | _ => none

def Reply.decision? : Reply → Option Decision
  | decided d => d
  | _ => none

theorem Reply.vote?_eq_some_iff {r : Reply} {v : CastVote} :
    r.vote? = some v ↔ r = .voted (some v) := by
  cases r <;> simp [vote?]

theorem Reply.decision?_eq_some_iff {r : Reply} {d : Decision} :
    r.decision? = some d ↔ r = .decided (some d) := by
  cases r <;> simp [decision?]

/-- Whether the gate votes anew for the proposal: its round is ahead. -/
def Accepts (g : Gate) (p : Proposal) : Prop := g.ballot.round.before p.round = true

/-- Take an input. One that is an error leaves the gate as it is. -/
def step (g : Gate) : Input → Gate × Reply
  | .propose p =>
      match g.propose p with
      | .error o => (g, .overflow o)
      | .ok (g, vote) => (g, .voted vote)
  | .read o =>
      match g.read o with
      | .error e => (g, .unreadable e)
      | .ok (d, g) => (g, .decided d)

/-- The gate after some inputs. -/
def run (g : Gate) (is : List Input) : Gate := is.foldl (fun g i => (g.step i).1) g

/-- What each of some inputs comes to. -/
def replies : Gate → List Input → List Reply
  | _, [] => []
  | g, i :: is => (g.step i).2 :: replies (g.step i).1 is

/-- The votes that are cast, in order. -/
def casts (g : Gate) (is : List Input) : List CastVote := (g.replies is).filterMap Reply.vote?

/-- The decisions that are made, in order. -/
def decisions (g : Gate) (is : List Input) : List Decision :=
  (g.replies is).filterMap Reply.decision?

theorem run_append (g : Gate) (xs ys : List Input) : g.run (xs ++ ys) = (g.run xs).run ys :=
  List.foldl_append

theorem run_concat (g : Gate) (is : List Input) (i : Input) :
    g.run (is ++ [i]) = ((g.run is).step i).1 := run_append g is [i]

theorem replies_append (g : Gate) (xs ys : List Input) :
    g.replies (xs ++ ys) = g.replies xs ++ (g.run xs).replies ys := by
  induction xs generalizing g with
  | nil => rfl
  | cons i xs ih => rw [List.cons_append, replies, ih]; rfl

/-- What is drawn from the replies grows by what is drawn from the last one. -/
theorem filterMap_replies_concat {α : Type} (f : Reply → Option α) (g : Gate) (is : List Input)
    (i : Input) : (g.replies (is ++ [i])).filterMap f
      = (g.replies is).filterMap f ++ (f ((g.run is).step i).2).toList := by
  rw [replies_append, replies, replies, filterMap_concat]

theorem filterMap_replies_cons {α : Type} (f : Reply → Option α) (g : Gate) (i : Input)
    (is : List Input) : (g.replies (i :: is)).filterMap f
      = (f (g.step i).2).toList ++ ((g.step i).1.replies is).filterMap f := by
  rw [replies]
  cases h : f (g.step i).2 <;> simp [h]

theorem casts_cons (g : Gate) (i : Input) (is : List Input) :
    g.casts (i :: is) = (g.step i).2.vote?.toList ++ (g.step i).1.casts is :=
  filterMap_replies_cons Reply.vote? g i is

theorem decisions_cons (g : Gate) (i : Input) (is : List Input) :
    g.decisions (i :: is) = (g.step i).2.decision?.toList ++ (g.step i).1.decisions is :=
  filterMap_replies_cons Reply.decision? g i is

theorem casts_concat (g : Gate) (is : List Input) (i : Input) :
    g.casts (is ++ [i]) = g.casts is ++ ((g.run is).step i).2.vote?.toList :=
  filterMap_replies_concat Reply.vote? g is i

theorem decisions_concat (g : Gate) (is : List Input) (i : Input) :
    g.decisions (is ++ [i]) = g.decisions is ++ ((g.run is).step i).2.decision?.toList :=
  filterMap_replies_concat Reply.decision? g is i

/-! ## Taking up a proposal -/

@[simp]
theorem ledger_adopt (g : Gate) (p : Proposal) : (g.adopt p).ledger = p.ledger := by
  unfold adopt
  split <;> rfl

@[simp]
theorem rule_adopt (g : Gate) (p : Proposal) : (g.adopt p).rule = g.rule := by
  unfold adopt
  split <;> rfl

@[simp]
theorem alternative_adopt (g : Gate) (p : Proposal) :
    (g.adopt p).alternative = g.alternative := by
  unfold adopt
  split <;> rfl

theorem held_adopt (g : Gate) (p : Proposal) :
    (g.adopt p).held = p.candidate.map Candidate.block := by
  unfold adopt
  split
  · rename_i hnone
    rw [hnone]
    rfl
  · rename_i c hsome
    rw [hsome]
    rfl

/-! ## What a step can do -/

/-- The ways in which an input can go. -/
inductive Step (g : Gate) : Input → Gate → Reply → Prop where
  /-- The round of the proposal is not ahead. -/
  | passedOver {p : Proposal} : ¬ g.Accepts p → Step g (.propose p) g (.voted none)
  /-- No height follows the one of the ledger. -/
  | overflow {p : Proposal} {o : Overflow} : 2 ^ 64 - 1 ≤ p.ledger.height.toNat →
      Step g (.propose p) g (.overflow o)
  /-- The proposal is taken up, but there is nobody to vote to. -/
  | alone {p : Proposal} : g.Accepts p → g.rule.order (g.rule.ballot p) p.ledger.peers = none →
      Step g (.propose p) (g.adopt p) (.voted none)
  | cast {p : Proposal} {order : ContactOrder} : g.Accepts p →
      g.rule.order (g.rule.ballot p) p.ledger.peers = some order →
      Step g (.propose p) { g.adopt p with alternative := .consumed }
        (.voted (some ⟨g.rule.ballot p, order, g.alternative.value⟩))
  | unreadable {o : Outcome} {e : OutcomeError} : g.read o = .error e →
      Step g (.read o) g (.unreadable e)
  /-- The held block is agreed; it collects the seals of the votes. -/
  | agreed {o : Outcome} {b : Ballot} {block : Block} : o.ending = .commit →
      commonBallot o.votes = .ok b → b.agrees g.ballot = true → g.held = some block →
      Step g (.read o) (g.hold (collectSeals block o.votes))
        (.decided (some (.heldBlock g.ballot.round g.ledger (collectSeals block o.votes))))
  /-- The held block is given up. -/
  | gaveUp {o : Outcome} {d : Decision} : d.GivesUp →
      Step g (.read o) g.letGo (.decided (some d))
  /-- Whatever the outcome says, it does not concern the held block. -/
  | kept {o : Outcome} {d : Option Decision} : (∀ x ∈ d, ¬ x.GivesUp ∧ ¬ x.IsHeldBlock) →
      Step g (.read o) g (.decided d)

variable {g : Gate}

theorem cast_adopt_none {p : Proposal} (h : g.rule.order (g.rule.ballot p) p.ledger.peers = none) :
    (g.adopt p).cast = (g.adopt p, none) := by
  simp [cast, ballot_adopt, h]

theorem cast_adopt_some {p : Proposal} {order : ContactOrder}
    (h : g.rule.order (g.rule.ballot p) p.ledger.peers = some order) :
    (g.adopt p).cast = ({ g.adopt p with alternative := .consumed },
      some ⟨g.rule.ballot p, order, g.alternative.value⟩) := by
  simp [cast, ballot_adopt, h, OneShot.take]

theorem step_propose (g : Gate) (p : Proposal) :
    Step g (.propose p) (g.step (.propose p)).1 (g.step (.propose p)).2 := by
  simp only [step, propose]
  by_cases haccepts : g.Accepts p
  · have hround : g.ballot.round.before p.round = true := haccepts
    rw [if_pos hround]
    by_cases hfits : p.ledger.height.toNat + (1 : UInt64).toNat < UInt64.size
    · rw [checkedAdd_eq_ok hfits]
      cases horder : g.rule.order (g.rule.ballot p) p.ledger.peers with
      | none =>
          simp only [bind, Except.bind, cast_adopt_none horder]
          exact .alone haccepts horder
      | some order =>
          simp only [bind, Except.bind, cast_adopt_some horder]
          exact .cast haccepts horder
    · rw [checkedAdd_eq_error (Nat.not_lt.mp hfits)]
      refine .overflow ?_
      have hsize : UInt64.size = 2 ^ 64 := rfl
      have hone : (1 : UInt64).toNat = 1 := rfl
      omega
  · have hround : ¬ g.ballot.round.before p.round = true := haccepts
    rw [if_neg hround]
    exact .passedOver haccepts

theorem step_read_of_error {o : Outcome} {e : OutcomeError} (h : commonBallot o.votes = .error e) :
    g.step (.read o) = (g, .unreadable e) := by
  have hread : g.read o = .error e := by rw [read, h]; rfl
  simp only [step, hread]

/-- What an outcome comes to is the reading of the ballot that stands for its votes. -/
theorem step_read_of_ok {o : Outcome} {b : Ballot} (h : commonBallot o.votes = .ok b) :
    g.step (.read o)
      = ((g.readBallot o.ending b o.votes).2, .decided (g.readBallot o.ending b o.votes).1) := by
  have hread : g.read o = .ok (g.readBallot o.ending b o.votes) := by rw [read, h]; rfl
  simp only [step, hread]

/-! ### Readings -/

/-- The ways in which a ballot that stands for some votes can be read. -/
inductive Reading (g : Gate) (b : Ballot) (votes : List Vote) :
    Ending → Option Decision → Gate → Prop where
  /-- A commit or reject of a round before the current one is dropped. -/
  | stale {ending : Ending} : ending ≠ .future → b.round.before g.ballot.round = true →
      Reading g b votes ending none g
  /-- A later round is dropped if it is not for a later height. -/
  | notAhead : b.round.height ≤ g.ballot.round.height → Reading g b votes .future none g
  /-- The held block is agreed; it collects the seals of the votes. -/
  | held {block : Block} : b.agrees g.ballot = true → g.held = some block →
      Reading g b votes .commit
        (some (.heldBlock g.ballot.round g.ledger (collectSeals block votes)))
        (g.hold (collectSeals block votes))
  | nothing : b.round.before g.ballot.round = false → b.round.height = g.ballot.round.height →
      g.held = none ∨ b.agrees g.ballot = false → b.choice.isNothing = true →
      Reading g b votes .commit (some (.nothing b.round g.ledger (signersOf votes))) g.letGo
  /-- Another block is agreed, at the current height or a later one. -/
  | other : b.round.before g.ballot.round = false →
      (b.round.height = g.ballot.round.height → g.held = none ∨ b.agrees g.ballot = false) →
      b.choice.isNothing = false →
      Reading g b votes .commit
        (some (.otherBlock b.round g.ledger (signersOf votes) (g.rule.block b))) g.letGo
  /-- Nothing is agreed at a later height. -/
  | nothingAhead : b.round.before g.ballot.round = false →
      b.round.height ≠ g.ballot.round.height → b.choice.isNothing = true →
      Reading g b votes .commit (some (.future b.round g.ledger (signersOf votes))) g
  | blockReject : b.round.before g.ballot.round = false →
      b.round.height = g.ballot.round.height →
      votes.all (·.ballot.choice.proposal = b.choice.proposal) = true →
      Reading g b votes .reject (some (.blockReject b.round g.ledger (signersOf votes))) g
  | proposalReject : b.round.before g.ballot.round = false →
      b.round.height = g.ballot.round.height →
      votes.all (·.ballot.choice.proposal = b.choice.proposal) = false →
      Reading g b votes .reject (some (.proposalReject b.round g.ledger (signersOf votes))) g
  | rejectAhead : b.round.before g.ballot.round = false →
      b.round.height ≠ g.ballot.round.height →
      Reading g b votes .reject (some (.future b.round g.ledger (signersOf votes))) g
  | ahead : g.ballot.round.height < b.round.height →
      Reading g b votes .future (some (.future b.round g.ledger (signersOf votes))) g

theorem readCommitHere_of_agrees {b : Ballot} {block : Block} (votes : List Vote)
    (hagrees : b.agrees g.ballot = true) (hheld : g.held = some block) :
    g.readCommitHere b votes
      = (.heldBlock g.ballot.round g.ledger (collectSeals block votes),
          g.hold (collectSeals block votes)) := by
  simp only [readCommitHere, hheld, hagrees]

/-- Without a held block that the ballot agrees with, nothing or another block
is agreed. -/
theorem readCommitHere_of_not_agrees {b : Ballot} (votes : List Vote)
    (h : g.held = none ∨ b.agrees g.ballot = false) :
    g.readCommitHere b votes
      = if b.choice.isNothing then (.nothing b.round g.ledger (signersOf votes), g.letGo)
        else g.readOther b votes := by
  unfold readCommitHere
  split
  · rename_i hheld hagrees
    rw [hheld, hagrees] at h
    simp at h
  · rfl

theorem reading_readCommitHere {b : Ballot} (votes : List Vote)
    (hfresh : b.round.before g.ballot.round = false)
    (hheight : b.round.height = g.ballot.round.height) :
    Reading g b votes .commit (some (g.readCommitHere b votes).1)
      (g.readCommitHere b votes).2 := by
  by_cases hother : g.held = none ∨ b.agrees g.ballot = false
  · rw [readCommitHere_of_not_agrees votes hother]
    split
    · rename_i hnothing
      exact .nothing hfresh hheight hother hnothing
    · rename_i hsome
      exact .other hfresh (fun _ => hother) (Bool.not_eq_true _ ▸ hsome)
  · obtain ⟨hheld, hagrees⟩ := not_or.mp hother
    obtain ⟨block, hblock⟩ := Option.ne_none_iff_exists'.mp hheld
    rw [Bool.not_eq_false] at hagrees
    rw [readCommitHere_of_agrees votes hagrees hblock]
    exact .held hagrees hblock

theorem reading_readCommitAhead {b : Ballot} (votes : List Vote)
    (hfresh : b.round.before g.ballot.round = false)
    (hheight : b.round.height ≠ g.ballot.round.height) :
    Reading g b votes .commit (some (g.readCommitAhead b votes).1)
      (g.readCommitAhead b votes).2 := by
  unfold readCommitAhead
  split
  · rename_i hnothing
    exact .nothingAhead hfresh hheight hnothing
  · rename_i hsome
    exact .other hfresh (fun h => absurd h hheight) (Bool.not_eq_true _ ▸ hsome)

theorem reading_readRejectHere {b : Ballot} (votes : List Vote)
    (hfresh : b.round.before g.ballot.round = false)
    (hheight : b.round.height = g.ballot.round.height) :
    Reading g b votes .reject (some (g.readRejectHere b votes)) g := by
  unfold readRejectHere
  split
  · rename_i hall
    exact .blockReject hfresh hheight hall
  · rename_i hall
    exact .proposalReject hfresh hheight (Bool.not_eq_true _ ▸ hall)

/-- **Every ballot is read in one of these ways.** -/
theorem reading_readBallot (g : Gate) (ending : Ending) (b : Ballot) (votes : List Vote) :
    Reading g b votes ending (g.readBallot ending b votes).1 (g.readBallot ending b votes).2 := by
  unfold readBallot
  dsimp only
  split
  · split
    · rename_i hstale
      exact .stale nofun hstale
    · rename_i hfresh
      rw [Bool.not_eq_true] at hfresh
      split
      · rename_i hheight
        exact reading_readCommitHere votes hfresh hheight
      · rename_i hheight
        exact reading_readCommitAhead votes hfresh hheight
  · split
    · rename_i hstale
      exact .stale nofun hstale
    · rename_i hfresh
      rw [Bool.not_eq_true] at hfresh
      split
      · rename_i hheight
        exact reading_readRejectHere votes hfresh hheight
      · rename_i hheight
        exact .rejectAhead hfresh hheight
  · split
    · rename_i hbehind
      exact .notAhead hbehind
    · rename_i hahead
      exact .ahead (UInt64.not_le.mp hahead)

/-- No ballot is read in two ways. -/
theorem Reading.readBallot_eq {g' : Gate} {b : Ballot} {votes : List Vote} {ending : Ending}
    {d : Option Decision} (h : Reading g b votes ending d g') :
    g.readBallot ending b votes = (d, g') := by
  cases h with
  | stale hending hstale =>
      cases ending with
      | commit => simp [readBallot, hstale]
      | reject => simp [readBallot, hstale]
      | future => exact absurd rfl hending
  | notAhead hbehind => simp [readBallot, hbehind]
  | held hagrees hheld =>
      have hround : b.round = g.ballot.round := (Ballot.agrees_iff.mp hagrees).1
      simp [readBallot, hround, Round.not_before_self,
        readCommitHere_of_agrees votes hagrees hheld]
  | nothing hfresh hheight hother hnothing =>
      simp [readBallot, hfresh, hheight, readCommitHere_of_not_agrees votes hother, hnothing]
  | other hfresh hother hsome =>
      by_cases hheight : b.round.height = g.ballot.round.height
      · simp [readBallot, hfresh, hheight, readCommitHere_of_not_agrees votes (hother hheight),
          hsome, readOther]
      · simp [readBallot, hfresh, hheight, readCommitAhead, hsome, readOther]
  | nothingAhead hfresh hheight hnothing =>
      simp [readBallot, hfresh, hheight, readCommitAhead, hnothing, readFuture]
  | blockReject hfresh hheight hall =>
      simp only [readBallot, hfresh, hheight, readRejectHere, hall, if_true]
      rfl
  | proposalReject hfresh hheight hall =>
      simp only [readBallot, hfresh, hheight, readRejectHere, hall, if_true]
      rfl
  | rejectAhead hfresh hheight => simp [readBallot, hfresh, hheight, readFuture]
  | ahead hahead => simp [readBallot, UInt64.not_le.mpr hahead, readFuture]

theorem step_read_of_agrees {o : Outcome} {b : Ballot} {block : Block}
    (hending : o.ending = .commit) (hcommon : commonBallot o.votes = .ok b)
    (hagrees : b.agrees g.ballot = true) (hheld : g.held = some block) :
    g.step (.read o) = (g.hold (collectSeals block o.votes),
      .decided (some (.heldBlock g.ballot.round g.ledger (collectSeals block o.votes)))) := by
  rw [step_read_of_ok hcommon, hending, (Reading.held hagrees hheld).readBallot_eq]

/-- Each way to read a ballot is one of the ways in which a step can go. -/
theorem Reading.step {g' : Gate} {o : Outcome} {b : Ballot} {d : Option Decision}
    (h : Reading g b o.votes o.ending d g') (hb : commonBallot o.votes = .ok b) :
    Step g (.read o) g' (.decided d) := by
  have hkept : ∀ {d : Decision}, ¬ d.GivesUp → ¬ d.IsHeldBlock →
      Step g (.read o) g (.decided (some d)) := by
    intro d hgives hheld
    refine .kept ?_
    rintro x ⟨rfl⟩
    exact ⟨hgives, hheld⟩
  generalize hending : o.ending = ending at h
  cases h with
  | stale _ _ => exact .kept nofun
  | notAhead _ => exact .kept nofun
  | held hagrees hheld => exact .agreed hending hb hagrees hheld
  | nothing _ _ _ _ => exact .gaveUp trivial
  | other _ _ _ => exact .gaveUp trivial
  | nothingAhead _ _ _ => exact hkept id id
  | blockReject _ _ _ => exact hkept id id
  | proposalReject _ _ _ => exact hkept id id
  | rejectAhead _ _ => exact hkept id id
  | ahead _ => exact hkept id id

/-- **Every input goes one of these ways.** -/
theorem step_cases (g : Gate) (i : Input) : Step g i (g.step i).1 (g.step i).2 := by
  cases i with
  | propose p => exact step_propose g p
  | read o =>
      cases hb : commonBallot o.votes with
      | error e =>
          rw [step_read_of_error hb]
          refine .unreadable ?_
          rw [read, hb]
          rfl
      | ok b =>
          rw [step_read_of_ok hb]
          exact (reading_readBallot g o.ending b o.votes).step hb

theorem step_of_vote {i : Input} {v : CastVote} (h : (g.step i).2.vote? = some v) :
    Step g i (g.step i).1 (.voted (some v)) := by
  rw [← Reply.vote?_eq_some_iff.mp h]
  exact step_cases g i

theorem step_of_decision {i : Input} {d : Decision} (h : (g.step i).2.decision? = some d) :
    Step g i (g.step i).1 (.decided (some d)) := by
  rw [← Reply.decision?_eq_some_iff.mp h]
  exact step_cases g i

theorem Step.rule {g' : Gate} {i : Input} {reply : Reply} (h : Step g i g' reply) :
    g'.rule = g.rule := by
  cases h with
  | passedOver _ => rfl
  | overflow _ => rfl
  | alone _ _ => exact rule_adopt g _
  | cast _ _ => exact rule_adopt g _
  | unreadable _ => rfl
  | agreed _ _ _ _ => rfl
  | gaveUp _ => rfl
  | kept _ => rfl

theorem rule_run (g : Gate) (is : List Input) : (g.run is).rule = g.rule := by
  induction is generalizing g with
  | nil => rfl
  | cons i is ih => exact (ih _).trans (step_cases g i).rule

end Gate

end LedgerCommit
