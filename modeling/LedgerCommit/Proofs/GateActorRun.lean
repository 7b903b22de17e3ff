import LedgerCommit.Proofs.GateRun
import LedgerCommit.Voting.GateActor

/-!
# Runs of the gate actor

The gate actor takes its inputs one at a time from two mailboxes. Whatever
the mailboxes and the decision queue do to its pace, what it has cast and made
known so far is what the gate alone comes to on the inputs taken so far, in
the order in which they were taken. Each mailbox is read in order and nothing
in it is skipped.
-/

namespace LedgerCommit

/-! ## Mailboxes -/

namespace Mailbox

variable {α : Type} {m : Mailbox α} {sent taken : List α}

/-- What was sent was taken or is still there, all in order; something is
missing only once the receiver is gone. -/
structure Accounts (m : Mailbox α) (sent taken : List α) : Prop where
  isPrefix : taken ++ m.items <+: sent
  all : m.hasReceiver = true → taken ++ m.items = sent

theorem Accounts.empty (capacity : Nat) : (Mailbox.empty capacity : Mailbox α).Accounts [] [] :=
  ⟨List.prefix_rfl, fun _ => rfl⟩

theorem Accounts.offer (h : m.Accounts sent taken) {x : α} {m' : Mailbox α}
    (ho : m.offer x = (.accepted, m')) : m'.Accounts (sent ++ [x]) taken := by
  unfold Mailbox.offer at ho
  split at ho
  · cases ho
  · rename_i hreceiver
    split at ho
    · cases ho
      have hall : taken ++ (m.items ++ [x]) = sent ++ [x] := by
        rw [← List.append_assoc, h.all (Decidable.not_not.mp hreceiver)]
      exact ⟨hall ▸ List.prefix_rfl, fun _ => hall⟩
    · cases ho

theorem hasReceiver_of_offer {x : α} {m' : Mailbox α} (ho : m.offer x = (.accepted, m')) :
    m'.hasReceiver = m.hasReceiver := by
  unfold Mailbox.offer at ho
  split at ho
  · cases ho
  · split at ho
    · cases ho
      rfl
    · cases ho

theorem Accounts.take (h : m.Accounts sent taken) {xs rest : List α}
    (hitems : m.items = xs ++ rest) : { m with items := rest }.Accounts sent (taken ++ xs) := by
  obtain ⟨hpre, hall⟩ := h
  rw [hitems, ← List.append_assoc] at hpre hall
  exact ⟨hpre, hall⟩

theorem Accounts.keptBy (h : m.Accounts sent taken) (alive : Bool) :
    (m.keptBy alive).Accounts sent taken := by
  cases alive with
  | true => exact h
  | false =>
      refine ⟨?_, nofun⟩
      exact (List.prefix_append_right_inj taken).mpr List.nil_prefix |>.trans h.isPrefix

theorem Accounts.dropSender (h : m.Accounts sent taken) : m.dropSender.Accounts sent taken :=
  ⟨h.isPrefix, h.all⟩

end Mailbox

namespace Gate

def Input.proposal? : Input → Option Proposal
  | propose p => some p
  | read _ => none

def Input.outcome? : Input → Option Outcome
  | propose _ => none
  | read o => some o

/-- Whether the gate could not take the input. -/
def Reply.IsError : Reply → Prop
  | overflow _ | unreadable _ => True
  | voted _ | decided _ => False

theorem Step.read_of_unreadable {g g' : Gate} {i : Input} {e : OutcomeError}
    (h : Step g i g' (.unreadable e)) : ∃ o, i = .read o ∧ g.read o = .error e := by
  cases h with
  | unreadable hread => exact ⟨_, rfl, hread⟩

end Gate

namespace GateActor

open Gate (Input Reply)

/-! ## What a step can do -/

/-- The input that the next step takes. It takes none while a decision waits,
when the actor ends, and when it only notices that a mailbox is exhausted. -/
def taking (a : GateActor) : Option Input :=
  match a.activity with
  | .idle =>
      if (a.proposalsDone ∧ a.outcomesDone) ∨ a.signalled then none
      else
        match a.proposals.items with
        | p :: _ => some (.propose p)
        | [] =>
            if ¬ a.proposalsDone ∧ ¬ a.proposals.hasSender then none
            else a.outcomes.items.head?.map .read
  | _ => none

/-- The decision that waits for room in the queue. -/
def waiting (a : GateActor) : Option Decision :=
  match a.activity with
  | .busy d => some d
  | _ => none

/-- What the actor does once the gate has replied. -/
def activityAfter (attached : Bool) : Reply → Activity Decision OutcomeError
  | .voted _ | .decided none => .idle
  | .decided (some d) => if attached then .busy d else .idle
  | .overflow o => .broken o
  | .unreadable e => .ended (.error e)

/-- What taking an input changes. -/
structure Takes (a : GateActor) (i : Input) (a' : GateActor) : Prop where
  gate : a'.gate = (a.gate.step i).1
  casts : a'.casts = a.casts ++ (a.gate.step i).2.vote?.toList
  published : a'.published.sent = a.published.sent ++ (a.gate.step i).2.decision?.toList
  activity : a'.activity = activityAfter a.attached (a.gate.step i).2
  attached : a'.attached = a.attached
  proposals : ∃ rest, a.proposals.items = i.proposal?.toList ++ rest
    ∧ a'.proposals = { a.proposals with items := rest }.keptBy a'.isAlive
  outcomes : ∃ rest, a.outcomes.items = i.outcome?.toList ++ rest
    ∧ a'.outcomes = { a.outcomes with items := rest }.keptBy a'.isAlive

/-- The ways in which the actor can take a step, with the input it takes. -/
inductive Step (a : GateActor) (q : Mailbox Decision) :
    Option Input → GateActor → Mailbox Decision → Prop where
  | take {i : Input} {a' : GateActor} : a.activity = .idle → Takes a i a' →
      Step a q (some i) a' (q.fedBy a'.isAlive)
  /-- Notice which mailboxes are exhausted. -/
  | notice (proposalsDone outcomesDone : Bool) : a.activity = .idle →
      Step a q none { a with proposalsDone, outcomesDone } q
  | finish : a.activity = .idle → Step a q none (a.finish (.ok ())) q.dropSender
  | deliver {d : Decision} : a.activity = .busy d → q.hasReceiver = true →
      Step a q none { a with activity := .idle } (q.push d)
  /-- Nobody takes decisions any more. -/
  | discard {d : Decision} : a.activity = .busy d → q.hasReceiver = false →
      Step a q none { a with activity := .idle, attached := false } q

variable {a a' : GateActor} {q q' : Mailbox Decision}

theorem isAlive_of_idle (h : a.activity = .idle) : a.isAlive = true := by
  rw [isAlive, h]
  rfl

theorem isAlive_of_busy {d : Decision} (h : a.activity = .busy d) : a.isAlive = true := by
  rw [isAlive, h]
  rfl

theorem takes_proposal {p : Proposal} {rest : List Proposal} (hidle : a.activity = .idle)
    (hitems : a.proposals.items = p :: rest) :
    Takes a (.propose p)
      ({ a with proposals := { a.proposals with items := rest } }.takeProposal p) := by
  unfold takeProposal
  cases hp : a.gate.propose p with
  | error o =>
      have hstep : a.gate.step (.propose p) = (a.gate, .overflow o) := by rw [Gate.step, hp]
      refine ⟨?_, ?_, ?_, ?_, rfl, ⟨rest, hitems, rfl⟩, ⟨a.outcomes.items, rfl, rfl⟩⟩
      all_goals simp [hstep, leave, Reply.vote?, Reply.decision?, activityAfter]
  | ok r =>
      obtain ⟨g, vote⟩ := r
      have hstep : a.gate.step (.propose p) = (g, .voted vote) := by rw [Gate.step, hp]
      refine ⟨?_, ?_, ?_, ?_, rfl, ⟨rest, hitems, ?_⟩, ⟨a.outcomes.items, rfl, ?_⟩⟩
      all_goals simp [hstep, hidle, Reply.vote?, Reply.decision?, activityAfter, isAlive,
        Activity.isAlive, Mailbox.keptBy]

theorem takes_outcome {o : Outcome} {rest : List Outcome} (hidle : a.activity = .idle)
    (hitems : a.outcomes.items = o :: rest) :
    Takes a (.read o)
      ({ a with outcomes := { a.outcomes with items := rest } }.takeOutcome o) := by
  unfold takeOutcome
  cases hr : a.gate.read o with
  | error e =>
      have hstep : a.gate.step (.read o) = (a.gate, .unreadable e) := by rw [Gate.step, hr]
      refine ⟨?_, ?_, ?_, ?_, rfl, ⟨a.proposals.items, rfl, rfl⟩, ⟨rest, hitems, rfl⟩⟩
      all_goals simp [hstep, finish, leave, Reply.vote?, Reply.decision?, activityAfter]
  | ok r =>
      obtain ⟨d, g⟩ := r
      have hstep : a.gate.step (.read o) = (g, .decided d) := by rw [Gate.step, hr]
      cases d with
      | none =>
          refine ⟨?_, ?_, ?_, ?_, rfl, ⟨a.proposals.items, rfl, ?_⟩, ⟨rest, hitems, ?_⟩⟩
          all_goals simp [hstep, hidle, Reply.vote?, Reply.decision?, activityAfter, isAlive,
            Activity.isAlive, Mailbox.keptBy]
      | some d =>
          have halive : isAlive ({ a with
              gate := g, outcomes := { a.outcomes with items := rest } }.publish d) = true := by
            unfold publish isAlive
            dsimp only
            split <;> rfl
          refine ⟨?_, ?_, ?_, ?_, rfl, ⟨a.proposals.items, rfl, ?_⟩, ⟨rest, hitems, ?_⟩⟩
          · rw [hstep]
            rfl
          · simp [hstep, publish, Reply.vote?]
          · simp [hstep, publish, Reply.decision?, Broadcast.send]
          · simp [hstep, publish, activityAfter]
          · rw [halive]
            rfl
          · rw [halive]
            rfl

theorem step_outcome (hidle : a.activity = .idle) (h : a.stepOutcome = some a') :
    Step a q (a.outcomes.items.head?.map .read) a' (q.fedBy a'.isAlive) := by
  unfold stepOutcome at h
  split at h
  · rename_i o rest hitems
    have hhead : a.outcomes.items.head?.map Input.read = some (.read o) := by rw [hitems]; rfl
    cases h
    rw [hhead]
    exact .take hidle (takes_outcome hidle hitems)
  · rename_i hitems
    have hhead : a.outcomes.items.head?.map Input.read = none := by rw [hitems]; rfl
    split at h
    · cases h
      rw [hhead, isAlive_of_idle (a := { a with outcomesDone := true }) hidle]
      exact .notice a.proposalsDone true hidle
    · cases h

theorem step_idle (hidle : a.activity = .idle) (h : a.stepIdle = some a') :
    Step a q a.taking a' (q.fedBy a'.isAlive) := by
  unfold stepIdle at h
  split at h
  · rename_i hdone
    have htaking : a.taking = none := by
      rw [taking, hidle]
      exact if_pos hdone
    cases h
    rw [htaking]
    exact .finish hidle
  · rename_i hdone
    split at h
    · rename_i p rest hitems
      have htaking : a.taking = some (.propose p) := by simp [taking, hidle, hdone, hitems]
      cases h
      rw [htaking]
      exact .take hidle (takes_proposal hidle hitems)
    · rename_i hitems
      have htaking : a.taking = if ¬ a.proposalsDone ∧ ¬ a.proposals.hasSender then none
          else a.outcomes.items.head?.map .read := by
        rw [taking, hidle]
        dsimp only
        rw [if_neg hdone, hitems]
      split at h
      · rename_i hgone
        rw [if_pos hgone] at htaking
        cases h
        rw [htaking, isAlive_of_idle (a := { a with proposalsDone := true }) hidle]
        exact .notice true a.outcomesDone hidle
      · rename_i hgone
        rw [if_neg hgone] at htaking
        rw [htaking]
        exact step_outcome hidle h

/-- **Every step goes one of these ways.** -/
theorem step_cases (h : a.step q = some (a', q')) : Step a q a.taking a' q' := by
  unfold step at h
  split at h
  · rename_i hidle
    obtain ⟨b, hb, hpair⟩ := Option.map_eq_some_iff.mp h
    cases hpair
    exact step_idle hidle hb
  · rename_i d hbusy
    have htaking : a.taking = none := by rw [taking, hbusy]
    rw [htaking]
    unfold stepDeliver at h
    split at h
    · rename_i hreceiver
      cases h
      exact .discard hbusy (Bool.not_eq_true _ ▸ hreceiver)
    · rename_i hreceiver
      split at h
      · cases h
        exact .deliver hbusy (Decidable.not_not.mp hreceiver)
      · cases h
  · cases h
  · cases h

/-- An actor that is gone takes no step. -/
theorem step_of_gone (h : a.isAlive = false) : a.step q = none := by
  unfold step
  split
  · rename_i hidle
    rw [isAlive_of_idle hidle] at h
    cases h
  · rename_i hbusy
    rw [isAlive_of_busy hbusy] at h
    cases h
  · rfl
  · rfl

theorem waiting_of_idle (h : a.activity = .idle) : a.waiting = none := by rw [waiting, h]

theorem waiting_of_busy {d : Decision} (h : a.activity = .busy d) : a.waiting = some d := by
  rw [waiting, h]

/-- Of an attached gate a decision waits as soon as it is made. -/
theorem waiting_of_activity {r : Gate.Reply}
    (h : a.activity = activityAfter true r) : a.waiting = r.decision? := by
  rw [waiting, h]
  cases r with
  | voted _ => rfl
  | overflow _ => rfl
  | unreadable _ => rfl
  | decided d => cases d <;> rfl

theorem waiting_of_gone (h : a.isAlive = false) : a.waiting = none := by
  unfold waiting
  split
  · rename_i hbusy
    rw [isAlive_of_busy hbusy] at h
    cases h
  · rfl

/-! ## The gate behind the actor -/

/-- The actor has come to what the gate alone comes to on the inputs taken. It
lives only while none of them was an error, and ends with an error only at the
last one. -/
structure Follows (g : Gate) (taken : List Input) (a : GateActor) : Prop where
  gate : a.gate = g.run taken
  casts : a.casts = g.casts taken
  published : a.published.sent = g.decisions taken
  sound : a.isAlive = true → ∀ r ∈ g.replies taken, ¬ r.IsError
  stopped : ∀ e, a.activity = .ended (.error e) → ∃ before o, taken = before ++ [.read o]
    ∧ (∀ r ∈ g.replies before, ¬ r.IsError) ∧ (g.run before).read o = .error e

theorem not_isError_of_isAlive {attached : Bool} {r : Reply}
    (h : (activityAfter attached r).isAlive = true) : ¬ r.IsError := by
  cases r with
  | voted _ => exact id
  | decided _ => exact id
  | overflow _ => cases h
  | unreadable _ => cases h

theorem eq_unreadable_of_ended {attached : Bool} {r : Reply} {e : OutcomeError}
    (h : activityAfter attached r = .ended (.error e)) : r = .unreadable e := by
  cases r with
  | voted _ => cases h
  | overflow _ => cases h
  | unreadable _ => cases h; rfl
  | decided d =>
      cases d with
      | none => cases h
      | some d => cases attached <;> cases h

theorem Follows.start (g : Gate) (input output : Nat) (attached : Bool) :
    Follows g [] (start g input output attached) :=
  ⟨rfl, rfl, rfl, nofun, nofun⟩

variable {g : Gate} {taken : List Input} {i? : Option Input}

theorem Follows.take {i : Input} (hf : Follows g taken a) (hidle : a.activity = .idle)
    (ht : Takes a i a') : Follows g (taken ++ [i]) a' := by
  have hsound := hf.sound (isAlive_of_idle hidle)
  have hactivity := ht.activity
  rw [hf.gate] at hactivity
  refine ⟨?_, ?_, ?_, ?_, ?_⟩
  · rw [ht.gate, hf.gate, Gate.run_concat]
  · rw [ht.casts, hf.casts, hf.gate, Gate.casts_concat]
  · rw [ht.published, hf.published, hf.gate, Gate.decisions_concat]
  · intro halive r hr
    rw [isAlive, hactivity] at halive
    rw [Gate.replies_append] at hr
    rcases List.mem_append.mp hr with hr | hr
    · exact hsound r hr
    · rw [List.mem_singleton.mp hr]
      exact not_isError_of_isAlive halive
  · intro e hended
    rw [hactivity] at hended
    have hstep := Gate.step_cases (g.run taken) i
    rw [eq_unreadable_of_ended hended] at hstep
    obtain ⟨o, rfl, hread⟩ := hstep.read_of_unreadable
    exact ⟨taken, o, rfl, hsound, hread⟩

theorem Follows.step (hf : Follows g taken a) (h : Step a q i? a' q') :
    Follows g (taken ++ i?.toList) a' := by
  cases h with
  | take hidle ht => exact hf.take hidle ht
  | notice _ _ hidle =>
      rw [Option.toList_none, List.append_nil]
      exact ⟨hf.gate, hf.casts, hf.published, hf.sound, hf.stopped⟩
  | finish _ =>
      rw [Option.toList_none, List.append_nil]
      exact ⟨hf.gate, hf.casts, hf.published, nofun, nofun⟩
  | deliver hbusy _ =>
      rw [Option.toList_none, List.append_nil]
      exact ⟨hf.gate, hf.casts, hf.published, fun _ => hf.sound (isAlive_of_busy hbusy), nofun⟩
  | discard hbusy _ =>
      rw [Option.toList_none, List.append_nil]
      exact ⟨hf.gate, hf.casts, hf.published, fun _ => hf.sound (isAlive_of_busy hbusy), nofun⟩

/-! ## The mailboxes of the actor -/

/-- The inputs taken are those that were put into the mailboxes, each mailbox
in order. The mailboxes are open as long as the actor lives. -/
structure Serves (proposed : List Proposal) (submitted : List Outcome) (taken : List Input)
    (a : GateActor) : Prop where
  proposals : a.proposals.Accounts proposed (taken.filterMap Input.proposal?)
  outcomes : a.outcomes.Accounts submitted (taken.filterMap Input.outcome?)
  proposalsOpen : a.proposals.hasReceiver = a.isAlive
  outcomesOpen : a.outcomes.hasReceiver = a.isAlive

theorem Serves.start (g : Gate) (input output : Nat) (attached : Bool) :
    Serves [] [] [] (start g input output attached) :=
  ⟨.empty input, .empty input, rfl, rfl⟩

variable {proposed : List Proposal} {submitted : List Outcome}

theorem Serves.step (hs : Serves proposed submitted taken a) (h : Step a q i? a' q') :
    Serves proposed submitted (taken ++ i?.toList) a' := by
  cases h with
  | take hidle ht =>
      obtain ⟨ps, hps, hproposals⟩ := ht.proposals
      obtain ⟨os, hos, houtcomes⟩ := ht.outcomes
      have halive := isAlive_of_idle hidle
      rw [Option.toList_some]
      refine ⟨?_, ?_, ?_, ?_⟩
      · rw [hproposals, filterMap_concat]
        exact (hs.proposals.take hps).keptBy _
      · rw [houtcomes, filterMap_concat]
        exact (hs.outcomes.take hos).keptBy _
      · rw [hproposals, Mailbox.hasReceiver_keptBy, hs.proposalsOpen, halive, Bool.true_and]
      · rw [houtcomes, Mailbox.hasReceiver_keptBy, hs.outcomesOpen, halive, Bool.true_and]
  | notice _ _ hidle =>
      rw [Option.toList_none, List.append_nil]
      exact ⟨hs.proposals, hs.outcomes, hs.proposalsOpen, hs.outcomesOpen⟩
  | finish _ =>
      rw [Option.toList_none, List.append_nil]
      exact ⟨hs.proposals.keptBy false, hs.outcomes.keptBy false, rfl, rfl⟩
  | deliver hbusy _ =>
      rw [Option.toList_none, List.append_nil]
      have halive := isAlive_of_busy hbusy
      exact ⟨hs.proposals, hs.outcomes, hs.proposalsOpen.trans halive, hs.outcomesOpen.trans halive⟩
  | discard hbusy _ =>
      rw [Option.toList_none, List.append_nil]
      have halive := isAlive_of_busy hbusy
      exact ⟨hs.proposals, hs.outcomes, hs.proposalsOpen.trans halive, hs.outcomesOpen.trans halive⟩

end GateActor

end LedgerCommit
