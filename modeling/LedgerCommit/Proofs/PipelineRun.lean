import LedgerCommit.Node.Pipeline
import LedgerCommit.Proofs.GateActorRun
import LedgerCommit.Proofs.SyncActorRun
import LedgerCommit.Proofs.SyncEvents

/-!
# Runs of the pipeline

Clients and actors take turns in any order. A journal keeps what has gone
through the pipeline: the inputs sent and taken, and the decisions resolved.
Whatever the order of turns, no decision is lost on its way: those resolved,
the one being resolved, those queued and the one that waits are together the
decisions of the gate alone on the inputs taken. When the gate is gone the
synchronizer still resolves all of them.
-/

namespace LedgerCommit

namespace Pipeline

variable {σ : Type}

/-- Whose turn it is. -/
inductive Turn where
  | propose (x : Proposal)
  | submit (o : Outcome)
  /-- The last client leaves. -/
  | leave
  | gate
  | sync
  deriving DecidableEq

/-- A pipeline with what has gone through it. -/
structure Journal (σ : Type) where
  pipeline : Pipeline σ
  proposed : List Proposal
  submitted : List Outcome
  taken : List Gate.Input
  resolved : List Decision

namespace Journal

def start (p : Pipeline σ) : Journal σ := ⟨p, [], [], [], []⟩

/-- Take a turn. One that has to wait, since a mailbox is full or an actor has
nothing to do, changes nothing, and so does one of somebody who is gone. -/
def step (L : Loader σ) (policy : SyncPolicy) (j : Journal σ) : Turn → Journal σ
  | .propose x =>
      if j.pipeline.gate.proposals.hasSender then
        match j.pipeline.propose x with
        | (.accepted, pipeline) => { j with pipeline, proposed := j.proposed ++ [x] }
        | _ => j
      else j
  | .submit o =>
      if j.pipeline.gate.outcomes.hasSender then
        match j.pipeline.submit o with
        | (.accepted, pipeline) => { j with pipeline, submitted := j.submitted ++ [o] }
        | _ => j
      else j
  | .leave => { j with pipeline := { j.pipeline with gate := j.pipeline.gate.dropHandle } }
  | .gate =>
      match j.pipeline.stepGate with
      | none => j
      | some pipeline =>
          { j with pipeline, taken := j.taken ++ j.pipeline.gate.taking.toList }
  | .sync =>
      match j.pipeline.stepSync L policy with
      | none => j
      | some pipeline =>
          { j with pipeline, resolved := j.resolved ++ j.pipeline.sync.resolving.toList }

/-- The journal after some turns. -/
def run (L : Loader σ) (policy : SyncPolicy) (j : Journal σ) (turns : List Turn) : Journal σ :=
  turns.foldl (step L policy) j

end Journal

/-! ## How the actors hang together -/

/-- The queue is open at each end as long as the actor there lives. The
synchronizer ends in order only after the gate, and leaves nothing. -/
structure Joined (p : Pipeline σ) : Prop where
  sender : p.queue.hasSender = p.gate.isAlive
  receiver : p.queue.hasReceiver = p.sync.isAlive
  attached : p.gate.isAlive = true → p.sync.isAlive = true → p.gate.attached = true
  unsignalled : p.sync.signalled = false
  drained : p.sync.isAlive = false → p.queue.items = []
  ended : ∀ r, p.sync.activity = .ended r → p.gate.isAlive = false

/-- The decisions made are those resolved and, unless an overflow broke the
synchronizer off, those that are on their way to it. -/
structure Flows (p : Pipeline σ) (made resolved : List Decision) : Prop where
  inOrder : resolved <+: made
  lossless : ¬ p.sync.IsBroken →
    resolved ++ p.sync.resolving.toList ++ p.queue.items ++ p.gate.waiting.toList = made

variable {L : Loader σ} {policy : SyncPolicy} {p : Pipeline σ}

theorem Joined.not_ended (h : Joined p) (hgate : p.gate.isAlive = true) (r : Except Empty Unit) :
    p.sync.activity ≠ .ended r := by
  intro hended
  rw [h.ended r hended] at hgate
  cases hgate

/-- While the gate lives only an overflow ends the synchronizer. -/
theorem Joined.sync_isAlive (h : Joined p) (hgate : p.gate.isAlive = true)
    (hbroken : ¬ p.sync.IsBroken) : p.sync.isAlive = true := by
  cases hactivity : p.sync.activity with
  | idle => rw [SyncActor.isAlive, hactivity]; rfl
  | busy d => rw [SyncActor.isAlive, hactivity]; rfl
  | ended r => exact absurd hactivity (h.not_ended hgate r)
  | broken cause => exact absurd ⟨cause, hactivity⟩ hbroken

/-! ### Turns of the gate -/

variable {i? : Option Gate.Input} {a : GateActor} {q : Mailbox Decision}

theorem Joined.gate (hj : Joined p) (h : GateActor.Step p.gate p.queue i? a q) :
    Joined { p with gate := a, queue := q } := by
  cases h with
  | take hidle ht =>
      have halive := GateActor.isAlive_of_idle hidle
      refine ⟨?_, ?_, ?_, hj.unsignalled, ?_, fun r hr => absurd hr (hj.not_ended halive r)⟩
      · rw [Mailbox.hasSender_fedBy, hj.sender, halive, Bool.true_and]
      · rw [Mailbox.hasReceiver_fedBy, hj.receiver]
      · exact fun _ hs => ht.attached.trans (hj.attached halive hs)
      · intro hs
        rw [Mailbox.items_fedBy, hj.drained hs]
  | notice _ _ _ =>
      exact ⟨hj.sender, hj.receiver, hj.attached, hj.unsignalled, hj.drained, hj.ended⟩
  | finish _ => exact ⟨rfl, hj.receiver, nofun, hj.unsignalled, hj.drained, fun _ _ => rfl⟩
  | deliver hbusy hreceiver =>
      have halive := GateActor.isAlive_of_busy hbusy
      have hsync : p.sync.isAlive = true := hj.receiver ▸ hreceiver
      refine ⟨hj.sender.trans halive, hj.receiver, fun _ => hj.attached halive, hj.unsignalled, ?_,
        fun r hr => absurd hr (hj.not_ended halive r)⟩
      intro hs
      rw [hsync] at hs
      cases hs
  | discard hbusy hreceiver =>
      have halive := GateActor.isAlive_of_busy hbusy
      have hsync : p.sync.isAlive = false := hj.receiver ▸ hreceiver
      refine ⟨hj.sender.trans halive, hj.receiver, ?_, hj.unsignalled, hj.drained,
        fun r hr => absurd hr (hj.not_ended halive r)⟩
      intro _ hs
      rw [hsync] at hs
      cases hs

theorem Flows.gate {g : Gate} {taken : List Gate.Input} {resolved : List Decision}
    (hj : Joined p) (hf : p.gate.Follows g taken) (hflow : Flows p (g.decisions taken) resolved)
    (h : GateActor.Step p.gate p.queue i? a q) :
    Flows { p with gate := a, queue := q } (g.decisions (taken ++ i?.toList)) resolved := by
  cases h with
  | take hidle ht =>
      rw [Option.toList_some, Gate.decisions_concat]
      refine ⟨hflow.inOrder.trans (List.prefix_append _ _), ?_⟩
      intro hbroken
      -- somebody still takes decisions, so the one made now waits for the queue
      have halive := GateActor.isAlive_of_idle hidle
      have hattached := hj.attached halive (hj.sync_isAlive halive hbroken)
      have hlossless := hflow.lossless hbroken
      rw [GateActor.waiting_of_idle hidle, Option.toList_none, List.append_nil] at hlossless
      have hactivity := ht.activity
      rw [hattached, hf.gate] at hactivity
      dsimp only
      rw [Mailbox.items_fedBy, GateActor.waiting_of_activity hactivity, hlossless]
  | notice _ _ _ =>
      rw [Option.toList_none, List.append_nil]
      exact ⟨hflow.inOrder, hflow.lossless⟩
  | finish hidle =>
      rw [Option.toList_none, List.append_nil]
      refine ⟨hflow.inOrder, ?_⟩
      intro hbroken
      rw [← hflow.lossless hbroken, GateActor.waiting_of_idle hidle]
      rfl
  | @deliver d hbusy _ =>
      rw [Option.toList_none, List.append_nil]
      refine ⟨hflow.inOrder, ?_⟩
      intro hbroken
      rw [← hflow.lossless hbroken, GateActor.waiting_of_busy hbusy]
      simp [Mailbox.push, GateActor.waiting]
  | discard hbusy hreceiver =>
      rw [Option.toList_none, List.append_nil]
      refine ⟨hflow.inOrder, ?_⟩
      intro hbroken
      -- a decision is discarded only when an overflow broke the synchronizer off
      have hsync := hj.sync_isAlive (GateActor.isAlive_of_busy hbusy) hbroken
      rw [hj.receiver, hsync] at hreceiver
      cases hreceiver

/-! ### Turns of the synchronizer -/

variable {d? : Option Decision} {b : SyncActor σ}

theorem Joined.sync (hj : Joined p) (h : SyncActor.Step L policy p.sync p.queue d? b q) :
    Joined { p with sync := b, queue := q } := by
  cases h with
  | take hidle _ =>
      have halive := SyncActor.isAlive_of_idle hidle
      exact ⟨hj.sender, hj.receiver.trans halive, fun hg _ => hj.attached hg halive,
        hj.unsignalled, nofun, nofun⟩
  | finish _ hdone =>
      rcases hdone with hsignalled | ⟨_, hsender⟩
      · rw [hj.unsignalled] at hsignalled
        cases hsignalled
      · exact ⟨hj.sender, rfl, nofun, hj.unsignalled, fun _ => rfl,
          fun _ _ => hj.sender.symm.trans hsender⟩
  | @resolve d hbusy =>
      have halive := SyncActor.isAlive_of_busy hbusy
      refine ⟨?_, ?_, fun hg _ => hj.attached hg halive, ?_, ?_, ?_⟩
      · rw [Mailbox.hasSender_keptBy, hj.sender]
      · rw [Mailbox.hasReceiver_keptBy, hj.receiver, halive, Bool.true_and]
      · rw [SyncActor.signalled_resolved, hj.unsignalled]
      · intro hgone
        dsimp only at hgone ⊢
        rw [hgone]
        rfl
      · intro r hr
        rcases SyncActor.resolved_cases L policy p.sync d with hidle | ⟨cause, hbroken⟩
        · rw [hidle] at hr
          cases hr
        · rw [hbroken] at hr
          cases hr

theorem Flows.sync {made resolved : List Decision} (hj : Joined p)
    (hflow : Flows p made resolved) (h : SyncActor.Step L policy p.sync p.queue d? b q) :
    Flows { p with sync := b, queue := q } made (resolved ++ d?.toList) := by
  cases h with
  | take hidle hitems =>
      rw [Option.toList_none, List.append_nil]
      refine ⟨hflow.inOrder, ?_⟩
      intro _
      have hbroken := SyncActor.not_isBroken_of_isAlive (SyncActor.isAlive_of_idle hidle)
      rw [← hflow.lossless hbroken, SyncActor.resolving_of_idle hidle, hitems]
      simp [SyncActor.resolving]
  | finish hidle hdone =>
      rw [Option.toList_none, List.append_nil]
      refine ⟨hflow.inOrder, ?_⟩
      intro _
      have hbroken := SyncActor.not_isBroken_of_isAlive (SyncActor.isAlive_of_idle hidle)
      rcases hdone with hsignalled | ⟨hitems, _⟩
      · rw [hj.unsignalled] at hsignalled
        cases hsignalled
      · rw [← hflow.lossless hbroken, SyncActor.resolving_of_idle hidle, hitems]
        rfl
  | @resolve d hbusy =>
      have hbroken := SyncActor.not_isBroken_of_isAlive (SyncActor.isAlive_of_busy hbusy)
      have hlossless := hflow.lossless hbroken
      rw [SyncActor.resolving_of_busy hbusy] at hlossless
      refine ⟨?_, ?_⟩
      · refine ⟨p.queue.items ++ p.gate.waiting.toList, ?_⟩
        rw [← List.append_assoc]
        exact hlossless
      · intro hunbroken
        rcases SyncActor.resolved_cases L policy p.sync d with hidle | hbroke
        · dsimp only
          rw [SyncActor.resolving_of_idle hidle, SyncActor.isAlive_of_idle hidle,
            Option.toList_none, List.append_nil]
          exact hlossless
        · exact absurd hbroke hunbroken

/-! ## Runs -/

namespace Journal

variable {j j' : Journal σ} {turn : Turn}

/-- What a turn does unless it changes nothing. -/
inductive Step (L : Loader σ) (policy : SyncPolicy) (j : Journal σ) :
    Turn → Journal σ → Prop where
  | propose {x : Proposal} {proposals : Mailbox Proposal} :
      j.pipeline.gate.proposals.offer x = (.accepted, proposals) →
      Step L policy j (.propose x)
        ⟨{ j.pipeline with gate := { j.pipeline.gate with proposals } }, j.proposed ++ [x],
          j.submitted, j.taken, j.resolved⟩
  | submit {o : Outcome} {outcomes : Mailbox Outcome} :
      j.pipeline.gate.outcomes.offer o = (.accepted, outcomes) →
      Step L policy j (.submit o)
        ⟨{ j.pipeline with gate := { j.pipeline.gate with outcomes } }, j.proposed,
          j.submitted ++ [o], j.taken, j.resolved⟩
  | leave : Step L policy j .leave
      { j with pipeline := { j.pipeline with gate := j.pipeline.gate.dropHandle } }
  | gate {a : GateActor} {q : Mailbox Decision} :
      j.pipeline.gate.step j.pipeline.queue = some (a, q) →
      Step L policy j .gate
        ⟨{ j.pipeline with gate := a, queue := q }, j.proposed, j.submitted,
          j.taken ++ j.pipeline.gate.taking.toList, j.resolved⟩
  | sync {b : SyncActor σ} {q : Mailbox Decision} :
      j.pipeline.sync.step L policy j.pipeline.queue = some (b, q) →
      Step L policy j .sync
        ⟨{ j.pipeline with sync := b, queue := q }, j.proposed, j.submitted, j.taken,
          j.resolved ++ j.pipeline.sync.resolving.toList⟩

theorem step_propose (L : Loader σ) (policy : SyncPolicy) (j : Journal σ) (x : Proposal) :
    j.step L policy (.propose x) = j
      ∨ Step L policy j (.propose x) (j.step L policy (.propose x)) := by
  rw [step]
  split
  · rcases ho : j.pipeline.gate.proposals.offer x with ⟨r, proposals⟩
    rw [Pipeline.propose, GateActor.offerProposal, ho]
    cases r with
    | accepted => exact .inr (.propose ho)
    | full => exact .inl rfl
    | closed => exact .inl rfl
  · exact .inl rfl

theorem step_submit (L : Loader σ) (policy : SyncPolicy) (j : Journal σ) (o : Outcome) :
    j.step L policy (.submit o) = j
      ∨ Step L policy j (.submit o) (j.step L policy (.submit o)) := by
  rw [step]
  split
  · rcases ho : j.pipeline.gate.outcomes.offer o with ⟨r, outcomes⟩
    rw [Pipeline.submit, GateActor.offerOutcome, ho]
    cases r with
    | accepted => exact .inr (.submit ho)
    | full => exact .inl rfl
    | closed => exact .inl rfl
  · exact .inl rfl

/-- **Every turn goes one of these ways.** -/
theorem step_cases (L : Loader σ) (policy : SyncPolicy) (j : Journal σ) (turn : Turn) :
    j.step L policy turn = j ∨ Step L policy j turn (j.step L policy turn) := by
  cases turn with
  | propose x => exact step_propose L policy j x
  | submit o => exact step_submit L policy j o
  | leave => exact .inr .leave
  | gate =>
      rw [step, stepGate]
      rcases ha : j.pipeline.gate.step j.pipeline.queue with _ | ⟨a, q⟩
      · exact .inl rfl
      · exact .inr (.gate ha)
  | sync =>
      rw [step, stepSync]
      rcases hb : j.pipeline.sync.step L policy j.pipeline.queue with _ | ⟨b, q⟩
      · exact .inl rfl
      · exact .inr (.sync hb)

/-! ### What every turn keeps -/

/-- Each actor has come to what it comes to alone, and nothing is lost between them. -/
structure Inv (L : Loader σ) (policy : SyncPolicy) (g : Gate) (s : Store) (l : σ)
    (j : Journal σ) : Prop where
  gate : j.pipeline.gate.Follows g j.taken
  inputs : j.pipeline.gate.Serves j.proposed j.submitted j.taken
  sync : j.pipeline.sync.Follows L policy s l j.resolved
  joined : Joined j.pipeline
  flows : Flows j.pipeline (g.decisions j.taken) j.resolved

variable {g : Gate} {s : Store} {l : σ}

theorem Inv.start (L : Loader σ) (policy : SyncPolicy) (c : Config) (s : Store) (l : σ)
    (alternative : Option ContactOrder) (rule : VotingRule) :
    Inv L policy (.start s.ledger alternative rule) s l
      (start (Pipeline.start c s l alternative rule)) where
  gate := .start ..
  inputs := .start ..
  sync := ⟨rfl, rfl, nofun⟩
  joined := ⟨rfl, rfl, fun _ _ => rfl, rfl, fun _ => rfl, nofun⟩
  flows := ⟨List.prefix_rfl, fun _ => rfl⟩

/-- What a client does to the mailboxes concerns nothing but the inputs. -/
theorem Inv.clients (h : Inv L policy g s l j) {proposals : Mailbox Proposal}
    {outcomes : Mailbox Outcome} {proposed : List Proposal} {submitted : List Outcome}
    (hinputs : { j.pipeline.gate with proposals, outcomes }.Serves proposed submitted j.taken) :
    Inv L policy g s l
      ⟨{ j.pipeline with gate := { j.pipeline.gate with proposals, outcomes } }, proposed,
        submitted, j.taken, j.resolved⟩ where
  gate := ⟨h.gate.gate, h.gate.casts, h.gate.published, h.gate.sound, h.gate.stopped⟩
  inputs := hinputs
  sync := h.sync
  joined := ⟨h.joined.sender, h.joined.receiver, h.joined.attached, h.joined.unsignalled,
    h.joined.drained, h.joined.ended⟩
  flows := ⟨h.flows.inOrder, h.flows.lossless⟩

theorem Inv.of_step (h : Inv L policy g s l j) (hs : Step L policy j turn j') :
    Inv L policy g s l j' := by
  obtain ⟨hproposals, houtcomes, hpopen, hoopen⟩ := h.inputs
  cases hs with
  | propose ho =>
      exact h.clients ⟨hproposals.offer ho, houtcomes,
        (Mailbox.hasReceiver_of_offer ho).trans hpopen, hoopen⟩
  | submit ho =>
      exact h.clients ⟨hproposals, houtcomes.offer ho, hpopen,
        (Mailbox.hasReceiver_of_offer ho).trans hoopen⟩
  | leave => exact h.clients ⟨hproposals.dropSender, houtcomes.dropSender, hpopen, hoopen⟩
  | gate ha =>
      have hstep := GateActor.step_cases ha
      exact ⟨h.gate.step hstep, h.inputs.step hstep, h.sync, h.joined.gate hstep,
        h.flows.gate h.joined h.gate hstep⟩
  | sync hb =>
      have hstep := SyncActor.step_cases hb
      exact ⟨h.gate, h.inputs, h.sync.step hstep, h.joined.sync hstep,
        h.flows.sync h.joined hstep⟩

theorem Inv.step (h : Inv L policy g s l j) (turn : Turn) :
    Inv L policy g s l (j.step L policy turn) := by
  rcases step_cases L policy j turn with hsame | hstep
  · rw [hsame]
    exact h
  · exact h.of_step hstep

theorem Inv.run (h : Inv L policy g s l j) (turns : List Turn) :
    Inv L policy g s l (j.run L policy turns) := by
  induction turns generalizing j with
  | nil => exact h
  | cons turn turns ih => exact ih (h.step turn)

/-! ### When the gate is gone -/

/-- A bound on the turns that the synchronizer takes if nothing comes in. -/
def ahead (j : Journal σ) : Nat := j.pipeline.sync.weight + 2 * j.pipeline.queue.items.length

theorem ahead_le (j : Journal σ) : j.ahead ≤ 2 * j.pipeline.queue.items.length + 2 := by
  have : j.pipeline.sync.weight ≤ 2 := by
    unfold SyncActor.weight
    split <;> omega
  rw [ahead]
  omega

theorem ahead_sync (h : Joined j.pipeline) (hgone : j.pipeline.gate.isAlive = false) :
    (j.step L policy .sync).ahead ≤ j.ahead - 1 := by
  rw [step, stepSync]
  rcases hb : j.pipeline.sync.step L policy j.pipeline.queue with _ | ⟨b, q⟩
  · -- it takes no step only once it is gone, and then the queue is empty
    have hsync : j.pipeline.sync.isAlive = false := by
      rw [← Bool.not_eq_true]
      intro halive
      have hsome := SyncActor.step_isSome (L := L) (p := policy) halive (h.sender.trans hgone)
      rw [hb] at hsome
      cases hsome
    have hweight := SyncActor.weight_eq_zero_iff.mpr hsync
    have hitems := h.drained hsync
    show j.ahead ≤ j.ahead - 1
    rw [ahead, hweight, hitems]
    rfl
  · have hless := SyncActor.weight_step hb
    show b.weight + 2 * q.items.length ≤ j.ahead - 1
    rw [ahead]
    omega

/-- A gate that is gone takes nothing more, and nothing comes into the queue. -/
theorem Step.of_gone (hs : Step L policy j turn j') (hgone : j.pipeline.gate.isAlive = false) :
    j'.taken = j.taken ∧ j'.pipeline.gate.isAlive = false
      ∧ (turn ≠ .sync → j'.ahead = j.ahead) := by
  cases hs with
  | propose _ => exact ⟨rfl, hgone, fun _ => rfl⟩
  | submit _ => exact ⟨rfl, hgone, fun _ => rfl⟩
  | leave => exact ⟨rfl, hgone, fun _ => rfl⟩
  | gate ha =>
      rw [GateActor.step_of_gone hgone] at ha
      cases ha
  | sync _ => exact ⟨rfl, hgone, fun hturn => absurd rfl hturn⟩

theorem step_of_gone (L : Loader σ) (policy : SyncPolicy) (h : Joined j.pipeline)
    (hgone : j.pipeline.gate.isAlive = false) (turn : Turn) :
    (j.step L policy turn).taken = j.taken
      ∧ (j.step L policy turn).pipeline.gate.isAlive = false
      ∧ (j.step L policy turn).ahead ≤ j.ahead - [turn].count .sync := by
  obtain ⟨htaken, hstays, hsame⟩ : (j.step L policy turn).taken = j.taken
      ∧ (j.step L policy turn).pipeline.gate.isAlive = false
      ∧ (turn ≠ .sync → (j.step L policy turn).ahead = j.ahead) := by
    rcases step_cases L policy j turn with hwait | hstep
    · rw [hwait]
      exact ⟨rfl, hgone, fun _ => rfl⟩
    · exact hstep.of_gone hgone
  refine ⟨htaken, hstays, ?_⟩
  by_cases hturn : turn = .sync
  · subst hturn
    exact ahead_sync h hgone
  · rw [hsame hturn, List.count_eq_zero_of_not_mem (by simpa using Ne.symm hturn)]
    exact Nat.le_refl _

theorem run_of_gone (h : Inv L policy g s l j) (hgone : j.pipeline.gate.isAlive = false)
    (turns : List Turn) :
    (j.run L policy turns).taken = j.taken
      ∧ (j.run L policy turns).pipeline.gate.isAlive = false
      ∧ (j.run L policy turns).ahead ≤ j.ahead - turns.count .sync := by
  induction turns generalizing j with
  | nil => exact ⟨rfl, hgone, Nat.le_refl _⟩
  | cons turn turns ih =>
      obtain ⟨htaken, hstays, hahead⟩ := step_of_gone L policy h.joined hgone turn
      obtain ⟨htaken', hstays', hahead'⟩ := ih (h.step turn) hstays
      refine ⟨htaken'.trans htaken, hstays', ?_⟩
      have hcount : (turn :: turns).count Turn.sync
          = [turn].count .sync + turns.count .sync := by
        rw [← List.count_append]
        rfl
      show ((j.step L policy turn).run L policy turns).ahead ≤ _
      omega

/-- A synchronizer with nothing ahead has resolved everything, unless it was broken off. -/
theorem resolved_of_ahead (h : Inv L policy g s l j) (hgone : j.pipeline.gate.isAlive = false)
    (hahead : j.ahead = 0) (hbroken : ¬ j.pipeline.sync.IsBroken) :
    j.pipeline.sync.activity = .ended (.ok ()) ∧ j.resolved = g.decisions j.taken := by
  have hweight : j.pipeline.sync.weight = 0 := by
    rw [ahead] at hahead
    omega
  have hsync := SyncActor.weight_eq_zero_iff.mp hweight
  have hlossless := h.flows.lossless hbroken
  rw [h.joined.drained hsync, GateActor.waiting_of_gone hgone] at hlossless
  cases hactivity : j.pipeline.sync.activity with
  | idle =>
      rw [SyncActor.isAlive_of_idle hactivity] at hsync
      cases hsync
  | busy d =>
      rw [SyncActor.isAlive_of_busy hactivity] at hsync
      cases hsync
  | broken cause => exact absurd ⟨cause, hactivity⟩ hbroken
  | ended r =>
      have hresolving : j.pipeline.sync.resolving = none := by rw [SyncActor.resolving, hactivity]
      rw [hresolving] at hlossless
      simp only [Option.toList_none, List.append_nil] at hlossless
      cases r with
      | ok => exact ⟨rfl, hlossless⟩
      | error e => exact e.elim

end Journal

/-! ## The pipeline and its parts one after the other -/

/-- **The pipeline does what the gate and then the synchronizer do.** Take any
capacities, store, loader, rule and alternative order, and any turns of
clients and actors. The gate actor has taken the inputs in the order in which
they were sent, and has come to what the gate comes to on them, one after the
other. The decisions resolved, being resolved, queued and waiting are exactly
the decisions of the gate, in order. Store, loader and events are those of
resolving the resolved ones one after the other. A gate that has stopped with
an error has stopped at the first input that is one, with all decisions made
before it. Once the gate is gone it takes nothing more, and enough turns of
the synchronizer, in any order with others, resolve all decisions. Only an
overflow in resolving a decision keeps later ones from being resolved; with
fewer than `2 ^ 62` peers a chain has then reached the last height. -/
theorem refines_sequential_run (L : Loader σ) (policy : SyncPolicy) (c : Config) (store : Store)
    (loader : σ) (alternative : Option ContactOrder) (rule : VotingRule) (turns : List Turn) :
    let g := Gate.start store.ledger alternative rule
    let j := (Journal.start (start c store loader alternative rule)).run L policy turns
    let p := j.pipeline
    p.gate.Serves j.proposed j.submitted j.taken
      ∧ p.gate.Follows g j.taken
      ∧ j.resolved <+: g.decisions j.taken
      ∧ (¬ p.sync.IsBroken → j.resolved ++ p.sync.resolving.toList ++ p.queue.items
          ++ p.gate.waiting.toList = g.decisions j.taken)
      ∧ p.sync.Follows L policy store loader j.resolved
      ∧ (p.sync.IsBroken → store.peers.length < 2 ^ 62 → ∃ before d, j.resolved = before ++ [d]
        ∧ 2 ^ 64 - 1 ≤ (Synchronizer.heightReached L policy
          (Synchronizer.resolveAll L policy store loader before).1
          (Synchronizer.resolveAll L policy store loader before).2 d).toNat)
      ∧ (∀ e, p.gate.activity = .ended (.error e) → ∃ before o, j.taken = before ++ [.read o]
        ∧ (∀ r ∈ g.replies before, ¬ r.IsError) ∧ (g.run before).read o = .error e
        ∧ g.decisions j.taken = g.decisions before)
      ∧ (p.gate.isAlive = false → ∀ more,
        let k := j.run L policy more
        k.taken = j.taken ∧ (2 * p.queue.items.length + 2 ≤ more.count .sync →
          k.pipeline.sync.IsBroken
            ∨ k.pipeline.sync.activity = .ended (.ok ()) ∧ k.resolved = g.decisions j.taken)) := by
  intro g j p
  have hinv : Journal.Inv L policy g store loader j :=
    (Journal.Inv.start L policy c store loader alternative rule).run turns
  refine ⟨hinv.inputs, hinv.gate, hinv.flows.inOrder, hinv.flows.lossless, hinv.sync, ?_, ?_, ?_⟩
  · rintro ⟨cause, hbroken⟩ hpeers
    obtain ⟨before, d, hresolved, hresult⟩ := hinv.sync.broken cause hbroken
    refine ⟨before, d, hresolved, ?_⟩
    refine (Synchronizer.resolve_cases L policy _ _ d).height_of_overflow hresult ?_
    rwa [Synchronizer.resolveAll, Synchronizer.peers_run]
  · intro e he
    obtain ⟨before, o, htaken, hsound, hread⟩ := hinv.gate.stopped e he
    refine ⟨before, o, htaken, hsound, hread, ?_⟩
    have hreply : ((g.run before).step (.read o)).2 = .unreadable e := by rw [Gate.step, hread]
    rw [htaken, Gate.decisions_concat, hreply]
    exact List.append_nil _
  · intro hgone more k
    obtain ⟨htaken, hstays, hahead⟩ := Journal.run_of_gone hinv hgone more
    refine ⟨htaken, ?_⟩
    intro hmore
    have hzero : k.ahead = 0 := by
      have hle : j.ahead ≤ 2 * p.queue.items.length + 2 := j.ahead_le
      have hahead : k.ahead ≤ j.ahead - more.count .sync := hahead
      omega
    by_cases hbroken : k.pipeline.sync.IsBroken
    · exact .inl hbroken
    · have hdone := Journal.resolved_of_ahead (hinv.run more) hstays hzero hbroken
      rw [htaken] at hdone
      exact .inr hdone

-- a queue with room for one decision, and an outcome without votes after two decisions
example :
    let L : Loader Unit := ⟨fun _ _ _ => ([], ())⟩
    let b : Block := ⟨1, .zero, 0, [], ⟨.replicate 32 7⟩, []⟩
    let choice : Choice := ⟨⟨.replicate 32 9⟩, b.hash⟩
    let vote : Vote := ⟨⟨⟨1, 0⟩, choice, none⟩, ⟨⟨.replicate 32 1⟩, ⟨.replicate 64 1⟩⟩⟩
    let turns : List Turn :=
      [.propose ⟨⟨1, 0⟩, ⟨[], ⟨0, .zero⟩⟩, some ⟨choice.proposal, b⟩⟩,
        .submit ⟨.commit, [vote]⟩, .submit ⟨.reject, [vote]⟩, .submit ⟨.reject, []⟩,
        .gate, .gate, .gate, .gate, .gate, .sync, .gate, .gate, .sync, .sync, .sync, .sync]
    let j := (Journal.start (start { decisionCapacity := 1 } (.ofChain [] []) () none)).run
      L ⟨.byzantine, 1⟩ turns
    j.taken.length = 4 ∧ j.resolved.map Decision.kind = ["pair_valid", "block_reject"] := by
  decide

end Pipeline

end LedgerCommit
