import LedgerCommit.Proofs.PipelineRun

/-!
# Progress and shutdown of the pipeline

The gate waits for room in the queue only while the synchronizer lives, and
then the queue holds a decision for it. So whenever an input or a decision is
left somewhere, one of the actors can take a step.

An actor that is told to stop finishes what it is at and takes nothing more.
However clients and actors take turns, the two of them take at most four more
steps, and they cannot come to rest before both are gone. The voting is then
stopped once. The one exception is a gate that an overflow has broken off: it
is gone without having stopped the voting.
-/

namespace LedgerCommit

/-! ## Mailboxes whose receiver may be gone -/

namespace Mailbox

variable {α : Type} {m : Mailbox α} {alive : Bool}

/-- The mailbox is open as long as its receiver lives, and empty after that. -/
structure HeldBy (m : Mailbox α) (alive : Bool) : Prop where
  isOpen : m.hasReceiver = alive
  emptied : alive = false → m.items = []

theorem HeldBy.empty (capacity : Nat) : (Mailbox.empty capacity : Mailbox α).HeldBy true :=
  ⟨rfl, nofun⟩

theorem HeldBy.offer (h : m.HeldBy alive) {x : α} {m' : Mailbox α}
    (ho : m.offer x = (.accepted, m')) : m'.HeldBy alive := by
  unfold Mailbox.offer at ho
  split at ho
  · cases ho
  · rename_i hreceiver
    split at ho
    · cases ho
      refine ⟨h.isOpen, ?_⟩
      intro hgone
      rw [h.isOpen, hgone] at hreceiver
      exact absurd nofun hreceiver
    · cases ho

theorem HeldBy.dropReceiver (m : Mailbox α) : m.dropReceiver.HeldBy false := ⟨rfl, fun _ => rfl⟩

/-- A living receiver takes from the mailbox, and may be gone afterwards. -/
theorem HeldBy.take (h : m.HeldBy true) (rest : List α) (alive : Bool) :
    ({ m with items := rest }.keptBy alive).HeldBy alive := by
  cases alive with
  | true => exact ⟨h.isOpen, nofun⟩
  | false => exact .dropReceiver _

theorem HeldBy.fedBy (h : m.HeldBy alive) (fed : Bool) : (m.fedBy fed).HeldBy alive :=
  ⟨by rw [hasReceiver_fedBy, h.isOpen], by rw [items_fedBy]; exact h.emptied⟩

@[simp]
theorem capacity_fedBy (m : Mailbox α) (alive : Bool) : (m.fedBy alive).capacity = m.capacity := by
  cases alive <;> rfl

@[simp]
theorem capacity_keptBy (m : Mailbox α) (alive : Bool) :
    (m.keptBy alive).capacity = m.capacity := by
  cases alive <;> rfl

end Mailbox

/-- An actor that lives is idle or busy. -/
theorem Activity.isAlive_iff {work error : Type} {x : Activity work error} :
    x.isAlive = true ↔ x = .idle ∨ ∃ w, x = .busy w := by
  cases x <;> simp [isAlive]

/-! ## The gate -/

theorem Gate.Step.propose_of_overflow {g g' : Gate} {i : Gate.Input} {o : Overflow}
    (h : Gate.Step g i g' (.overflow o)) :
    ∃ x, i = .propose x ∧ 2 ^ 64 - 1 ≤ x.ledger.height.toNat := by
  cases h with
  | overflow hlast => exact ⟨_, rfl, hlast⟩

namespace GateActor

variable {a a' : GateActor} {q q' : Mailbox Decision}

/-- Whether an overflow has broken the actor off. -/
def IsBroken (a : GateActor) : Prop := ∃ cause, a.activity = .broken cause

/-- How often the actor is to have stopped the voting: once it has ended, and
never if an overflow has broken it off. -/
def stopsDue (a : GateActor) : Nat :=
  match a.activity with
  | .ended _ => 1
  | .idle | .busy _ | .broken _ => 0

/-- A bound on the steps that are left once the actor is told to stop. -/
def lastSteps (a : GateActor) : Nat :=
  match a.activity with
  | .idle => 1
  | .busy _ => 2
  | .ended _ | .broken _ => 0

/-! ### What a step leaves alone -/

theorem frame_takeProposal (hidle : a.activity = .idle) (p : Proposal) :
    (a.takeProposal p).signalled = a.signalled
      ∧ (a.takeProposal p).stops = a.stops + (a.takeProposal p).stopsDue := by
  unfold takeProposal
  split
  · exact ⟨rfl, rfl⟩
  · exact ⟨rfl, by simp [stopsDue, hidle]⟩

theorem frame_takeOutcome (hidle : a.activity = .idle) (o : Outcome) :
    (a.takeOutcome o).signalled = a.signalled
      ∧ (a.takeOutcome o).stops = a.stops + (a.takeOutcome o).stopsDue := by
  unfold takeOutcome
  split
  · exact ⟨rfl, rfl⟩
  · exact ⟨rfl, by simp [stopsDue, hidle]⟩
  · refine ⟨rfl, ?_⟩
    cases a.attached <;> simp [publish, stopsDue]

theorem frame_stepIdle (hidle : a.activity = .idle) (h : a.stepIdle = some a') :
    a'.signalled = a.signalled ∧ a'.stops = a.stops + a'.stopsDue := by
  have hkept : ∀ proposalsDone outcomesDone,
      ({ a with proposalsDone, outcomesDone } : GateActor).stopsDue = 0 := by
    intro _ _
    simp [stopsDue, hidle]
  unfold stepIdle at h
  split at h
  · cases h
    exact ⟨rfl, rfl⟩
  · split at h
    · rename_i p rest _
      cases h
      exact frame_takeProposal (a := { a with proposals := { a.proposals with items := rest } })
        hidle p
    · split at h
      · cases h
        exact ⟨rfl, by rw [hkept true a.outcomesDone]; rfl⟩
      · unfold stepOutcome at h
        split at h
        · rename_i o rest _
          cases h
          exact frame_takeOutcome (a := { a with outcomes := { a.outcomes with items := rest } })
            hidle o
        · split at h
          · cases h
            exact ⟨rfl, by rw [hkept a.proposalsDone true]; rfl⟩
          · cases h

/-- **A step stops the voting exactly when it ends the actor**, and no step
changes whether the actor is told to stop. -/
theorem frame_step (h : a.step q = some (a', q')) :
    a'.signalled = a.signalled ∧ a'.stops = a.stops + a'.stopsDue := by
  unfold step at h
  split at h
  · rename_i hidle
    obtain ⟨b, hb, hpair⟩ := Option.map_eq_some_iff.mp h
    cases hpair
    exact frame_stepIdle hidle hb
  · unfold stepDeliver at h
    split at h
    · cases h
      exact ⟨rfl, rfl⟩
    · split at h
      · cases h
        exact ⟨rfl, rfl⟩
      · cases h
  · cases h
  · cases h

theorem isAlive_of_step (h : a.step q = some (a', q')) : a.isAlive = true := by
  rw [← Bool.not_eq_false]
  intro hgone
  rw [step_of_gone hgone] at h
  cases h

theorem eq_overflow_of_broken {attached : Bool} {r : Gate.Reply} {cause : Overflow}
    (h : activityAfter attached r = .broken cause) : r = .overflow cause := by
  cases r with
  | voted _ => cases h
  | overflow _ => cases h; rfl
  | unreadable _ => cases h
  | decided d =>
      cases d with
      | none => cases h
      | some d => cases attached <;> cases h

/-! ### Steps that are possible -/

theorem step_isSome_of_input (hidle : a.activity = .idle)
    (hinput : a.proposals.items ≠ [] ∨ a.outcomes.items ≠ []) : (a.step q).isSome = true := by
  unfold step stepIdle
  rw [hidle]
  dsimp only
  rw [Option.isSome_map]
  split
  · rfl
  · split
    · rfl
    · rename_i hproposals
      split
      · rfl
      · have houtcomes := hinput.resolve_left fun h => h hproposals
        unfold stepOutcome
        split
        · rfl
        · rename_i hnone
          exact absurd hnone houtcomes

theorem step_isSome_of_signalled (hidle : a.activity = .idle) (hsignalled : a.signalled = true) :
    (a.step q).isSome = true := by
  unfold step stepIdle
  rw [hidle]
  dsimp only
  rw [if_pos (.inr hsignalled)]
  rfl

theorem step_isSome_of_room {d : Decision} (hbusy : a.activity = .busy d)
    (hroom : q.hasReceiver = false ∨ q.hasRoom = true) : (a.step q).isSome = true := by
  unfold step stepDeliver
  rw [hbusy]
  dsimp only
  rcases hroom with hgone | hroom
  · rw [if_pos (by simp [hgone])]
    rfl
  · split
    · rfl
    · rfl

/-! ### The actor that is told to stop -/

theorem taking_of_signalled (h : a.signalled = true) : a.taking = none := by
  unfold taking
  split
  · rw [if_pos (.inr h)]
  · rfl

theorem lastSteps_step (hsignalled : a.signalled = true) (h : a.step q = some (a', q')) :
    a'.lastSteps < a.lastSteps := by
  unfold step at h
  split at h
  · rename_i hidle
    have hfinish : a.stepIdle = some (a.finish (.ok ())) := if_pos (.inr hsignalled)
    rw [hfinish] at h
    cases h
    simp [lastSteps, hidle, finish, leave]
  · rename_i hbusy
    unfold stepDeliver at h
    split at h
    · cases h
      simp [lastSteps, hbusy]
    · split at h
      · cases h
        simp [lastSteps, hbusy]
      · cases h
  · cases h
  · cases h

theorem lastSteps_le (a : GateActor) : a.lastSteps ≤ 2 := by
  unfold lastSteps
  split <;> omega

/-- An actor that is told to stop is not broken off any more. -/
theorem not_isBroken_step (hsignalled : a.signalled = true) (h : a.step q = some (a', q')) :
    ¬ a'.IsBroken := by
  have hstep := step_cases h
  rw [taking_of_signalled hsignalled] at hstep
  rintro ⟨cause, hbroken⟩
  cases hstep with
  | notice _ _ hidle => rw [hidle] at hbroken; cases hbroken
  | finish _ => cases hbroken
  | deliver _ _ => cases hbroken
  | discard _ _ => cases hbroken

/-- When the actor is gone, the voting is stopped unless the actor was broken off. -/
theorem stopsDue_of_gone (hgone : a.isAlive = false) :
    (a.IsBroken → a.stopsDue = 0) ∧ (¬ a.IsBroken → a.stopsDue = 1) := by
  cases hactivity : a.activity with
  | idle => rw [isAlive_of_idle hactivity] at hgone; cases hgone
  | busy d => rw [isAlive_of_busy hactivity] at hgone; cases hgone
  | ended r => simp [IsBroken, stopsDue, hactivity]
  | broken cause => simp [IsBroken, stopsDue, hactivity]

end GateActor

/-! ## The synchronizer -/

namespace SyncActor

variable {σ : Type} {L : Loader σ} {p : SyncPolicy} {a a' : SyncActor σ} {q q' : Mailbox Decision}

theorem frame_step (h : step L p a q = some (a', q')) : a'.signalled = a.signalled := by
  have hstep := step_cases h
  generalize a.resolving = d? at hstep
  cases hstep with
  | take _ _ => rfl
  | finish _ _ => rfl
  | resolve _ => exact signalled_resolved L p a _

theorem step_isSome_of_busy {d : Decision} (hbusy : a.activity = .busy d) :
    (step L p a q).isSome = true := by
  rw [step, hbusy]
  rfl

theorem step_isSome_of_items (hidle : a.activity = .idle) (hitems : q.items ≠ []) :
    (step L p a q).isSome = true := by
  unfold step stepIdle
  rw [hidle]
  dsimp only
  split
  · rfl
  · split
    · rfl
    · rename_i hnone
      exact absurd hnone hitems

theorem step_isSome_of_signalled (halive : a.isAlive = true) (hsignalled : a.signalled = true) :
    (step L p a q).isSome = true := by
  rcases Activity.isAlive_iff.mp halive with hidle | ⟨d, hbusy⟩
  · rw [step, hidle]
    dsimp only
    rw [stepIdle, if_pos hsignalled]
    rfl
  · exact step_isSome_of_busy hbusy

theorem resolving_of_gone (h : a.isAlive = false) : a.resolving = none := by
  unfold resolving
  split
  · rename_i hbusy
    rw [isAlive_of_busy hbusy] at h
    cases h
  · rfl

/-- An actor that is gone takes no step. -/
theorem step_of_gone (h : a.isAlive = false) : step L p a q = none := by
  unfold step
  split
  · rename_i hidle
    rw [isAlive_of_idle hidle] at h
    cases h
  · rename_i hbusy
    rw [isAlive_of_busy hbusy] at h
    cases h
  · rfl
  · rfl

theorem weight_step_of_signalled (hsignalled : a.signalled = true)
    (h : step L p a q = some (a', q')) : a'.weight < a.weight := by
  unfold step at h
  split at h
  · rename_i hidle
    have hfinish : a.stepIdle q = some ({ a with activity := .ended (.ok ()) }, q.dropReceiver) :=
      if_pos hsignalled
    rw [hfinish] at h
    cases h
    simp [weight, hidle]
  · rename_i d hbusy
    have hresolved := weight_resolved_le L p a d
    cases h
    simp only [weight, hbusy] at hresolved ⊢
    omega
  · cases h
  · cases h

end SyncActor

/-! ## The pipeline -/

namespace Pipeline

variable {σ : Type} {L : Loader σ} {policy : SyncPolicy} {p : Pipeline σ} {n : Nat}

/-- Something is queued, waits for room in the queue, or is being resolved. -/
def HasWork (p : Pipeline σ) : Prop :=
  p.gate.proposals.items ≠ [] ∨ p.gate.outcomes.items ≠ [] ∨ p.queue.items ≠ []
    ∨ p.gate.waiting ≠ none ∨ p.sync.resolving ≠ none

/-- Every mailbox is open as long as the actor lives that takes from it, and
the voting is stopped when it is due. -/
structure Orderly (n : Nat) (p : Pipeline σ) : Prop where
  proposals : p.gate.proposals.HeldBy p.gate.isAlive
  outcomes : p.gate.outcomes.HeldBy p.gate.isAlive
  queue : p.queue.HeldBy p.sync.isAlive
  capacity : p.queue.capacity = n
  stops : p.gate.stops = p.gate.stopsDue

theorem step_isSome_iff :
    (p.step L policy).isSome = true
      ↔ (p.gate.step p.queue).isSome = true ∨ (p.sync.step L policy p.queue).isSome = true := by
  unfold step stepGate stepSync
  cases p.gate.step p.queue <;> simp

/-! ### Progress -/

/-- A decision in the queue or at the synchronizer lets the synchronizer take a step. -/
theorem Orderly.sync_isSome (h : Orderly n p)
    (hwork : p.queue.items ≠ [] ∨ p.sync.resolving ≠ none) :
    (p.sync.step L policy p.queue).isSome = true := by
  by_cases halive : p.sync.isAlive = true
  · rcases Activity.isAlive_iff.mp halive with hidle | ⟨d, hbusy⟩
    · have hitems := hwork.resolve_right fun hne => hne (SyncActor.resolving_of_idle hidle)
      exact SyncActor.step_isSome_of_items hidle hitems
    · exact SyncActor.step_isSome_of_busy hbusy
  · rw [Bool.not_eq_true] at halive
    rcases hwork with hitems | hbusy
    · exact absurd (h.queue.emptied halive) hitems
    · exact absurd (SyncActor.resolving_of_gone halive) hbusy

/-- With an empty queue the gate goes on with its decision or takes the next input. -/
theorem Orderly.gate_isSome (h : Orderly n p) (hroom : 0 < n) (hqueue : p.queue.items = [])
    (hwork : p.gate.proposals.items ≠ [] ∨ p.gate.outcomes.items ≠ [] ∨ p.gate.waiting ≠ none) :
    (p.gate.step p.queue).isSome = true := by
  by_cases halive : p.gate.isAlive = true
  · rcases Activity.isAlive_iff.mp halive with hidle | ⟨d, hbusy⟩
    · refine GateActor.step_isSome_of_input hidle ?_
      rw [GateActor.waiting_of_idle hidle] at hwork
      simpa using hwork
    · refine GateActor.step_isSome_of_room hbusy (.inr ?_)
      simp [Mailbox.hasRoom, hqueue, h.capacity, hroom]
  · rw [Bool.not_eq_true] at halive
    rcases hwork with hproposals | houtcomes | hwaiting
    · exact absurd (h.proposals.emptied halive) hproposals
    · exact absurd (h.outcomes.emptied halive) houtcomes
    · exact absurd (GateActor.waiting_of_gone halive) hwaiting

/-- **Where there is work some actor can take a step.** A full queue keeps the
gate waiting, and has a decision for the synchronizer. -/
theorem Orderly.step_isSome (h : Orderly n p) (hroom : 0 < n) (hwork : p.HasWork) :
    (p.step L policy).isSome = true := by
  rw [step_isSome_iff]
  by_cases hqueue : p.queue.items = []
  · rcases hwork with hproposals | houtcomes | hitems | hwaiting | hresolving
    · exact .inl (h.gate_isSome hroom hqueue (.inl hproposals))
    · exact .inl (h.gate_isSome hroom hqueue (.inr (.inl houtcomes)))
    · exact absurd hqueue hitems
    · exact .inl (h.gate_isSome hroom hqueue (.inr (.inr hwaiting)))
    · exact .inr (h.sync_isSome (.inr hresolving))
  · exact .inr (h.sync_isSome (.inl hqueue))

/-! ### Shutdown -/

/-- Both actors are told to stop. -/
structure Signalled (p : Pipeline σ) : Prop where
  gate : p.gate.signalled = true
  sync : p.sync.signalled = true

/-- A bound on the steps that are left once both actors are told to stop. -/
def lastSteps (p : Pipeline σ) : Nat := p.gate.lastSteps + p.sync.weight

theorem lastSteps_le (p : Pipeline σ) : p.lastSteps ≤ 4 := by
  have hgate := p.gate.lastSteps_le
  have hsync : p.sync.weight ≤ 2 := by
    unfold SyncActor.weight
    split <;> omega
  rw [lastSteps]
  omega

/-- Actors that are told to stop do not rest before both are gone: the gate
waits for nobody but a synchronizer that lives. -/
theorem Orderly.step_eq_none_iff (L : Loader σ) (policy : SyncPolicy) (h : Orderly n p)
    (hs : Signalled p) : p.step L policy = none ↔ p.isOver = true := by
  rw [← Option.not_isSome_iff_eq_none, step_isSome_iff, isOver, Bool.and_eq_true, Bool.not_eq_true',
    Bool.not_eq_true']
  constructor
  · intro hnone
    obtain ⟨hgate, hsync⟩ := not_or.mp hnone
    have hgone : p.sync.isAlive = false := by
      rw [← Bool.not_eq_true]
      exact fun halive => hsync (SyncActor.step_isSome_of_signalled halive hs.sync)
    refine ⟨?_, hgone⟩
    rw [← Bool.not_eq_true]
    intro halive
    rcases Activity.isAlive_iff.mp halive with hidle | ⟨d, hbusy⟩
    · exact hgate (GateActor.step_isSome_of_signalled hidle hs.gate)
    · exact hgate (GateActor.step_isSome_of_room hbusy (.inl (h.queue.isOpen.trans hgone)))
  · rintro ⟨hgate, hsync⟩
    rw [GateActor.step_of_gone hgate, SyncActor.step_of_gone hsync]
    simp

/-! ### What the turns keep -/

theorem Orderly.gate {a : GateActor} {q : Mailbox Decision} (h : Orderly n p)
    (ha : p.gate.step p.queue = some (a, q)) : Orderly n { p with gate := a, queue := q } := by
  have halive := GateActor.isAlive_of_step ha
  obtain ⟨-, hstops⟩ := GateActor.frame_step ha
  have hbefore : p.gate.stops = 0 := by
    rw [h.stops, GateActor.stopsDue]
    rcases Activity.isAlive_iff.mp halive with hidle | ⟨d, hbusy⟩
    · rw [hidle]
    · rw [hbusy]
  rw [hbefore, Nat.zero_add] at hstops
  have hproposals := halive ▸ h.proposals
  have houtcomes := halive ▸ h.outcomes
  have hstep := GateActor.step_cases ha
  generalize p.gate.taking = i? at hstep
  cases hstep with
  | take _ ht =>
      obtain ⟨ps, -, hps⟩ := ht.proposals
      obtain ⟨os, -, hos⟩ := ht.outcomes
      refine ⟨?_, ?_, h.queue.fedBy _, ?_, hstops⟩
      · dsimp only
        rw [hps]
        exact hproposals.take ps _
      · dsimp only
        rw [hos]
        exact houtcomes.take os _
      · rw [Mailbox.capacity_fedBy, h.capacity]
  | notice _ _ _ => exact ⟨h.proposals, h.outcomes, h.queue, h.capacity, hstops⟩
  | finish _ =>
      exact ⟨.dropReceiver _, .dropReceiver _, h.queue.fedBy false, h.capacity, hstops⟩
  | deliver _ hreceiver =>
      refine ⟨hproposals, houtcomes, ⟨h.queue.isOpen, ?_⟩, h.capacity, hstops⟩
      intro hgone
      rw [h.queue.isOpen, hgone] at hreceiver
      cases hreceiver
  | discard _ _ => exact ⟨hproposals, houtcomes, h.queue, h.capacity, hstops⟩

theorem Orderly.sync {b : SyncActor σ} {q : Mailbox Decision} (h : Orderly n p)
    (hb : p.sync.step L policy p.queue = some (b, q)) :
    Orderly n { p with sync := b, queue := q } := by
  have hstep := SyncActor.step_cases hb
  generalize p.sync.resolving = d? at hstep
  cases hstep with
  | take hidle _ =>
      have hqueue := SyncActor.isAlive_of_idle hidle ▸ h.queue
      exact ⟨h.proposals, h.outcomes, hqueue.take _ true, h.capacity, h.stops⟩
  | finish _ _ => exact ⟨h.proposals, h.outcomes, .dropReceiver _, h.capacity, h.stops⟩
  | resolve hbusy =>
      have hqueue := SyncActor.isAlive_of_busy hbusy ▸ h.queue
      refine ⟨h.proposals, h.outcomes, hqueue.take p.queue.items _, ?_, h.stops⟩
      rw [Mailbox.capacity_keptBy, h.capacity]

/-- Telling the actors to stop moves nothing. -/
theorem Orderly.signal (h : Orderly n p) : Orderly n p.signal :=
  ⟨h.proposals, h.outcomes, h.queue, h.capacity, h.stops⟩

theorem signalled_signal (p : Pipeline σ) : Signalled p.signal := ⟨rfl, rfl⟩

namespace Journal

variable {j j' : Journal σ} {turn : Turn}

/-- Both actors are told to stop; what has gone through the pipeline stays. -/
def signal (j : Journal σ) : Journal σ := { j with pipeline := j.pipeline.signal }

/-- Whether an actor takes a step in its turn. -/
def moves (L : Loader σ) (policy : SyncPolicy) (j : Journal σ) : Turn → Bool
  | .gate => (j.pipeline.gate.step j.pipeline.queue).isSome
  | .sync => (j.pipeline.sync.step L policy j.pipeline.queue).isSome
  | .propose _ | .submit _ | .leave => false

/-- How many steps the actors take in some turns. -/
def steps (L : Loader σ) (policy : SyncPolicy) : Journal σ → List Turn → Nat
  | _, [] => 0
  | j, turn :: turns => (j.moves L policy turn).toNat + steps L policy (j.step L policy turn) turns

theorem orderly_start (c : Config) (s : Store) (l : σ) (alternative : Option ContactOrder)
    (rule : VotingRule) :
    Orderly c.decisionCapacity.toNat (Pipeline.start c s l alternative rule) :=
  ⟨.empty _, .empty _, .empty _, rfl, rfl⟩

theorem Step.orderly (hs : Step L policy j turn j') (h : Orderly n j.pipeline) :
    Orderly n j'.pipeline := by
  cases hs with
  | propose ho => exact ⟨h.proposals.offer ho, h.outcomes, h.queue, h.capacity, h.stops⟩
  | submit ho => exact ⟨h.proposals, h.outcomes.offer ho, h.queue, h.capacity, h.stops⟩
  | leave =>
      exact ⟨⟨h.proposals.isOpen, h.proposals.emptied⟩, ⟨h.outcomes.isOpen, h.outcomes.emptied⟩,
        h.queue, h.capacity, h.stops⟩
  | gate ha => exact h.gate ha
  | sync hb => exact h.sync hb

theorem orderly_run (h : Orderly n j.pipeline) (turns : List Turn) :
    Orderly n (j.run L policy turns).pipeline := by
  induction turns generalizing j with
  | nil => exact h
  | cons turn turns ih =>
      rcases step_cases L policy j turn with hsame | hstep
      · exact ih (hsame.symm ▸ h)
      · exact ih (hstep.orderly h)

/-! ### Turns after the signal -/

theorem Step.signalled (hs : Step L policy j turn j') (h : Signalled j.pipeline) :
    Signalled j'.pipeline := by
  cases hs with
  | propose _ => exact ⟨h.gate, h.sync⟩
  | submit _ => exact ⟨h.gate, h.sync⟩
  | leave => exact ⟨h.gate, h.sync⟩
  | gate ha => exact ⟨(GateActor.frame_step ha).1.trans h.gate, h.sync⟩
  | sync hb => exact ⟨h.gate, (SyncActor.frame_step hb).trans h.sync⟩

/-- A step uses up one of the last steps, and other turns use up none. -/
theorem Step.lastSteps (hs : Step L policy j turn j') (h : Signalled j.pipeline) :
    (j.moves L policy turn).toNat + j'.pipeline.lastSteps ≤ j.pipeline.lastSteps := by
  cases hs with
  | propose _ => exact Nat.le_of_eq (Nat.zero_add _)
  | submit _ => exact Nat.le_of_eq (Nat.zero_add _)
  | leave => exact Nat.le_of_eq (Nat.zero_add _)
  | gate ha =>
      have hless := GateActor.lastSteps_step h.gate ha
      rw [moves, ha]
      simp only [Pipeline.lastSteps, Option.isSome_some, Bool.toNat_true]
      omega
  | sync hb =>
      have hless := SyncActor.weight_step_of_signalled h.sync hb
      rw [moves, hb]
      simp only [Pipeline.lastSteps, Option.isSome_some, Bool.toNat_true]
      omega

/-- A gate that is told to stop is not broken off any more, and one that was stays so. -/
theorem Step.isBroken_iff (hs : Step L policy j turn j') (h : Signalled j.pipeline) :
    j'.pipeline.gate.IsBroken ↔ j.pipeline.gate.IsBroken := by
  cases hs with
  | propose _ => exact Iff.rfl
  | submit _ => exact Iff.rfl
  | leave => exact Iff.rfl
  | sync _ => exact Iff.rfl
  | gate ha =>
      refine iff_of_false (GateActor.not_isBroken_step h.gate ha) ?_
      rintro ⟨cause, hbroken⟩
      have halive := GateActor.isAlive_of_step ha
      rw [GateActor.isAlive, hbroken] at halive
      cases halive

/-- A turn that changes nothing is no step. -/
theorem step_or_rest (L : Loader σ) (policy : SyncPolicy) (j : Journal σ) (turn : Turn) :
    j.step L policy turn = j ∧ j.moves L policy turn = false
      ∨ Step L policy j turn (j.step L policy turn) := by
  cases turn with
  | propose x => exact (step_propose L policy j x).imp (fun h => ⟨h, rfl⟩) id
  | submit o => exact (step_submit L policy j o).imp (fun h => ⟨h, rfl⟩) id
  | leave => exact .inr .leave
  | gate =>
      rw [step, stepGate, moves]
      rcases ha : j.pipeline.gate.step j.pipeline.queue with _ | ⟨a, q⟩
      · exact .inl ⟨rfl, rfl⟩
      · exact .inr (.gate ha)
  | sync =>
      rw [step, stepSync, moves]
      rcases hb : j.pipeline.sync.step L policy j.pipeline.queue with _ | ⟨b, q⟩
      · exact .inl ⟨rfl, rfl⟩
      · exact .inr (.sync hb)

/-- **However the turns go on after the signal**, the actors take no more than
the last steps, and no gate is broken off. -/
theorem run_of_signalled (L : Loader σ) (policy : SyncPolicy) (h : Signalled j.pipeline)
    (turns : List Turn) :
    Signalled (j.run L policy turns).pipeline
      ∧ j.steps L policy turns + (j.run L policy turns).pipeline.lastSteps ≤ j.pipeline.lastSteps
      ∧ ((j.run L policy turns).pipeline.gate.IsBroken ↔ j.pipeline.gate.IsBroken) := by
  induction turns generalizing j with
  | nil => exact ⟨h, Nat.le_of_eq (Nat.zero_add _), Iff.rfl⟩
  | cons turn turns ih =>
      show Signalled ((j.step L policy turn).run L policy turns).pipeline
        ∧ (j.moves L policy turn).toNat + (j.step L policy turn).steps L policy turns
            + ((j.step L policy turn).run L policy turns).pipeline.lastSteps
          ≤ j.pipeline.lastSteps
        ∧ (((j.step L policy turn).run L policy turns).pipeline.gate.IsBroken
            ↔ j.pipeline.gate.IsBroken)
      rcases step_or_rest L policy j turn with ⟨hsame, hrest⟩ | hstep
      · rw [hsame, hrest, Bool.toNat_false, Nat.zero_add]
        exact ih h
      · obtain ⟨hsignalled, hsteps, hbroken⟩ := ih (hstep.signalled h)
        have hless := hstep.lastSteps h
        exact ⟨hsignalled, by omega, hbroken.trans (hstep.isBroken_iff h)⟩

/-! ### Gates that are broken off -/

/-- Only a proposal on a ledger at the last height breaks the gate off. -/
def BrokenAtLastHeight (j : Journal σ) : Prop :=
  j.pipeline.gate.IsBroken → ∃ before x, j.taken = before ++ [.propose x]
    ∧ 2 ^ 64 - 1 ≤ x.ledger.height.toNat

theorem Step.brokenAtLastHeight (hs : Step L policy j turn j') (h : j.BrokenAtLastHeight) :
    j'.BrokenAtLastHeight := by
  cases hs with
  | propose _ => exact h
  | submit _ => exact h
  | leave => exact h
  | sync _ => exact h
  | gate ha =>
      rintro ⟨cause, hbroken⟩
      have hstep := GateActor.step_cases ha
      generalize j.pipeline.gate.taking = i? at hstep
      cases hstep with
      | @take i _ hidle ht =>
          have hreply := GateActor.eq_overflow_of_broken (hbroken ▸ ht.activity).symm
          have hgate := Gate.step_cases j.pipeline.gate.gate i
          rw [hreply] at hgate
          obtain ⟨x, rfl, hlast⟩ := hgate.propose_of_overflow
          exact ⟨j.taken, x, rfl, hlast⟩
      | notice _ _ hidle => rw [hidle] at hbroken; cases hbroken
      | finish _ => cases hbroken
      | deliver _ _ => cases hbroken
      | discard _ _ => cases hbroken

theorem brokenAtLastHeight_run (h : j.BrokenAtLastHeight) (turns : List Turn) :
    (j.run L policy turns).BrokenAtLastHeight := by
  induction turns generalizing j with
  | nil => exact h
  | cons turn turns ih =>
      rcases step_cases L policy j turn with hsame | hstep
      · exact ih (hsame.symm ▸ h)
      · exact ih (hstep.brokenAtLastHeight h)

end Journal

/-! ## Runs to the end -/

theorem settle_of_none (h : p.step L policy = none) : p.settle L policy = p := by
  rw [settle]
  split
  · rfl
  · rename_i hsome
    rw [h] at hsome
    cases hsome

theorem settle_of_some {p' : Pipeline σ} (h : p.step L policy = some p') :
    p.settle L policy = p'.settle L policy := by
  rw [settle]
  split
  · rename_i hnone
    rw [h] at hnone
    cases hnone
  · rename_i q hq
    rw [h] at hq
    cases hq
    rfl

/-- Actors that are let come to rest can take no step any more. -/
theorem step_settle (p : Pipeline σ) : (p.settle L policy).step L policy = none := by
  induction p using settle.induct L policy with
  | case1 p hnone => rw [settle_of_none hnone, hnone]
  | case2 p p' hsome ih => rw [settle_of_some hsome, ih]

theorem Journal.exists_turn_of_step {j : Journal σ} {p' : Pipeline σ}
    (h : j.pipeline.step L policy = some p') :
    ∃ turn, (j.step L policy turn).pipeline = p' := by
  rw [Pipeline.step] at h
  cases hgate : j.pipeline.stepGate with
  | some q =>
      rw [hgate] at h
      cases h
      exact ⟨.gate, by rw [Journal.step, hgate]⟩
  | none =>
      rw [hgate] at h
      have hsync : j.pipeline.stepSync L policy = some p' := h
      exact ⟨.sync, by rw [Journal.step, hsync]⟩

/-- Letting the actors come to rest is one of the ways in which they can take turns. -/
theorem Journal.exists_turns_settle (L : Loader σ) (policy : SyncPolicy) (j : Journal σ) :
    ∃ turns, (j.run L policy turns).pipeline = j.pipeline.settle L policy := by
  generalize hp : j.pipeline = p
  induction p using settle.induct L policy generalizing j with
  | case1 p hnone => exact ⟨[], by rw [settle_of_none hnone]; exact hp⟩
  | case2 p p' hsome ih =>
      obtain ⟨turn, hturn⟩ := exists_turn_of_step (hp.symm ▸ hsome)
      obtain ⟨turns, hturns⟩ := ih _ hturn
      exact ⟨turn :: turns, by rw [settle_of_some hsome]; exact hturns⟩

/-- What is left of a pipeline whose actors are gone: the voting has been
stopped once, unless the gate had been broken off. -/
structure Finished (p : Pipeline σ) (broken : Prop) : Prop where
  isOver : p.isOver = true
  stopped : ¬ broken → p.gate.stops = 1
  unstopped : broken → p.gate.stops = 0

theorem Orderly.finished {broken : Prop} (h : Orderly n p) (hover : p.isOver = true)
    (hbroken : p.gate.IsBroken ↔ broken) : Finished p broken := by
  have hgone : p.gate.isAlive = false := by
    rw [isOver, Bool.and_eq_true, Bool.not_eq_true'] at hover
    exact hover.1
  obtain ⟨hnever, honce⟩ := GateActor.stopsDue_of_gone hgone
  refine ⟨hover, ?_, ?_⟩
  · intro hsound
    rw [h.stops, honce fun hb => hsound (hbroken.mp hb)]
  · intro hb
    rw [h.stops, hnever (hbroken.mpr hb)]

/-- However the turns go on after the signal, the actors come to rest finished. -/
theorem Journal.finished_of_signal (L : Loader σ) (policy : SyncPolicy) {j : Journal σ}
    (h : Orderly n j.pipeline) (more : List Turn) :
    let k := j.signal.run L policy more
    j.signal.steps L policy more ≤ 4
      ∧ (k.pipeline.step L policy = none ↔ k.pipeline.isOver = true)
      ∧ (k.pipeline.step L policy = none → Finished k.pipeline j.pipeline.gate.IsBroken) := by
  intro k
  obtain ⟨hsignalled, hsteps, hbroken⟩ :=
    run_of_signalled L policy (j := j.signal) (signalled_signal j.pipeline) more
  have hk : Orderly n k.pipeline := orderly_run h.signal more
  have hrest := hk.step_eq_none_iff L policy hsignalled
  refine ⟨?_, hrest, fun hnone => hk.finished (hrest.mp hnone) hbroken⟩
  have := j.signal.pipeline.lastSteps_le
  omega

/-- **The pipeline does not get stuck, and stops in at most four steps.** Take
any configuration whose decision queue has room for one, any store, loader,
rule and alternative order, and any turns of clients and actors. As long as an
input or a decision is queued, waits or is being resolved, some actor can take
a step. Once both actors are told to stop, however clients and actors go on,
the actors take at most four steps, and they come to rest exactly when both
are gone, even if the gate was waiting for room in the queue. The voting has
then been stopped exactly once, unless the gate was broken off before: then it
is never stopped. Only a proposal on a ledger at the last height breaks the
gate off. Stopping the pipeline is one of the ways to go on. -/
theorem progress_and_shutdown (L : Loader σ) (policy : SyncPolicy) (c : Config) (store : Store)
    (loader : σ) (alternative : Option ContactOrder) (rule : VotingRule)
    (hroom : 0 < c.decisionCapacity.toNat) (turns : List Turn) :
    let j := (Journal.start (start c store loader alternative rule)).run L policy turns
    let p := j.pipeline
    (p.HasWork → (p.step L policy).isSome = true)
      ∧ (∀ more,
        let k := j.signal.run L policy more
        j.signal.steps L policy more ≤ 4
          ∧ (k.pipeline.step L policy = none ↔ k.pipeline.isOver = true)
          ∧ (k.pipeline.step L policy = none → Finished k.pipeline p.gate.IsBroken))
      ∧ Finished (p.stop L policy).2 p.gate.IsBroken
      ∧ (p.gate.IsBroken → ∃ before x, j.taken = before ++ [.propose x]
          ∧ 2 ^ 64 - 1 ≤ x.ledger.height.toNat) := by
  intro j p
  have horderly : Orderly c.decisionCapacity.toNat p :=
    Journal.orderly_run (Journal.orderly_start c store loader alternative rule) turns
  refine ⟨horderly.step_isSome hroom, Journal.finished_of_signal L policy horderly, ?_, ?_⟩
  · obtain ⟨more, hmore⟩ := Journal.exists_turns_settle L policy j.signal
    obtain ⟨-, -, hfinished⟩ := Journal.finished_of_signal L policy horderly more
    rw [hmore] at hfinished
    exact hfinished (step_settle _)
  · exact Journal.brokenAtLastHeight_run (j := .start _) (by rintro ⟨_, ⟨⟩⟩) turns

/-- A gate that waits with a decision for room in the queue is told to stop. -/
theorem waiting_gate_is_stopped_once :
    let L : Loader Unit := ⟨fun _ _ _ => ([], ())⟩
    let policy : SyncPolicy := ⟨.byzantine, 1⟩
    let vote : Vote :=
      ⟨⟨⟨1, 0⟩, ⟨⟨.replicate 32 9⟩, .zero⟩, none⟩, ⟨⟨.replicate 32 1⟩, ⟨.replicate 64 1⟩⟩⟩
    let turns : List Turn :=
      [.submit ⟨.reject, [vote]⟩, .submit ⟨.reject, [vote]⟩, .gate, .gate, .gate]
    let p := ((Journal.start (start { decisionCapacity := 1 } (.ofChain [] []) () none)).run
      L policy turns).pipeline
    p.gate.waiting ≠ none ∧ p.queue.hasRoom = false ∧ (p.step L policy).isSome = true
      ∧ (p.stop L policy).2.isOver = true ∧ (p.stop L policy).2.gate.stops = 1 := by
  intro L policy vote turns p
  have hwaiting : p.gate.waiting ≠ none := by decide
  have hsound : ¬ p.gate.IsBroken := by
    rintro ⟨cause, hbroken⟩
    exact hwaiting (by rw [GateActor.waiting, hbroken])
  obtain ⟨hprogress, -, hfinished, -⟩ := progress_and_shutdown L policy { decisionCapacity := 1 }
    (.ofChain [] []) () none .usual (by decide) turns
  exact ⟨hwaiting, by decide, hprogress (.inr (.inr (.inr (.inl hwaiting)))), hfinished.isOver,
    hfinished.stopped hsound⟩

/-- A proposal on a ledger at the last height breaks the gate off. Told to
stop, both actors are gone without the voting having been stopped. -/
theorem broken_gate_is_never_stopped :
    let L : Loader Unit := ⟨fun _ _ _ => ([], ())⟩
    let policy : SyncPolicy := ⟨.byzantine, 1⟩
    let x : Proposal := ⟨⟨1, 0⟩, ⟨[], ⟨18446744073709551615, .zero⟩⟩, none⟩
    let j := (Journal.start (start { decisionCapacity := 1 } (.ofChain [] []) () none)).run
      L policy [.propose x, .gate]
    let k := (j.signal.run L policy [.sync]).pipeline
    k.isOver = true ∧ k.gate.stops = 0 := by
  decide

end Pipeline

end LedgerCommit
