import LedgerCommit.Proofs.SyncRun
import LedgerCommit.Sync.SyncActor

/-!
# Runs of the synchronizer actor

The synchronizer actor resolves the decisions of its queue one at a time. Its
store, its loader and the events it has made known are those of resolving the
same decisions one after the other.
-/

namespace LedgerCommit

namespace Synchronizer

variable {σ : Type}

/-- The event of a resolved decision, if there is one. -/
def reported : Except Overflow (Option SyncEvent) → Option SyncEvent
  | .ok e => e
  | .error _ => none

/-- The store and the loader after some decisions. -/
def resolveAll (L : Loader σ) (p : SyncPolicy) (s : Store) (l : σ) (ds : List Decision) :
    Store × σ :=
  run L p s l (ds.map .resolve)

/-- The events of some decisions that are resolved one after the other. -/
def eventsOf (L : Loader σ) (p : SyncPolicy) : Store → σ → List Decision → List SyncEvent
  | _, _, [] => []
  | s, l, d :: ds =>
      (reported (resolve L p s l d).result).toList
        ++ eventsOf L p (resolve L p s l d).store (resolve L p s l d).loader ds

variable {L : Loader σ} {p : SyncPolicy}

theorem resolveAll_concat (s : Store) (l : σ) (ds : List Decision) (d : Decision) :
    resolveAll L p s l (ds ++ [d])
      = ((resolve L p (resolveAll L p s l ds).1 (resolveAll L p s l ds).2 d).store,
        (resolve L p (resolveAll L p s l ds).1 (resolveAll L p s l ds).2 d).loader) := by
  induction ds generalizing s l with
  | nil => rfl
  | cons x ds ih => exact ih ..

theorem eventsOf_concat (s : Store) (l : σ) (ds : List Decision) (d : Decision) :
    eventsOf L p s l (ds ++ [d]) = eventsOf L p s l ds ++ (reported (resolve L p
      (resolveAll L p s l ds).1 (resolveAll L p s l ds).2 d).result).toList := by
  induction ds generalizing s l with
  | nil => exact List.append_nil _
  | cons x ds ih =>
      rw [List.cons_append, eventsOf, eventsOf, ih, List.append_assoc]
      rfl

end Synchronizer

namespace SyncActor

open Synchronizer (resolveAll resolveAll_concat eventsOf eventsOf_concat reported)

variable {σ : Type} {L : Loader σ} {p : SyncPolicy} {a a' : SyncActor σ} {q q' : Mailbox Decision}

/-! ## What a step can do -/

/-- The decision that the next step resolves. -/
def resolving (a : SyncActor σ) : Option Decision :=
  match a.activity with
  | .busy d => some d
  | _ => none

/-- Whether an overflow has broken the actor off. -/
def IsBroken (a : SyncActor σ) : Prop := ∃ cause, a.activity = .broken cause

/-- The ways in which the actor can take a step, with the decision that it resolves. -/
inductive Step (L : Loader σ) (p : SyncPolicy) (a : SyncActor σ) (q : Mailbox Decision) :
    Option Decision → SyncActor σ → Mailbox Decision → Prop where
  | take {d : Decision} {rest : List Decision} : a.activity = .idle → q.items = d :: rest →
      Step L p a q none { a with activity := .busy d } { q with items := rest }
  | finish : a.activity = .idle → a.signalled = true ∨ (q.items = [] ∧ q.hasSender = false) →
      Step L p a q none { a with activity := .ended (.ok ()) } q.dropReceiver
  | resolve {d : Decision} : a.activity = .busy d →
      Step L p a q (some d) (resolved L p a d) (q.keptBy (resolved L p a d).isAlive)

theorem resolving_of_idle (h : a.activity = .idle) : a.resolving = none := by rw [resolving, h]

theorem resolving_of_busy {d : Decision} (h : a.activity = .busy d) : a.resolving = some d := by
  rw [resolving, h]

/-- **Every step goes one of these ways.** -/
theorem step_cases (h : step L p a q = some (a', q')) : Step L p a q a.resolving a' q' := by
  unfold step at h
  split at h
  · rename_i hidle
    rw [resolving_of_idle hidle]
    unfold stepIdle at h
    split at h
    · rename_i hsignalled
      cases h
      exact .finish hidle (.inl hsignalled)
    · split at h
      · rename_i hitems
        cases h
        exact .take hidle hitems
      · rename_i hitems
        split at h
        · cases h
        · rename_i hsender
          cases h
          exact .finish hidle (.inr ⟨hitems, Bool.not_eq_true _ ▸ hsender⟩)
  · rename_i d hbusy
    rw [resolving_of_busy hbusy]
    cases h
    exact .resolve hbusy
  · cases h
  · cases h

theorem isAlive_of_idle (h : a.activity = .idle) : a.isAlive = true := by
  rw [isAlive, h]
  rfl

theorem isAlive_of_busy {d : Decision} (h : a.activity = .busy d) : a.isAlive = true := by
  rw [isAlive, h]
  rfl

theorem not_isAlive_of_ended {r : Except Empty Unit} (h : a.activity = .ended r) :
    a.isAlive = false := by
  rw [isAlive, h]
  rfl

theorem not_isAlive_of_broken {cause : Overflow} (h : a.activity = .broken cause) :
    a.isAlive = false := by
  rw [isAlive, h]
  rfl

theorem not_isBroken_of_isAlive (h : a.isAlive = true) : ¬ a.IsBroken := by
  rintro ⟨cause, hbroken⟩
  rw [not_isAlive_of_broken hbroken] at h
  cases h

theorem weight_eq_zero_iff : a.weight = 0 ↔ a.isAlive = false := by
  unfold weight isAlive
  split <;> simp_all [Activity.isAlive]

/-- When nobody sends decisions any more, a living actor does not wait. -/
theorem step_isSome (halive : a.isAlive = true) (hsender : q.hasSender = false) :
    (step L p a q).isSome = true := by
  unfold step
  split
  · unfold stepIdle
    split
    · rfl
    · split
      · rfl
      · rw [hsender]
        rfl
  · rfl
  · rename_i hended
    rw [not_isAlive_of_ended hended] at halive
    cases halive
  · rename_i hbroken
    rw [not_isAlive_of_broken hbroken] at halive
    cases halive

/-! ## The synchronizer behind the actor -/

/-- What resolving a decision does to the actor, by the result. -/
theorem resolved_eq (a : SyncActor σ) (d : Decision) :
    let r := Synchronizer.resolve L p a.store a.loader d
    (resolved L p a d).store = r.store ∧ (resolved L p a d).loader = r.loader
      ∧ (resolved L p a d).events.sent = a.events.sent ++ (reported r.result).toList
      ∧ (resolved L p a d).activity = match r.result with
        | .error o => .broken o
        | .ok _ => .idle := by
  intro r
  unfold resolved
  cases h : r.result with
  | error o => simp [r, h, reported]
  | ok e => cases e <;> simp [r, h, reported, Broadcast.send]

/-- A decision that is resolved leaves the actor idle or broken off. -/
theorem resolved_cases (L : Loader σ) (p : SyncPolicy) (a : SyncActor σ) (d : Decision) :
    (resolved L p a d).activity = .idle ∨ (resolved L p a d).IsBroken := by
  obtain ⟨-, -, -, hactivity⟩ := resolved_eq (L := L) (p := p) a d
  split at hactivity
  · exact .inr ⟨_, hactivity⟩
  · exact .inl hactivity

theorem signalled_resolved (L : Loader σ) (p : SyncPolicy) (a : SyncActor σ) (d : Decision) :
    (resolved L p a d).signalled = a.signalled := by
  unfold resolved
  dsimp only
  split <;> rfl

/-- The actor has come to what resolving the decisions one after the other
comes to. If it broke off, then at the last of them. -/
structure Follows (L : Loader σ) (p : SyncPolicy) (s : Store) (l : σ) (ds : List Decision)
    (a : SyncActor σ) : Prop where
  state : (a.store, a.loader) = resolveAll L p s l ds
  events : a.events.sent = eventsOf L p s l ds
  broken : ∀ o, a.activity = .broken o → ∃ before d, ds = before ++ [d]
    ∧ (Synchronizer.resolve L p (resolveAll L p s l before).1 (resolveAll L p s l before).2
        d).result = .error o

variable {s : Store} {l : σ} {ds : List Decision} {d? : Option Decision}

theorem Follows.resolve (hf : Follows L p s l ds a) (d : Decision) :
    Follows L p s l (ds ++ [d]) (resolved L p a d) := by
  obtain ⟨hstore, hloader, hevents, hactivity⟩ := resolved_eq (L := L) (p := p) a d
  have hs : (resolveAll L p s l ds).1 = a.store := by rw [← hf.state]
  have hl : (resolveAll L p s l ds).2 = a.loader := by rw [← hf.state]
  refine ⟨?_, ?_, ?_⟩
  · rw [resolveAll_concat, hs, hl, hstore, hloader]
  · rw [hevents, hf.events, eventsOf_concat, hs, hl]
  · intro o ho
    refine ⟨ds, d, rfl, ?_⟩
    rw [hs, hl]
    rw [hactivity] at ho
    split at ho
    · rename_i hresult
      cases ho
      exact hresult
    · cases ho

theorem Follows.step (hf : Follows L p s l ds a) (h : Step L p a q d? a' q') :
    Follows L p s l (ds ++ d?.toList) a' := by
  cases h with
  | take hidle _ =>
      rw [Option.toList_none, List.append_nil]
      exact ⟨hf.state, hf.events, nofun⟩
  | finish hidle _ =>
      rw [Option.toList_none, List.append_nil]
      exact ⟨hf.state, hf.events, nofun⟩
  | resolve hbusy => exact hf.resolve _

end SyncActor

end LedgerCommit
