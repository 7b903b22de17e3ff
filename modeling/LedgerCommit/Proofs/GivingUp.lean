import LedgerCommit.Proofs.ForkAccountability
import LedgerCommit.Proofs.SyncEvents

/-!
# Giving up

A download that finds no chain reports the height at which its transaction
stopped. This height may be at the target or above it: an answer that reaches
the target is not taken for a success when it goes on with a block that is
refused. What decides is the last exchange alone. When it ends with a refused
block the attempt is given up, whatever height is reached by then; when the
attempt is given up for any other reason the target was missed.
-/

namespace LedgerCommit

namespace Validation

/-- The block is not taken into the transaction: it fails the check, or the
store does not apply it. -/
def Refused (m : FaultModel) (tx : Transaction) (b : Block) : Prop :=
  (∃ e, check m b tx.ledger = .error (.failed e))
    ∨ check m b tx.ledger = .ok () ∧ ∃ e, tx.apply b = .error (.failed e)

/-- A chain that is not taken to its end is taken up to a block that is refused. -/
theorem refused_of_absorb {m : FaultModel} {tx tx' : Transaction} {bs : List Block}
    (h : absorb m tx bs = .ok (false, tx')) :
    ∃ taken b rest, bs = taken ++ b :: rest ∧ tx' = tx.grow taken ∧ Refused m tx' b := by
  induction bs generalizing tx with
  | nil => cases h
  | cons b rest ih =>
      rw [absorb] at h
      split at h
      · cases h
      · rename_i e hcheck
        cases h
        exact ⟨[], b, rest, rfl, by simp, .inl ⟨e, hcheck⟩⟩
      · rename_i hcheck
        split at h
        · cases h
        · rename_i e happly
          cases h
          exact ⟨[], b, rest, rfl, by simp, .inr ⟨hcheck, e, happly⟩⟩
        · rename_i next hnext
          obtain rfl := Transaction.eq_grow_of_apply hnext
          obtain ⟨taken, c, more, rfl, rfl, hrefused⟩ := ih h
          exact ⟨b :: taken, c, more, rfl, by simp, hrefused⟩

/-- A block that is not the next one in height fails the check. -/
theorem check_of_height_ne {m : FaultModel} {b : Block} {l : Ledger} {next : UInt64}
    (hnext : checkedAdd l.height 1 = .ok next) (h : b.height ≠ next) :
    check m b l = .error (.failed (.unexpectedHeight l.height b.height)) := by
  have hcontents : checkContents b l next = .error (.unexpectedHeight l.height b.height) := by
    rw [checkContents, if_pos h]
  simp only [check, hnext, hcontents, Except.mapError, bind, Except.bind]

end Validation

namespace Synchronizer

variable {σ : Type} {L : Loader σ} {m : FaultModel} {p : SyncPolicy} {target : UInt64}
  {peer : PublicKey} {peers : List PublicKey} {tx tx' : Transaction} {l l' : σ}
  {log log' : List Exchange} {r : Except Overflow (Bool × Transaction)}

/-! ## Exchanges that end with a refused block -/

/-- The last answer is taken up to a block that is refused, which leaves `tx'`. -/
def EndsRefused (m : FaultModel) (tx : Transaction) (log : List Exchange) (tx' : Transaction) :
    Prop :=
  ∃ before e, log = before ++ [e]
    ∧ Validation.absorb m (follow m tx before) e.answer = .ok (false, tx')

theorem not_endsRefused_nil : ¬ EndsRefused m tx [] tx' := by
  rintro ⟨before, e, hlog, -⟩
  exact List.append_ne_nil_of_right_ne_nil before (List.cons_ne_nil e []) hlog.symm

theorem endsRefused_singleton {e : Exchange} :
    EndsRefused m tx [e] tx' ↔ Validation.absorb m tx e.answer = .ok (false, tx') := by
  constructor
  · rintro ⟨before, x, hlog, habsorb⟩
    obtain ⟨rfl, rfl⟩ : before = [] ∧ x = e := by
      simpa using (List.append_eq_singleton_iff.mp hlog.symm)
    exact habsorb
  · intro h
    exact ⟨[], e, rfl, h⟩

/-- Only the exchanges at the end count, on top of where the others lead. -/
theorem endsRefused_append (hne : log' ≠ []) :
    EndsRefused m tx (log ++ log') tx' ↔ EndsRefused m (follow m tx log) log' tx' := by
  obtain ⟨front, last, rfl⟩ := (List.eq_nil_or_concat' log').resolve_left hne
  have hfollow := follow_append m tx log front
  constructor
  · rintro ⟨before, e, hlog, habsorb⟩
    rw [← List.append_assoc] at hlog
    obtain ⟨rfl, hlast⟩ := List.append_inj' hlog rfl
    obtain rfl := List.singleton_inj.mp hlast
    exact ⟨front, last, rfl, by rwa [← hfollow]⟩
  · rintro ⟨before, e, hlog, habsorb⟩
    obtain ⟨rfl, hlast⟩ := List.append_inj' hlog rfl
    obtain rfl := List.singleton_inj.mp hlast
    exact ⟨log ++ front, last, by rw [List.append_assoc], by rwa [hfollow]⟩

/-- An answer that is taken to its end leaves it to those after it. -/
theorem endsRefused_cons {e : Exchange} {next : Transaction}
    (h : Validation.absorb m tx e.answer = .ok (true, next)) :
    EndsRefused m tx (e :: log) tx' ↔ EndsRefused m next log tx' := by
  rcases eq_or_ne log [] with rfl | hne
  · rw [endsRefused_singleton, h, iff_false_right not_endsRefused_nil]
    nofun
  · rw [← List.singleton_append, endsRefused_append hne, follow_cons_of_absorb h]
    rfl

/-! ## One peer -/

/-- A conversation leaves the transaction where its exchanges lead. -/
theorem Conversation.follow_eq {n : Nat} {done : Bool}
    (h : Conversation L m target peer n tx l log r l') (hr : r = .ok (done, tx')) :
    follow m tx log = tx' := by
  induction h with
  | spent => cases hr; rfl
  | overflow => cases hr
  | reached _ habsorb _ => cases hr; exact Validation.furthest_of_absorb habsorb
  | stopped _ habsorb _ => cases hr; exact Validation.furthest_of_absorb habsorb
  | again _ habsorb _ _ _ ih =>
      rw [follow_cons_of_absorb habsorb]
      exact ih hr

/-- A peer is left at the target or above it only after a refused block, or
when it was not asked at all. -/
theorem Conversation.endsRefused {n : Nat} (h : Conversation L m target peer n tx l log r l')
    (hr : r = .ok (false, tx')) :
    log = [] ∧ tx' = tx ∨ ¬ target ≤ tx'.ledger.height ∨ EndsRefused m tx log tx' := by
  induction h with
  | spent => cases hr; exact .inl ⟨rfl, rfl⟩
  | overflow => cases hr
  | reached => cases hr
  | again _ habsorb hbelow _ _ ih =>
      rw [endsRefused_cons habsorb]
      rcases ih hr with ⟨-, rfl⟩ | hend
      · exact .inr (.inl hbelow)
      · exact .inr hend
  | @stopped n tx tx₁ l l₁ blocks valid _ habsorb hstop =>
      cases hr
      cases valid with
      | true => exact .inr (.inl (hstop rfl).1)
      | false => exact .inr (.inr (endsRefused_singleton.mpr habsorb))

/-- After a refused block the peer is left. -/
theorem Conversation.eq_of_endsRefused {n : Nat} (h : Conversation L m target peer n tx l log r l')
    (hend : EndsRefused m tx log tx') : r = .ok (false, tx') := by
  induction h with
  | spent => exact (not_endsRefused_nil hend).elim
  | overflow _ habsorb =>
      rw [endsRefused_singleton, habsorb] at hend
      cases hend
  | reached _ habsorb _ =>
      rw [endsRefused_singleton, habsorb] at hend
      cases hend
  | again _ habsorb _ _ _ ih => exact ih ((endsRefused_cons habsorb).mp hend)
  | stopped _ habsorb _ =>
      rw [endsRefused_singleton, habsorb] at hend
      cases hend
      rfl

theorem Conversation.eq_of_nil {n : Nat} (h : Conversation L m target peer n tx l [] r l') :
    r = .ok (false, tx) := by
  cases h
  rfl

/-! ## A list of peers -/

/-- The peers are given up at the target or above it only after a refused
block, or when none was asked at all. -/
theorem Attempt.endsRefused (h : Attempt L p target peers tx l log r l')
    (hr : r = .ok (false, tx')) :
    log = [] ∧ tx' = tx ∨ ¬ target ≤ tx'.ledger.height ∨ EndsRefused p.model tx log tx' := by
  induction h with
  | exhausted => cases hr; exact .inl ⟨rfl, rfl⟩
  | @next _ _ _ _ _ _ _ log log' _ hpeer _ ih =>
      rcases ih hr with ⟨rfl, rfl⟩ | hbelow | hend
      · rw [List.append_nil]
        exact hpeer.endsRefused rfl
      · exact .inr (.inl hbelow)
      · have hne : log' ≠ [] := by
          rintro rfl
          exact not_endsRefused_nil hend
        rw [endsRefused_append hne, hpeer.follow_eq rfl]
        exact .inr (.inr hend)
  | reached => cases hr
  | overflow => cases hr

/-- Without exchanges the peers are given up where the transaction stood. -/
theorem Attempt.eq_of_nil (h : Attempt L p target peers tx l log r l') (hlog : log = []) :
    r = .ok (false, tx) := by
  induction h with
  | exhausted => rfl
  | next hpeer _ ih =>
      obtain ⟨rfl, rfl⟩ := List.append_eq_nil_iff.mp hlog
      cases hpeer.eq_of_nil
      exact ih rfl
  | reached hpeer => subst hlog; exact hpeer.eq_of_nil
  | overflow hpeer => subst hlog; exact hpeer.eq_of_nil

/-- When the last block that was looked at is refused the peers are given up. -/
theorem Attempt.eq_of_endsRefused (h : Attempt L p target peers tx l log r l')
    (hend : EndsRefused p.model tx log tx') : r = .ok (false, tx') := by
  induction h with
  | exhausted => exact (not_endsRefused_nil hend).elim
  | @next _ _ tx _ _ _ _ log log' r hpeer hrest ih =>
      rcases eq_or_ne log' [] with rfl | hne
      · rw [List.append_nil] at hend
        cases hpeer.eq_of_endsRefused hend
        exact hrest.eq_of_nil rfl
      · rw [endsRefused_append hne, hpeer.follow_eq rfl] at hend
        exact ih hend
  | reached hpeer => exact hpeer.eq_of_endsRefused hend
  | overflow hpeer => exact hpeer.eq_of_endsRefused hend

/-! ## Downloads -/

section

variable {s : Store} {run : Run σ (Except (Fault SyncError) (Option Ledger))}

/-- One more peer is asked from where the others are given up. -/
theorem askPeers_append (h : askPeers L p target peers tx l = (.ok (false, tx'), l'))
    (more : List PublicKey) :
    askPeers L p target (peers ++ more) tx l = askPeers L p target more tx' l' := by
  induction peers generalizing tx l with
  | nil => cases h; rfl
  | cons peer peers ih =>
      rw [List.cons_append, askPeers]
      rw [askPeers] at h
      rcases hask : askPeer L p.model target peer p.maxRequests tx l with ⟨o | ⟨done, next⟩, k⟩
      · rw [hask] at h
        cases h
      · rw [hask] at h
        cases done with
        | false => exact ih h
        | true => cases h

/-- What a refused block leaves of the attempt: a certified chain, which ends
with what was taken of the last answer, and the block after it. -/
theorem Attempt.dropped_chain {tx : Transaction}
    (h : Attempt L p target peers s.openTransaction.1 l log r l')
    (hend : EndsRefused p.model s.openTransaction.1 log tx) :
    ∃ new b, tx = s.openTransaction.1.grow new ∧ Validation.Certified p.model s.ledger new
      ∧ Validation.Refused p.model tx b
      ∧ ∃ e taken rest, log.getLast? = some e ∧ e.answer = taken ++ b :: rest ∧ taken <:+ new := by
  obtain ⟨new, rfl, hcertified, -⟩ := h.grows (h.eq_of_endsRefused hend)
  obtain ⟨before, e, rfl, habsorb⟩ := hend
  obtain ⟨taken, b, rest, hanswer, hgrown, hrefused⟩ := Validation.refused_of_absorb habsorb
  refine ⟨new, b, rfl, hcertified, hrefused, e, taken, rest, List.getLast?_concat, hanswer, ?_⟩
  have hpending := congrArg Transaction.pending hgrown
  rw [Transaction.pending_grow, Transaction.pending_grow] at hpending
  exact ⟨_, hpending.symm⟩

/-- A download that gives up names its target, and stops there or above it
after a refused block only. -/
theorem Download.endsRefused {t reached : UInt64} (h : Download L p s l target peers log run)
    (hr : run.result = .error (.failed (.peersExhausted t reached))) :
    t = target ∧ (target ≤ reached →
      ∃ tx, EndsRefused p.model s.openTransaction.1 log tx ∧ tx.ledger.height = reached) := by
  cases h with
  | alreadyThere => cases hr
  | overflow => cases hr
  | refused => cases hr
  | committed => cases hr
  | exhausted hbelow hattempt =>
      cases hr
      refine ⟨rfl, ?_⟩
      intro hreached
      rcases hattempt.endsRefused rfl with ⟨-, rfl⟩ | hmissed | hend
      · exact absurd hreached hbelow
      · exact absurd hreached hmissed
      · exact ⟨_, hend, rfl⟩

/-- After a refused block in its last answer a download gives up. -/
theorem Download.eq_of_endsRefused {tx : Transaction} (h : Download L p s l target peers log run)
    (hend : EndsRefused p.model s.openTransaction.1 log tx) :
    run.result = .error (.failed (.peersExhausted target tx.ledger.height)) := by
  cases h with
  | alreadyThere => exact (not_endsRefused_nil hend).elim
  | overflow _ hattempt => cases hattempt.eq_of_endsRefused hend
  | exhausted _ hattempt => cases hattempt.eq_of_endsRefused hend; rfl
  | refused _ hattempt => cases hattempt.eq_of_endsRefused hend
  | committed _ hattempt => cases hattempt.eq_of_endsRefused hend

/-- **A download gives up past its target after a refused block only.** When it
gives up, the target that was asked for is named and the chain stays. If the
height it stopped at has reached the target, its last exchange ended with a
refused block at this height; and whenever the last exchange ends with a
refused block the download gives up, the target reached or not. What it drops
then is a certified chain on top of the committed one, up to the refused block
of the last answer. -/
theorem gives_up_past_target_after_refusal (L : Loader σ) (p : SyncPolicy) (s : Store) (l : σ)
    (target : UInt64) (peers : List PublicKey) (start : UInt64) :
    let r := download L p s l target peers start
    let log := exchanges L p s l target peers
    (∀ t reached, r.result = .error (.failed (.peersExhausted t reached)) →
        t = target ∧ r.store.blocks = s.blocks
          ∧ (target ≤ reached →
              ∃ tx, EndsRefused p.model s.openTransaction.1 log tx ∧ tx.ledger.height = reached))
      ∧ ∀ tx, EndsRefused p.model s.openTransaction.1 log tx →
          r.result = .error (.failed (.peersExhausted target tx.ledger.height))
            ∧ ∃ new b, tx = s.openTransaction.1.grow new
              ∧ Validation.Certified p.model s.ledger new ∧ Validation.Refused p.model tx b
              ∧ ∃ e taken rest, log.getLast? = some e ∧ e.answer = taken ++ b :: rest
                ∧ taken <:+ new := by
  intro r log
  have hcases : Download L p s l target peers log r := download_cases L p s l target peers start
  refine ⟨?_, ?_⟩
  · intro t reached hr
    obtain ⟨htarget, hend⟩ := hcases.endsRefused hr
    exact ⟨htarget, (hcases.unchanged_of_error hr).1, hend⟩
  · intro tx hend
    refine ⟨hcases.eq_of_endsRefused hend, ?_⟩
    rcases hcases.attempt with hnone | ⟨_, _, hattempt⟩
    · rw [hnone] at hend
      exact (not_endsRefused_nil hend).elim
    · exact hattempt.dropped_chain hend

/-- A download that gives up is one in which the peers are given up. -/
theorem askPeers_of_exhausted {reached : UInt64} {start : UInt64}
    (hr : (download L p s l target peers start).result
      = .error (.failed (.peersExhausted target reached))) :
    ¬ target ≤ s.ledger.height ∧ ∃ tx, tx.ledger.height = reached
      ∧ askPeers L p target peers s.openTransaction.1 l
        = (.ok (false, tx), (download L p s l target peers start).loader) := by
  have hbelow : ¬ target ≤ s.openTransaction.1.ledger.height := by
    intro hthere
    simp [download, if_pos hthere] at hr
  refine ⟨hbelow, ?_⟩
  rcases hask : askPeers L p target peers s.openTransaction.1 l with ⟨o | ⟨done, tx⟩, k⟩
  · simp [download, if_neg hbelow, hask] at hr
  · cases done with
    | false =>
        simp only [download, if_neg hbelow, hask] at hr ⊢
        cases hr
        exact ⟨tx, rfl, rfl⟩
    | true =>
        simp only [download, if_neg hbelow, hask] at hr
        rcases hcommit : s.openTransaction.2.commit tx with ⟨e | led, s'⟩
        · rw [hcommit] at hr
          cases hr
        · rw [hcommit] at hr
          cases hr

/-- **What is dropped was complete**: with one more candidate that has nothing
to add, the download that gives up past its target is a success. -/
theorem download_with_idle_peer {reached : UInt64} {peer : PublicKey} {l' : σ} (start : UInt64)
    (hr : (download L p s l target peers start).result
      = .error (.failed (.peersExhausted target reached)))
    (hreached : target ≤ reached) (hasked : 1 ≤ p.maxRequests)
    (hidle : L.retrieve (download L p s l target peers start).loader reached peer = ([], l'))
    (hcommit : s.failNextCommit = false) (hnumbered : Numbered s.blocks) :
    let run := download L p s l target (peers ++ [peer]) start
    run.result = .ok (some run.store.ledger) ∧ run.store.ledger.height = reached := by
  intro run
  obtain ⟨hbelow, tx, rfl, hask⟩ := askPeers_of_exhausted hr
  generalize (download L p s l target peers start).loader = k at hidle hask
  have hattempt := attempt_exchanges L p peers l hbelow
  rw [hask] at hattempt
  obtain ⟨new, rfl, -⟩ := hattempt.grows rfl
  obtain ⟨n, hn⟩ := Nat.exists_eq_add_of_le' hasked
  have hmore : askPeers L p target (peers ++ [peer]) s.openTransaction.1 l
      = (.ok (true, s.openTransaction.1.grow new), l') := by
    rw [askPeers_append hask]
    simp only [askPeers, hn, askPeer, hidle, Validation.absorb, hreached, decide_true,
      Bool.and_self, if_true]
  have hne : new ≠ [] := by
    rintro rfl
    rw [Transaction.grow_nil] at hreached
    exact hbelow hreached
  obtain ⟨hresult, hblocks, -⟩ := download_of_reached start hbelow hmore hne hcommit
    (hnumbered.height_ledger s.peers)
  refine ⟨hresult, ?_⟩
  have hpeers : run.store.peers = s.peers := (download_cases L p s l target _ start).grows.1
  have hchain : run.store.blocks = s.blocks ++ new := hblocks
  rw [Store.ledger_eq_ofChain, hpeers, hchain, Store.ledger_ofChain_append]
  rfl

/-- A peer that hands out the next block twice makes a download give up on it:
the second copy is refused, and the first one is dropped with it. -/
theorem download_of_two_copies {b : Block}
    (hcheck : Validation.check .byzantine b neutralStore.ledger = .ok ()) :
    download ⟨fun _ _ _ => ([b, b], ())⟩ ⟨.byzantine, 1⟩ neutralStore () 1 [Neutral.key]
      = ⟨.error (.failed (.peersExhausted 1 1)), neutralStore.openTransaction.2, ()⟩ := by
  have hcertificate := Validation.check_eq_ok_iff.mp hcheck
  have hone : b.height = 1 := UInt64.toNat_inj.mp hcertificate.height
  have hreached : (neutralStore.openTransaction.1.grow [b]).ledger.height = 1 := hone
  have happly : neutralStore.openTransaction.1.apply b
      = .ok (neutralStore.openTransaction.1.grow [b]) :=
    Transaction.apply_eq_grow nofun hcertificate.height hcertificate.prev
  have hfirst : Validation.check .byzantine b neutralStore.openTransaction.1.ledger = .ok () :=
    hcheck
  have hagain : Validation.check .byzantine b (neutralStore.openTransaction.1.grow [b]).ledger
      = .error (.failed (.unexpectedHeight 1 1)) := by
    have hnext : checkedAdd (neutralStore.openTransaction.1.grow [b]).ledger.height 1 = .ok 2 := by
      rw [hreached]
      rfl
    have hrefused := Validation.check_of_height_ne (m := .byzantine) hnext
      (b := b) (by rw [hone]; decide)
    rwa [hreached, hone] at hrefused
  have habsorb : Validation.absorb .byzantine neutralStore.openTransaction.1 [b, b]
      = .ok (false, neutralStore.openTransaction.1.grow [b]) := by
    simp only [Validation.absorb, hfirst, happly, hagain]
  have hask : askPeers ⟨fun _ _ _ => ([b, b], ())⟩ ⟨.byzantine, 1⟩ 1 [Neutral.key]
      neutralStore.openTransaction.1 ()
      = (.ok (false, neutralStore.openTransaction.1.grow [b]), ()) := by
    simp only [askPeers, askPeer, habsorb, Bool.false_and, Bool.false_eq_true, if_false]
  have hbelow : ¬ 1 ≤ neutralStore.openTransaction.1.ledger.height := by decide
  simp only [download, if_neg hbelow, hask, hreached]

/-- A validated block of the target's height is not committed, since the same
answer goes on with a block that is refused. -/
theorem gives_up_at_target :
    let b := Neutral.nextBlock neutralStore.ledger 7
    let r := download ⟨fun _ _ _ => ([b, b], ())⟩ ⟨.byzantine, 1⟩ neutralStore () 1 [Neutral.key]
    ∃ reached, r.result = .error (.failed (.peersExhausted 1 reached)) ∧ ¬ reached < 1
      ∧ r.store.blocks = [] := by
  have hb := Neutral.check_nextBlock .byzantine (l := neutralStore.ledger) 7 rfl (by decide)
  -- the hash of the block is not to be computed
  generalize Neutral.nextBlock neutralStore.ledger 7 = b at hb ⊢
  intro b' r
  have hr : r = ⟨.error (.failed (.peersExhausted 1 1)), neutralStore.openTransaction.2, ()⟩ :=
    download_of_two_copies hb
  rw [hr]
  exact ⟨1, rfl, by decide, rfl⟩

end

end Synchronizer

end LedgerCommit
