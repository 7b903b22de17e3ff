import LedgerCommit.Proofs.GivingUp

/-!
# The requests of a download

The requests of a download come in groups, one for each peer that is asked,
in the order of the peers. All of them go on from where the answers before
them have led: a request asks for what follows the last block that was
validated and applied, whoever delivered it. A group ends early only with an
answer that gives reason to leave the peer, and `Leaves` lists the reasons.
-/

namespace LedgerCommit

/-! ## Heights of certified blocks -/

/-- A ledger with blocks on top has the height of the last one. -/
theorem Ledger.height_extendAll (ledger : Ledger) (bs : List Block) :
    (ledger.extendAll bs).height = (bs.getLast?.map Block.height).getD ledger.height := by
  rw [height, tip_extendAll]
  cases bs.getLast? <;> rfl

namespace Validation

variable {m : FaultModel} {ledger : Ledger} {bs : List Block} {b : Block}

theorem Certified.height_le (h : Certified m ledger bs) :
    ledger.height ≤ (ledger.extendAll bs).height := by
  have hheight := h.height_extendAll
  rw [UInt64.le_iff_toNat_le]
  omega

theorem Certified.height_le_of_mem (h : Certified m ledger bs) (hb : b ∈ bs) :
    b.height ≤ (ledger.extendAll bs).height := by
  obtain ⟨i, hi⟩ := List.mem_iff_getElem?.mp hb
  have hposition := h.height_getElem hi
  have hlength := (List.getElem?_eq_some_iff.mp hi).1
  have hheight := h.height_extendAll
  rw [UInt64.le_iff_toNat_le]
  omega

/-! ## How an answer ends -/

/-- The block does not come on top of the transaction: it does not pass the
check, or it is not applied. -/
def Untaken (m : FaultModel) (tx : Transaction) (b : Block) : Prop :=
  check m b tx.ledger ≠ .ok () ∨ ∀ tx', tx.apply b ≠ .ok tx'

/-- A chain is taken to its end, or up to a block that does not come on top. -/
theorem furthest_cases (m : FaultModel) (tx : Transaction) (bs : List Block) :
    ∃ taken, furthest m tx bs = tx.grow taken ∧ Certified m tx.ledger taken
      ∧ (bs = taken ∧ absorb m tx bs = .ok (true, tx.grow taken)
          ∨ ∃ b rest, bs = taken ++ b :: rest ∧ Untaken m (tx.grow taken) b) := by
  induction bs generalizing tx with
  | nil => exact ⟨[], by rw [furthest, Transaction.grow_nil], trivial, .inl ⟨rfl, by simp [absorb]⟩⟩
  | cons b rest ih =>
      -- a stop at this block takes nothing
      have hstop : furthest m tx (b :: rest) = tx → Untaken m tx b →
          ∃ taken, furthest m tx (b :: rest) = tx.grow taken ∧ Certified m tx.ledger taken
            ∧ (b :: rest = taken ∧ absorb m tx (b :: rest) = .ok (true, tx.grow taken)
              ∨ ∃ c more, b :: rest = taken ++ c :: more ∧ Untaken m (tx.grow taken) c) := by
        intro hfurthest huntaken
        rw [hfurthest]
        exact ⟨[], by simp, trivial, .inr ⟨b, rest, rfl, by simpa using huntaken⟩⟩
      rcases hcheck : check m b tx.ledger with e | _
      · refine hstop ?_ (.inl (by simp [hcheck]))
        rw [furthest, hcheck]
      · rcases happly : tx.apply b with e | next
        · refine hstop ?_ (.inr (by simp [happly]))
          rw [furthest, hcheck, happly]
        · obtain rfl := Transaction.eq_grow_of_apply happly
          obtain ⟨taken, hfurthest, hcertified, hend⟩ := ih (tx.grow [b])
          refine ⟨b :: taken, ?_, ⟨hcheck, hcertified⟩, ?_⟩
          · simp only [furthest, hcheck, happly, hfurthest, Transaction.grow_grow,
              List.singleton_append]
          · rcases hend with ⟨rfl, habsorb⟩ | ⟨c, more, rfl, huntaken⟩
            · refine .inl ⟨rfl, ?_⟩
              simp only [absorb, hcheck, happly, habsorb, Transaction.grow_grow,
                List.singleton_append]
            · exact .inr ⟨c, more, rfl, by simpa using huntaken⟩

end Validation

namespace Synchronizer

variable {σ : Type} {L : Loader σ} {m : FaultModel} {p : SyncPolicy} {target : UInt64}
  {peer : PublicKey} {peers : List PublicKey} {tx tx' : Transaction} {l l' : σ}
  {log log' : List Exchange} {r : Except Overflow (Bool × Transaction)} {n : Nat}

/-- Why a peer is left after an answer to a request from a transaction. -/
inductive Leaves (m : FaultModel) (target : UInt64) (tx : Transaction) : List Block → Prop where
  /-- A block is invalid or refused. -/
  | untaken {taken rest : List Block} {b : Block} :
      Validation.furthest m tx (taken ++ b :: rest) = tx.grow taken →
      Validation.Untaken m (tx.grow taken) b → Leaves m target tx (taken ++ b :: rest)
  /-- There is no new block. -/
  | nothingNew : Leaves m target tx []
  /-- All blocks are taken and the target is reached. -/
  | completed {bs : List Block} : Validation.furthest m tx bs = tx.grow bs →
      target ≤ (tx.grow bs).ledger.height → Leaves m target tx bs

/-- An answer after which the loop does not go on with the peer. -/
theorem leaves_of_absorb {bs : List Block} (habsorb : Validation.absorb m tx bs = r)
    (h : ∀ tx', r = .ok (true, tx') →
      target ≤ tx'.ledger.height ∨ ¬ tx.ledger.height < tx'.ledger.height) :
    Leaves m target tx bs := by
  obtain ⟨taken, hfurthest, hcertified, ⟨rfl, hall⟩ | ⟨b, rest, rfl, huntaken⟩⟩ :=
    Validation.furthest_cases m tx bs
  · rcases h _ (habsorb.symm.trans hall) with hreached | hstays
    · exact .completed hfurthest hreached
    · have hheight := hcertified.height_extendAll
      rw [Transaction.ledger_grow, UInt64.lt_iff_toNat_lt, hheight] at hstays
      have hnone : bs = [] := List.length_eq_zero_iff.mp (by omega)
      rw [hnone]
      exact .nothingNew
  · exact .untaken hfurthest huntaken

/-! ## Where requests go on -/

theorem follow_eq_grow (m : FaultModel) (tx : Transaction) (log : List Exchange) :
    ∃ new, follow m tx log = tx.grow new ∧ Validation.Certified m tx.ledger new := by
  induction log generalizing tx with
  | nil => exact ⟨[], by simp [follow], trivial⟩
  | cons e log ih =>
      obtain ⟨taken, hfurthest, hcertified, -⟩ := Validation.furthest_cases m tx e.answer
      obtain ⟨new, hnew, hmore⟩ := ih (tx.grow taken)
      refine ⟨taken ++ new, ?_, Validation.certified_append.mpr ⟨hcertified, hmore⟩⟩
      rw [follow, List.foldl_cons, hfurthest, ← Transaction.grow_grow, ← hnew]
      rfl

theorem height_le_follow (m : FaultModel) (tx : Transaction) (log : List Exchange) :
    tx.ledger.height ≤ (follow m tx log).ledger.height := by
  obtain ⟨new, hnew, hcertified⟩ := follow_eq_grow m tx log
  rw [hnew]
  exact hcertified.height_le

/-- Each request asks for what follows the blocks taken from the answers before it. -/
def Resumes (m : FaultModel) (tx : Transaction) (log : List Exchange) : Prop :=
  ∀ before e after, log = before ++ e :: after →
    e.request.height = (follow m tx before).ledger.height

theorem resumes_nil : Resumes m tx [] := by
  intro before e after h
  exact absurd h.symm (List.append_ne_nil_of_right_ne_nil before (List.cons_ne_nil e after))

theorem resumes_cons {e : Exchange} : Resumes m tx (e :: log) ↔
    e.request.height = tx.ledger.height
      ∧ Resumes m (Validation.furthest m tx e.answer) log := by
  constructor
  · intro h
    refine ⟨h [] e log rfl, ?_⟩
    rintro before f after rfl
    exact h (e :: before) f after rfl
  · rintro ⟨hfirst, hrest⟩ before f after hlog
    cases before with
    | nil =>
        cases hlog
        exact hfirst
    | cons e' before =>
        obtain ⟨rfl, rfl⟩ := List.cons.inj hlog
        exact hrest before f after rfl

theorem resumes_append (h : Resumes m tx log) (h' : Resumes m (follow m tx log) log') :
    Resumes m tx (log ++ log') := by
  induction log generalizing tx with
  | nil => exact h'
  | cons e log ih =>
      obtain ⟨hfirst, hrest⟩ := resumes_cons.mp h
      exact resumes_cons.mpr ⟨hfirst, ih hrest h'⟩

theorem Resumes.height_le (h : Resumes m tx log) {e : Exchange} (he : e ∈ log) :
    tx.ledger.height ≤ e.request.height := by
  obtain ⟨before, after, rfl⟩ := List.append_of_mem he
  rw [h before e after rfl]
  exact height_le_follow m tx before

/-- The heights that are asked for never go down. -/
theorem Resumes.pairwise (h : Resumes m tx log) :
    log.Pairwise fun e f => e.request.height ≤ f.request.height := by
  induction log generalizing tx with
  | nil => exact .nil
  | cons e log ih =>
      obtain ⟨hfirst, hrest⟩ := resumes_cons.mp h
      refine .cons ?_ (ih hrest)
      intro f hf
      rw [hfirst]
      exact UInt64.le_trans (height_le_follow m tx [e]) (hrest.height_le hf)

/-! ## The group of one peer -/

theorem Conversation.resumes (h : Conversation L m target peer n tx l log r l') :
    Resumes m tx log := by
  induction h with
  | spent => exact resumes_nil
  | overflow | reached | stopped => exact resumes_cons.mpr ⟨rfl, resumes_nil⟩
  | again _ habsorb _ _ _ ih =>
      refine resumes_cons.mpr ⟨rfl, ?_⟩
      rwa [Validation.furthest_of_absorb habsorb]

theorem Conversation.peer_eq (h : Conversation L m target peer n tx l log r l') :
    ∀ e ∈ log, e.request.peer = peer := by
  induction h with
  | spent => simp
  | overflow | reached | stopped => simp
  | again _ _ _ _ _ ih => exact List.forall_mem_cons.mpr ⟨rfl, ih⟩

/-- The peer is asked again only after new blocks. -/
theorem Conversation.rising (h : Conversation L m target peer n tx l log r l') :
    log.Pairwise fun e f => e.request.height < f.request.height := by
  induction h with
  | spent => exact .nil
  | overflow | reached | stopped => exact List.pairwise_singleton _ _
  | again _ _ _ hnew hrest ih =>
      refine .cons ?_ ih
      intro f hf
      exact UInt64.lt_of_lt_of_le hnew (hrest.resumes.height_le hf)

theorem Conversation.nonempty (h : Conversation L m target peer n tx l log r l') (hn : 1 ≤ n) :
    log ≠ [] := by
  rintro rfl
  cases h
  omega

/-- A peer gets all its requests, or there is a reason to leave it. -/
theorem Conversation.leaves (h : Conversation L m target peer n tx l log r l') :
    log.length = n ∨ ∃ front last, log = front ++ [last]
      ∧ Leaves m target (follow m tx front) last.answer := by
  induction h with
  | spent => exact .inl rfl
  | overflow _ habsorb => exact .inr ⟨[], _, rfl, leaves_of_absorb habsorb nofun⟩
  | reached _ habsorb hreached =>
      refine .inr ⟨[], _, rfl, leaves_of_absorb habsorb ?_⟩
      rintro _ ⟨rfl⟩
      exact .inl hreached
  | stopped _ habsorb hstop =>
      refine .inr ⟨[], _, rfl, leaves_of_absorb habsorb ?_⟩
      rintro _ ⟨rfl⟩
      exact .inr (hstop rfl).2
  | again _ habsorb _ _ _ ih =>
      rcases ih with hall | ⟨front, last, rfl, hleaves⟩
      · exact .inl (congrArg Nat.succ hall)
      · refine .inr ⟨_ :: front, last, rfl, ?_⟩
        rwa [follow_cons_of_absorb habsorb]

/-- The requests to one peer that may be asked `n` times. -/
structure Group (m : FaultModel) (target : UInt64) (peer : PublicKey) (n : Nat) (tx : Transaction)
    (log : List Exchange) : Prop where
  nonempty : log ≠ []
  length_le : log.length ≤ n
  peer_eq : ∀ e ∈ log, e.request.peer = peer
  rising : log.Pairwise fun e f => e.request.height < f.request.height
  leaves : log.length < n → ∃ front last, log = front ++ [last]
    ∧ Leaves m target (follow m tx front) last.answer

theorem Conversation.group (h : Conversation L m target peer n tx l log r l') (hn : 1 ≤ n) :
    Group m target peer n tx log where
  nonempty := h.nonempty hn
  length_le := h.length_le
  peer_eq := h.peer_eq
  rising := h.rising
  leaves hless := h.leaves.resolve_left (Nat.ne_of_lt hless)

/-! ## The groups of an attempt -/

/-- One group for each of some peers, each from where the ones before it have led. -/
inductive Grouped (p : SyncPolicy) (target : UInt64) :
    Transaction → List PublicKey → List (List Exchange) → Prop where
  | nil (tx : Transaction) : Grouped p target tx [] []
  | cons {tx : Transaction} {peer : PublicKey} {peers : List PublicKey} {group : List Exchange}
      {groups : List (List Exchange)} : Group p.model target peer p.maxRequests tx group →
      Grouped p target (follow p.model tx group) peers groups →
      Grouped p target tx (peer :: peers) (group :: groups)

theorem Grouped.singleton (h : Group p.model target peer p.maxRequests tx log) :
    Grouped p target tx [peer] [log] := .cons h (.nil _)

/-- An attempt asks the peers in turn, and all of them before it gives up. -/
theorem Attempt.grouped (h : Attempt L p target peers tx l log r l') (hmax : 1 ≤ p.maxRequests) :
    ∃ asked groups, asked <+: peers ∧ log = groups.flatten ∧ Grouped p target tx asked groups
      ∧ (asked = [] → peers = []) ∧ ∀ tx', r = .ok (false, tx') → asked = peers := by
  induction h with
  | exhausted tx l =>
      exact ⟨[], [], List.nil_prefix, rfl, .nil tx, fun _ => rfl, fun _ _ => rfl⟩
  | @next peer _ _ _ _ _ _ log _ _ hpeer _ ih =>
      obtain ⟨asked, groups, hfront, rfl, hgroups, -, hall⟩ := ih
      rw [← hpeer.follow_eq rfl] at hgroups
      refine ⟨peer :: asked, log :: groups, List.cons_prefix_cons.mpr ⟨rfl, hfront⟩, rfl,
        .cons (hpeer.group hmax) hgroups, nofun, ?_⟩
      intro tx' hr
      rw [hall tx' hr]
  | @reached peer peers _ _ _ _ log hpeer =>
      refine ⟨[peer], [log], ?_, by simp, .singleton (hpeer.group hmax), nofun, nofun⟩
      exact List.cons_prefix_cons.mpr ⟨rfl, List.nil_prefix⟩
  | @overflow peer peers _ _ _ log _ hpeer =>
      refine ⟨[peer], [log], ?_, by simp, .singleton (hpeer.group hmax), nofun, nofun⟩
      exact List.cons_prefix_cons.mpr ⟨rfl, List.nil_prefix⟩

theorem Attempt.resumes (h : Attempt L p target peers tx l log r l') :
    Resumes p.model tx log := by
  induction h with
  | exhausted => exact resumes_nil
  | next hpeer _ ih =>
      refine resumes_append hpeer.resumes ?_
      rwa [hpeer.follow_eq rfl]
  | reached hpeer => exact hpeer.resumes
  | overflow hpeer => exact hpeer.resumes

/-! ## The requests of a download -/

/-- The blocks that a download from a store has validated and applied after
some exchanges. -/
def applied (m : FaultModel) (s : Store) (log : List Exchange) : List Block :=
  (follow m s.openTransaction.1 log).pending

theorem follow_openTransaction (m : FaultModel) (s : Store) (log : List Exchange) :
    (follow m s.openTransaction.1 log).ledger = s.ledger.extendAll (applied m s log)
      ∧ Validation.Certified m s.ledger (applied m s log) := by
  obtain ⟨new, hnew, hcertified⟩ := follow_eq_grow m s.openTransaction.1 log
  have happlied : applied m s log = new := by
    rw [applied, hnew]
    exact List.nil_append new
  rw [hnew, happlied]
  exact ⟨rfl, hcertified⟩

/-- However it goes, a download opens one transaction. -/
theorem Download.opened {s : Store} {run : Run σ (Except (Fault SyncError) (Option Ledger))}
    (h : Download L p s l target peers log run) : run.store.opened = s.opened + 1 := by
  cases h with
  | alreadyThere => rfl
  | overflow => rfl
  | exhausted => rfl
  | @refused _ tx _ _ _ _ _ hcommit =>
      have hopened := Store.opened_commit s.openTransaction.2 tx
      rwa [hcommit] at hopened
  | @committed _ tx _ _ _ _ _ hcommit =>
      have hopened := Store.opened_commit s.openTransaction.2 tx
      rwa [hcommit] at hopened

/-- **The requests of a download come in groups.** Take any loader, any store
below the target, any peers, and at least one request for each. Then the
requests are, in order, one group for each of the first few peers, and for all
of them when the peers are exhausted. Each request is for the height of the
last block that was validated and applied so far, so the heights never go down
and no block that was applied is asked for again. The requests are bounded,
and one transaction is opened for all of them. -/
theorem requests_come_in_groups (L : Loader σ) (p : SyncPolicy) (s : Store) (l : σ)
    (target : UInt64) (peers : List PublicKey) (start : UInt64)
    (hbelow : s.ledger.height < target) (hmax : 1 ≤ p.maxRequests) :
    let r := download L p s l target peers start
    let log := exchanges L p s l target peers
    (∃ asked groups, asked <+: peers ∧ log = groups.flatten
        ∧ Grouped p target s.openTransaction.1 asked groups ∧ (asked = [] → peers = [])
        ∧ ∀ t reached, r.result = .error (.failed (.peersExhausted t reached)) → asked = peers)
      ∧ (∀ before e after, log = before ++ e :: after →
          Validation.Certified p.model s.ledger (applied p.model s before)
            ∧ e.request.height
              = ((applied p.model s before).getLast?.map Block.height).getD s.ledger.height
            ∧ ∀ b ∈ applied p.model s before, b.height ≤ e.request.height)
      ∧ (log.Pairwise fun e f => e.request.height ≤ f.request.height)
      ∧ log.length ≤ peers.length * p.maxRequests
      ∧ r.store.opened = s.opened + 1 := by
  intro r log
  have hcases : Download L p s l target peers log r := download_cases L p s l target peers start
  have hattempt : Attempt L p target peers s.openTransaction.1 l log
      (askPeers L p target peers s.openTransaction.1 l).1
      (askPeers L p target peers s.openTransaction.1 l).2 :=
    attempt_exchanges L p peers l (UInt64.not_le.mpr hbelow)
  have hresumes := hattempt.resumes
  obtain ⟨asked, groups, hfront, hlog, hgroups, hsome, hall⟩ := hattempt.grouped hmax
  refine ⟨⟨asked, groups, hfront, hlog, hgroups, hsome, ?_⟩, ?_, hresumes.pairwise,
    length_exchanges_le L p s l target peers, hcases.opened⟩
  · intro t reached hr
    obtain ⟨rfl, -⟩ := hcases.endsRefused hr
    obtain ⟨-, tx, -, hask⟩ := askPeers_of_exhausted hr
    exact hall tx (congrArg Prod.fst hask)
  · intro before e after hsplit
    obtain ⟨hledger, hcertified⟩ := follow_openTransaction p.model s before
    have hheight : e.request.height = (s.ledger.extendAll (applied p.model s before)).height := by
      rw [hresumes before e after hsplit, hledger]
    refine ⟨hcertified, ?_, ?_⟩
    · rw [hheight, Ledger.height_extendAll]
    · intro b hb
      rw [hheight]
      exact hcertified.height_le_of_mem hb

/-- A peer whose only block is the first one is asked once more, and then the
next peer for what is missing. -/
theorem exchanges_of_one_block {b : Block} (one two : PublicKey)
    (hcheck : Validation.check .byzantine b neutralStore.ledger = .ok ()) :
    let L : Loader Unit := ⟨fun _ height _ => (if height = 0 then [b] else [], ())⟩
    exchanges L ⟨.byzantine, 2⟩ neutralStore () 2 [one, two]
        = [⟨⟨one, 0⟩, [b]⟩, ⟨⟨one, 1⟩, []⟩, ⟨⟨two, 1⟩, []⟩]
      ∧ (download L ⟨.byzantine, 2⟩ neutralStore () 2 [one, two]).result
        = .error (.failed (.peersExhausted 2 1)) := by
  intro L
  -- the first answer leads from height zero to height one, an empty one leads nowhere
  have hzero : neutralStore.openTransaction.1.ledger.height = 0 := rfl
  have hone : (neutralStore.openTransaction.1.grow [b]).ledger.height = 1 :=
    UInt64.toNat_inj.mp (Validation.check_eq_ok_iff.mp hcheck).height
  have hfirst : Validation.absorb .byzantine neutralStore.openTransaction.1 [b]
      = .ok (true, neutralStore.openTransaction.1.grow [b]) :=
    Validation.absorb_of_certified _ rfl ⟨hcheck, trivial⟩
  have hempty : Validation.absorb .byzantine (neutralStore.openTransaction.1.grow [b]) []
      = .ok (true, neutralStore.openTransaction.1.grow [b]) := rfl
  constructor
  · simp [-Transaction.ledger_grow, exchanges, download, askPeers, askPeer, Loader.recording, L,
      hzero, hone, hfirst, hempty]
  · simp [-Transaction.ledger_grow, download, askPeers, askPeer, L, hzero, hone, hfirst, hempty]

/-- Two peers may be asked twice, and three requests are made: the first peer
has one block, and the second one goes on from there. -/
theorem second_peer_is_asked_for_the_rest :
    let b := Neutral.nextBlock neutralStore.ledger 7
    let L : Loader Unit := ⟨fun _ height _ => (if height = 0 then [b] else [], ())⟩
    let one : PublicKey := ⟨.replicate 32 1⟩
    let two : PublicKey := ⟨.replicate 32 2⟩
    let log := exchanges L ⟨.byzantine, 2⟩ neutralStore () 2 [one, two]
    log.map Exchange.request = [⟨one, 0⟩, ⟨one, 1⟩, ⟨two, 1⟩]
      ∧ ∃ groups, log = groups.flatten
        ∧ Grouped ⟨.byzantine, 2⟩ 2 neutralStore.openTransaction.1 [one, two] groups := by
  have hb := Neutral.check_nextBlock .byzantine (l := neutralStore.ledger) 7 rfl (by decide)
  -- the hash of the block is not to be computed
  generalize Neutral.nextBlock neutralStore.ledger 7 = b at hb ⊢
  intro b' L one two log
  obtain ⟨hlog, hresult⟩ := exchanges_of_one_block one two hb
  obtain ⟨⟨asked, groups, -, hgroups, hgrouped, -, hall⟩, -⟩ :=
    requests_come_in_groups L ⟨.byzantine, 2⟩ neutralStore () 2 [one, two]
      neutralStore.ledger.height (by decide) (by decide)
  obtain rfl := hall 2 1 hresult
  refine ⟨?_, groups, hgroups, hgrouped⟩
  have hrequests := congrArg (List.map Exchange.request) hlog
  exact hrequests

end Synchronizer

end LedgerCommit
