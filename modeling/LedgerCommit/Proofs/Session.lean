import LedgerCommit.Proofs.Chain

/-!
# Interleaved transactions

A session is a store with all the transactions ever opened on it. Operations
come in any order: transactions are opened, extended and committed while
others are under way, and prepared blocks are committed past all of them. The
chain stays numbered and only grows, and whatever comes from a transaction is
linked to the block below it, since a commit takes effect on the very chain
that its transaction was opened on.
-/

namespace LedgerCommit

/-! ## Operations -/

/-- An operation on a session. Transactions go by the order of their opening. -/
inductive StoreOp where
  | openTransaction
  | apply (n : Nat) (b : Block)
  | commit (n : Nat)
  | prepare (b : Block)
  | commitPrepared (b : Block)
  | scriptCommitFailure
  | scriptApplyFailure (height : UInt64)

/-- What an operation answers. -/
inductive StoreAnswer where
  | done
  /-- There is no such transaction, or its commit was tried before. -/
  | absent
  | applied (result : Except (Fault StoreError) Unit)
  | committed (result : Except StoreError Ledger)

/-- Whether blocks were committed, by a transaction or as prepared. -/
def StoreAnswer.Succeeded : StoreAnswer → Prop
  | committed (.ok _) => True
  | _ => False

/-- A store and the transactions opened on it so far. One that a commit was
tried of is gone, whether or not the commit succeeded. -/
structure Session where
  store : Store
  transactions : List (Option Transaction)

namespace Store

/-- Peers, chain and counters are the same. -/
structure SameChain (s s' : Store) : Prop where
  peers : s'.peers = s.peers
  blocks : s'.blocks = s.blocks
  opened : s'.opened = s.opened
  commits : s'.commits = s.commits
  preparedCommits : s'.preparedCommits = s.preparedCommits

theorem sameChain_of_commit {s s' : Store} {tx : Transaction} {e : StoreError}
    (h : s.commit tx = (.error e, s')) : s.SameChain s' := by
  obtain ⟨hblocks, hcommits, hprepared, hopened⟩ := commit_error h
  have hpeers := peers_commit s tx
  rw [h] at hpeers
  exact ⟨hpeers, hblocks, hopened, hcommits, hprepared⟩

/-- A prepared commit fails and changes nothing, or puts the next block on the chain. -/
theorem commitPrepared_cases (s : Store) (b : Block) :
    (∃ e, s.commitPrepared b = (.error e, s))
      ∨ b.height.toNat = s.blocks.length + 1 ∧ ∃ s', s.commitPrepared b = (.ok s'.ledger, s')
          ∧ s'.blocks = s.blocks ++ [b] ∧ s'.peers = s.peers := by
  unfold commitPrepared
  by_cases hprepared : s.prepared ≠ some b.hash
  · exact .inl ⟨_, if_pos hprepared⟩
  · by_cases hheight : b.height.toNat ≠ s.blocks.length + 1
    · exact .inl ⟨_, by rw [if_neg hprepared, if_pos hheight]⟩
    · refine .inr ⟨Decidable.not_not.mp hheight, { s with
        blocks := s.blocks ++ [b], prepared := none, preparedCommits := s.preparedCommits + 1 },
        ?_, rfl, rfl⟩
      rw [if_neg hprepared, if_neg hheight]

end Store

namespace Transaction

/-- The committed blocks that the transaction was opened on, its own on top. -/
def chainOn (tx : Transaction) (s : Store) : List Block :=
  s.blocks.take tx.base.toNat ++ tx.pending

/-- The transaction could be put on the chain as far as it was opened on it:
its blocks are the next ones in height there, and linked. -/
structure StandsOn (tx : Transaction) (s : Store) : Prop where
  base : tx.base.toNat ≤ s.blocks.length
  ledger : tx.ledger = (Store.ofChain s.peers (tx.chainOn s)).ledger
  numbered : Numbered (tx.chainOn s)
  linked : ∀ i, tx.base.toNat ≤ i → LinkedAt (tx.chainOn s) i

/-- A transaction stands where it did however the chain grows. -/
theorem StandsOn.grows {tx : Transaction} {s s' : Store} (h : tx.StandsOn s)
    (hpeers : s'.peers = s.peers) (hblocks : s.blocks <+: s'.blocks) : tx.StandsOn s' := by
  obtain ⟨more, hmore⟩ := hblocks
  have hchain : tx.chainOn s' = tx.chainOn s := by
    rw [chainOn, ← hmore, List.take_append_of_le_length h.base]
    rfl
  refine ⟨?_, ?_, ?_, ?_⟩
  · rw [← hmore, List.length_append]
    have := h.base
    omega
  · rw [hchain, hpeers]
    exact h.ledger
  · rw [hchain]
    exact h.numbered
  · rw [hchain]
    exact h.linked

theorem standsOn_openTransaction {s : Store} (h : Numbered s.blocks) :
    s.openTransaction.1.StandsOn s := by
  have hbase : s.openTransaction.1.base.toNat = s.blocks.length := h.height_ledger s.peers
  have hchain : s.openTransaction.1.chainOn s = s.blocks := by
    rw [chainOn, hbase, List.take_length]
    exact List.append_nil _
  refine ⟨Nat.le_of_eq hbase, ?_, ?_, ?_⟩
  · rw [hchain]
    rfl
  · rwa [hchain]
  · intro i hi b hb
    rw [hchain] at hb
    have := (List.getElem?_eq_some_iff.mp hb).1
    omega

/-- Applying a block numbers and links it on top of the others. -/
theorem StandsOn.apply {tx tx' : Transaction} {s : Store} {b : Block} (h : tx.StandsOn s)
    (happly : tx.apply b = .ok tx') : tx'.StandsOn s := by
  obtain ⟨-, -, -, -, hheight, hprev⟩ := apply_eq_ok happly
  obtain rfl := eq_grow_of_apply happly
  have hchain : (tx.grow [b]).chainOn s = tx.chainOn s ++ [b] :=
    (List.append_assoc _ _ _).symm
  have htop : tx.ledger.height.toNat = (tx.chainOn s).length := by
    rw [h.ledger]
    exact h.numbered.height_ledger s.peers
  refine ⟨h.base, ?_, ?_, ?_⟩
  · rw [hchain, Store.ledger_ofChain_append, ← h.ledger]
    rfl
  · rw [hchain]
    exact numbered_concat.mpr ⟨h.numbered, by rw [hheight, htop]⟩
  · intro i hi
    rw [hchain]
    -- all positions but the top one are as they were
    rcases Nat.lt_or_ge i (tx.chainOn s).length with hlt | hge
    · exact (linkedAt_append hlt).mpr (h.linked i hi)
    · intro c hc
      rcases getElem?_concat_eq_some.mp hc with hc | ⟨rfl, rfl⟩
      · have := (List.getElem?_eq_some_iff.mp hc).1
        omega
      · rw [hashBelow_append (Nat.le_refl _), hprev, h.ledger]
        exact hash_tip_ofChain s.peers (tx.chainOn s)

end Transaction

namespace Session

/-- The session of a store on which no transaction is open. -/
def start (s : Store) : Session := ⟨s, []⟩

/-- The open transaction of a number. -/
def transaction? (s : Session) (n : Nat) : Option Transaction := (s.transactions[n]?).join

def step (s : Session) : StoreOp → Session × StoreAnswer
  | .openTransaction =>
      (⟨s.store.openTransaction.2, s.transactions ++ [some s.store.openTransaction.1]⟩, .done)
  | .apply n b =>
      match s.transaction? n with
      | none => (s, .absent)
      | some tx =>
          match tx.apply b with
          | .error e => (s, .applied (.error e))
          | .ok tx => ({ s with transactions := s.transactions.set n (some tx) }, .applied (.ok ()))
  | .commit n =>
      match s.transaction? n with
      | none => (s, .absent)
      | some tx => (⟨(s.store.commit tx).2, s.transactions.set n none⟩,
          .committed (s.store.commit tx).1)
  | .prepare b => ({ s with store := s.store.prepare b }, .done)
  | .commitPrepared b =>
      ({ s with store := (s.store.commitPrepared b).2 }, .committed (s.store.commitPrepared b).1)
  | .scriptCommitFailure => ({ s with store := s.store.scriptCommitFailure }, .done)
  | .scriptApplyFailure height =>
      ({ s with store := s.store.scriptApplyFailure height }, .done)

/-- The session after some operations. -/
def run (s : Session) (ops : List StoreOp) : Session := ops.foldl (fun s op => (s.step op).1) s

theorem run_append (s : Session) (xs ys : List StoreOp) :
    s.run (xs ++ ys) = (s.run xs).run ys := List.foldl_append

theorem run_concat (s : Session) (ops : List StoreOp) (op : StoreOp) :
    s.run (ops ++ [op]) = ((s.run ops).step op).1 := run_append s ops [op]

/-! ## What a step can do -/

/-- The ways a step can go. Where the chain changes, the new blocks are those
of a transaction opened on the present chain, or one prepared block. -/
inductive Step (s : Session) : StoreOp → Session → StoreAnswer → Prop where
  /-- Neither the chain nor a transaction is touched. -/
  | quiet {op : StoreOp} {store : Store} {answer : StoreAnswer} :
      s.store.SameChain store → ¬ answer.Succeeded → Step s op ⟨store, s.transactions⟩ answer
  | opened : Step s .openTransaction
      ⟨s.store.openTransaction.2, s.transactions ++ [some s.store.openTransaction.1]⟩ .done
  | applied {n : Nat} {b : Block} {tx tx' : Transaction} :
      s.transaction? n = some tx → tx.apply b = .ok tx' →
      Step s (.apply n b) ⟨s.store, s.transactions.set n (some tx')⟩ (.applied (.ok ()))
  | refused {n : Nat} {tx : Transaction} {store : Store} {e : StoreError} :
      s.transaction? n = some tx → s.store.SameChain store →
      Step s (.commit n) ⟨store, s.transactions.set n none⟩ (.committed (.error e))
  | committed {n : Nat} {tx : Transaction} {store : Store} {led : Ledger} :
      s.transaction? n = some tx → tx.base.toNat = s.store.blocks.length → tx.pending ≠ [] →
      store.blocks = s.store.blocks ++ tx.pending → store.peers = s.store.peers →
      Step s (.commit n) ⟨store, s.transactions.set n none⟩ (.committed (.ok led))
  | prepared {b : Block} {store : Store} {led : Ledger} :
      b.height.toNat = s.store.blocks.length + 1 →
      store.blocks = s.store.blocks ++ [b] → store.peers = s.store.peers →
      Step s (.commitPrepared b) ⟨store, s.transactions⟩ (.committed (.ok led))

/-- **Every step goes one of these ways.** -/
theorem step_cases (s : Session) (op : StoreOp) : Step s op (s.step op).1 (s.step op).2 := by
  have hsame : s.store.SameChain s.store := ⟨rfl, rfl, rfl, rfl, rfl⟩
  cases op with
  | openTransaction => exact .opened
  | prepare b => exact .quiet ⟨rfl, rfl, rfl, rfl, rfl⟩ id
  | scriptCommitFailure => exact .quiet ⟨rfl, rfl, rfl, rfl, rfl⟩ id
  | scriptApplyFailure height => exact .quiet ⟨rfl, rfl, rfl, rfl, rfl⟩ id
  | apply n b =>
      cases htx : s.transaction? n with
      | none =>
          simp only [step, htx]
          exact .quiet hsame id
      | some tx =>
          cases happly : tx.apply b with
          | error e =>
              simp only [step, htx, happly]
              exact .quiet hsame id
          | ok tx' =>
              simp only [step, htx, happly]
              exact .applied htx happly
  | commit n =>
      cases htx : s.transaction? n with
      | none =>
          simp only [step, htx]
          exact .quiet hsame id
      | some tx =>
          rcases hcommit : s.store.commit tx with ⟨e | led, store⟩
          · simp only [step, htx, hcommit]
            exact .refused htx (Store.sameChain_of_commit hcommit)
          · obtain ⟨hblocks, hpending, hbase, -⟩ := Store.commit_ok hcommit
            have hpeers := Store.peers_commit s.store tx
            rw [hcommit] at hpeers
            simp only [step, htx, hcommit]
            exact .committed htx hbase hpending hblocks hpeers
  | commitPrepared b =>
      rcases Store.commitPrepared_cases s.store b with
        ⟨e, hcommit⟩ | ⟨hheight, s', hcommit, hblocks, hpeers⟩
      · simp only [step, hcommit]
        exact .quiet hsame id
      · simp only [step, hcommit]
        exact .prepared hheight hblocks hpeers

/-- A refused block leaves the session as it was. -/
theorem step_apply_error {s : Session} {n : Nat} {b : Block} {e : Fault StoreError}
    (h : (s.step (.apply n b)).2 = .applied (.error e)) : (s.step (.apply n b)).1 = s := by
  unfold step at h ⊢
  dsimp only at h ⊢
  split at h
  · cases h
  · split at h
    · rfl
    · cases h

/-! ## The chain only grows -/

variable {s s' : Session} {op : StoreOp} {answer : StoreAnswer}

theorem Step.peers (h : Step s op s' answer) : s'.store.peers = s.store.peers := by
  cases h with
  | quiet hsame _ => exact hsame.peers
  | opened => rfl
  | applied _ _ => rfl
  | refused _ hsame => exact hsame.peers
  | committed _ _ _ _ hpeers => exact hpeers
  | prepared _ _ hpeers => exact hpeers

/-- A step adds blocks exactly when it answers a success. -/
theorem Step.blocks (h : Step s op s' answer) :
    ∃ new, s'.store.blocks = s.store.blocks ++ new ∧ (answer.Succeeded ↔ new ≠ []) := by
  cases h with
  | quiet hsame hfailed =>
      exact ⟨[], by rw [hsame.blocks, List.append_nil], by simp [hfailed]⟩
  | opened => exact ⟨[], (List.append_nil _).symm, by simp [StoreAnswer.Succeeded]⟩
  | applied _ _ => exact ⟨[], (List.append_nil _).symm, by simp [StoreAnswer.Succeeded]⟩
  | refused _ hsame =>
      exact ⟨[], by rw [hsame.blocks, List.append_nil], by simp [StoreAnswer.Succeeded]⟩
  | @committed _ tx _ _ _ _ hpending hblocks _ =>
      exact ⟨tx.pending, hblocks, by simp [StoreAnswer.Succeeded, hpending]⟩
  | @prepared b _ _ _ hblocks _ => exact ⟨[b], hblocks, by simp [StoreAnswer.Succeeded]⟩

theorem Step.sameChain_of_error {e : StoreError} (h : Step s op s' (.committed (.error e))) :
    s.store.SameChain s'.store := by
  cases h with
  | quiet hsame _ => exact hsame
  | refused _ hsame => exact hsame

theorem blocks_run (s : Session) (ops : List StoreOp) :
    s.store.blocks <+: (s.run ops).store.blocks := by
  induction ops using List.reverseRecOn with
  | nil => exact List.prefix_rfl
  | append_singleton ops op ih =>
      obtain ⟨new, hnew, -⟩ := (step_cases (s.run ops) op).blocks
      rw [run_concat, hnew]
      exact ih.trans (List.prefix_append _ _)

/-! ## The invariant -/

/-- The chain is numbered and all open transactions stand on it. -/
structure Consistent (s : Session) : Prop where
  numbered : Numbered s.store.blocks
  standsOn : ∀ n tx, s.transaction? n = some tx → tx.StandsOn s.store

theorem Consistent.start {s : Store} (h : Numbered s.blocks) : (start s).Consistent := by
  refine ⟨h, ?_⟩
  intro n tx htx
  cases htx

theorem transaction?_eq_some {n : Nat} {tx : Transaction} :
    s.transaction? n = some tx ↔ s.transactions[n]? = some (some tx) :=
  Option.join_eq_some_iff

theorem transaction?_set {store : Store} {n k : Nat} {new : Option Transaction} {tx : Transaction}
    (h : (⟨store, s.transactions.set n new⟩ : Session).transaction? k = some tx) :
    k = n ∧ new = some tx ∨ s.transaction? k = some tx := by
  rw [transaction?_eq_some, List.getElem?_set] at h
  by_cases hk : n = k
  · rw [if_pos hk] at h
    split at h
    · exact .inl ⟨hk.symm, Option.some.inj h⟩
    · cases h
  · rw [if_neg hk] at h
    exact .inr (transaction?_eq_some.mpr h)

theorem transaction?_concat {store : Store} {new tx : Transaction} {k : Nat}
    (h : (⟨store, s.transactions ++ [some new]⟩ : Session).transaction? k = some tx) :
    k = s.transactions.length ∧ tx = new ∨ s.transaction? k = some tx := by
  rw [transaction?_eq_some, List.getElem?_append] at h
  split at h
  · exact .inr (transaction?_eq_some.mpr h)
  · obtain ⟨hk, heq⟩ := List.getElem?_eq_some_iff.mp h
    rw [List.length_singleton] at hk
    refine .inl ⟨by omega, ?_⟩
    rw [List.getElem_singleton] at heq
    exact (Option.some.inj heq).symm

/-- A transaction that is open after a step was open before, perhaps with one
block less, or has just been opened. -/
theorem Step.transaction? (h : Step s op s' answer) {n : Nat} {tx : Transaction}
    (htx : s'.transaction? n = some tx) :
    s.transaction? n = some tx
      ∨ (∃ tx₀ b, s.transaction? n = some tx₀ ∧ tx₀.apply b = .ok tx)
      ∨ op = .openTransaction ∧ n = s.transactions.length ∧ tx = s.store.openTransaction.1 := by
  cases h with
  | quiet _ _ => exact .inl htx
  | opened =>
      rcases transaction?_concat htx with ⟨hn, rfl⟩ | htx
      · exact .inr (.inr ⟨rfl, hn, rfl⟩)
      · exact .inl htx
  | applied htx₀ happly =>
      rcases transaction?_set htx with ⟨rfl, heq⟩ | htx
      · cases heq
        exact .inr (.inl ⟨_, _, htx₀, happly⟩)
      · exact .inl htx
  | refused _ _ =>
      rcases transaction?_set htx with ⟨-, heq⟩ | htx
      · cases heq
      · exact .inl htx
  | committed _ _ _ _ _ =>
      rcases transaction?_set htx with ⟨-, heq⟩ | htx
      · cases heq
      · exact .inl htx
  | prepared _ _ _ => exact .inl htx

/-- Committed transactions carry the numbers on. -/
theorem Step.numbered (h : Step s op s' answer) (hs : s.Consistent) : Numbered s'.store.blocks := by
  cases h with
  | quiet hsame _ =>
      rw [hsame.blocks]
      exact hs.numbered
  | opened => exact hs.numbered
  | applied _ _ => exact hs.numbered
  | refused _ hsame =>
      rw [hsame.blocks]
      exact hs.numbered
  | committed htx hbase _ hblocks _ =>
      -- the base is the whole chain, so the transaction stands on the new one
      have hchain := (hs.standsOn _ _ htx).numbered
      rw [Transaction.chainOn, hbase, List.take_length] at hchain
      rwa [hblocks]
  | prepared hheight hblocks _ =>
      rw [hblocks]
      exact numbered_concat.mpr ⟨hs.numbered, hheight⟩

theorem Step.consistent (h : Step s op s' answer) (hs : s.Consistent) : s'.Consistent := by
  refine ⟨h.numbered hs, ?_⟩
  have hgrows : ∀ {tx : Transaction}, tx.StandsOn s.store → tx.StandsOn s'.store := by
    intro tx htx
    obtain ⟨new, hnew, -⟩ := h.blocks
    exact htx.grows h.peers ⟨new, hnew.symm⟩
  intro n tx htx
  rcases h.transaction? htx with htx | ⟨tx₀, b, htx₀, happly⟩ | ⟨-, -, rfl⟩
  · exact hgrows (hs.standsOn n tx htx)
  · exact hgrows ((hs.standsOn n tx₀ htx₀).apply happly)
  · exact hgrows (Transaction.standsOn_openTransaction hs.numbered)

theorem consistent_run {s : Session} (h : s.Consistent) (ops : List StoreOp) :
    (s.run ops).Consistent := by
  induction ops using List.reverseRecOn with
  | nil => exact h
  | append_singleton ops op ih =>
      rw [run_concat]
      exact (step_cases _ op).consistent ih

/-! ## Blocks that came from transactions -/

/-- The commit of some transaction put a block at the position. -/
def EnteredAt (s : Store) (ops : List StoreOp) (i : Nat) : Prop :=
  ∃ before n after, ops = before ++ .commit n :: after
    ∧ ((start s).run before).store.blocks.length ≤ i
    ∧ i < ((start s).run (before ++ [.commit n])).store.blocks.length

/-- The blocks of a commit are linked, since its transaction stands on the whole chain. -/
theorem Step.linkedAt {n i : Nat} (h : Step s (.commit n) s' answer) (hs : s.Consistent)
    (hlow : s.store.blocks.length ≤ i) (hhigh : i < s'.store.blocks.length) :
    LinkedAt s'.store.blocks i := by
  cases h with
  | quiet hsame _ =>
      rw [hsame.blocks] at hhigh
      omega
  | refused _ hsame =>
      rw [hsame.blocks] at hhigh
      omega
  | committed htx hbase _ hblocks _ =>
      have hlinked := (hs.standsOn _ _ htx).linked i (by omega)
      rw [Transaction.chainOn, hbase, List.take_length] at hlinked
      rwa [hblocks]

theorem linkedAt_run {ops : List StoreOp} {i : Nat} (h : LinkedAt s.store.blocks i)
    (hi : i < s.store.blocks.length) : LinkedAt (s.run ops).store.blocks i := by
  obtain ⟨more, hmore⟩ := blocks_run s ops
  rw [← hmore]
  exact (linkedAt_append hi).mpr h

theorem linkedAt_of_entered {s : Store} {ops : List StoreOp} {i : Nat} (hs : Numbered s.blocks)
    (h : EnteredAt s ops i) : LinkedAt ((start s).run ops).store.blocks i := by
  obtain ⟨before, n, after, rfl, hlow, hhigh⟩ := h
  have hlinked : LinkedAt ((start s).run (before ++ [.commit n])).store.blocks i := by
    rw [run_concat] at hhigh ⊢
    exact (step_cases _ _).linkedAt (consistent_run (.start hs) before) hlow hhigh
  rw [List.append_cons, run_append]
  exact linkedAt_run hlinked hhigh

/-! ## Commits and the openings before them -/

/-- No commit has succeeded since the transaction was opened. -/
def NoCommitSince (s : Store) (ops : List StoreOp) (n : Nat) : Prop :=
  ∃ before after, ops = before ++ .openTransaction :: after
    ∧ ((start s).run before).transactions.length = n
    ∧ ∀ mid op rest, after = mid ++ op :: rest →
        ¬ (((start s).run (before ++ .openTransaction :: mid)).step op).2.Succeeded

/-- An open transaction has as its base the length of the chain at its opening. -/
theorem opened_of_transaction? {s : Store} {ops : List StoreOp} {n : Nat} {tx : Transaction}
    (hs : Numbered s.blocks) (htx : ((start s).run ops).transaction? n = some tx) :
    ∃ before after, ops = before ++ .openTransaction :: after
      ∧ ((start s).run before).transactions.length = n
      ∧ tx.base.toNat = ((start s).run before).store.blocks.length := by
  -- on the last operation: either it opened the transaction or it kept the base
  induction ops using List.reverseRecOn generalizing tx with
  | nil => cases htx
  | append_singleton ops op ih =>
      rw [run_concat] at htx
      rcases (step_cases _ op).transaction? htx with htx | ⟨tx₀, b, htx₀, happly⟩ | ⟨rfl, hn, rfl⟩
      · obtain ⟨before, after, rfl, hopened, hlength⟩ := ih htx
        exact ⟨before, after ++ [op], by simp, hopened, hlength⟩
      · obtain ⟨before, after, rfl, hopened, hlength⟩ := ih htx₀
        obtain rfl := Transaction.eq_grow_of_apply happly
        exact ⟨before, after ++ [op], by simp, hopened, hlength⟩
      · have hnumbered := (consistent_run (.start hs) ops).numbered
        exact ⟨ops, [], rfl, hn.symm, hnumbered.height_ledger _⟩

theorem Step.base_of_committed {n : Nat} {led : Ledger}
    (h : Step s (.commit n) s' (.committed (.ok led))) :
    ∃ tx, s.transaction? n = some tx ∧ tx.base.toNat = s.store.blocks.length := by
  cases h with
  | quiet _ hfailed => exact absurd trivial hfailed
  | committed htx hbase _ _ _ => exact ⟨_, htx, hbase⟩

theorem Step.length_lt (h : Step s op s' answer) (hsuccess : answer.Succeeded) :
    s.store.blocks.length < s'.store.blocks.length := by
  obtain ⟨new, hnew, hiff⟩ := h.blocks
  have := List.length_pos_iff.mpr (hiff.mp hsuccess)
  rw [hnew, List.length_append]
  omega

/-- Where the chain is as long as at some time before, nothing was committed in between. -/
theorem not_succeeded_of_length_eq {s : Session} {before mid : List StoreOp} {op : StoreOp}
    (rest : List StoreOp)
    (h : (s.run (before ++ mid ++ op :: rest)).store.blocks.length
      = (s.run before).store.blocks.length) :
    ¬ ((s.run (before ++ mid)).step op).2.Succeeded := by
  -- a success would have made the chain longer, and it never gets shorter
  intro hsuccess
  have hgrown := (step_cases _ op).length_lt hsuccess
  have hfirst := (blocks_run (s.run before) mid).length_le
  have hlast := (blocks_run ((s.run (before ++ mid)).step op).1 rest).length_le
  rw [← run_append] at hfirst
  rw [← run_concat, ← run_append, ← List.append_cons] at hlast
  rw [run_concat] at hlast
  omega

/-- **First come, first served**: a commit succeeds only if no other has since
the transaction was opened. -/
theorem noCommitSince_of_committed {s : Store} {ops : List StoreOp} {n : Nat} {led : Ledger}
    (hs : Numbered s.blocks)
    (h : (((start s).run ops).step (.commit n)).2 = .committed (.ok led)) :
    NoCommitSince s ops n := by
  have hstep := step_cases ((start s).run ops) (.commit n)
  rw [h] at hstep
  obtain ⟨tx, htx, hbase⟩ := hstep.base_of_committed
  obtain ⟨before, after, rfl, hopened, hlength⟩ := opened_of_transaction? hs htx
  refine ⟨before, after, rfl, hopened, ?_⟩
  rintro mid op rest rfl
  apply not_succeeded_of_length_eq rest
  rw [← hlength, hbase]
  simp

/-- **Interleaved transactions keep the chain linear.** From a numbered and
linked chain, after any operations `ops` in any order and one more: the chain
is numbered and has the chain before as a prefix; the blocks it set out with
and all that came from transactions are linked; a transaction is committed
only if there was no commit since its opening; a refused block changes
nothing; a refused commit leaves chain and counters alone; and the tip is
height and hash of the last block. -/
theorem interleaved_sessions_linear {s : Store} (hnumbered : Numbered s.blocks)
    (hlinked : ∀ i, LinkedAt s.blocks i) (ops : List StoreOp) (op : StoreOp) :
    let before := (start s).run ops
    let after := (before.step op).1
    let answer := (before.step op).2
    Numbered after.store.blocks
      ∧ before.store.blocks <+: after.store.blocks
      ∧ (∀ i, i < s.blocks.length ∨ EnteredAt s (ops ++ [op]) i → LinkedAt after.store.blocks i)
      ∧ (∀ n led, op = .commit n → answer = .committed (.ok led) → NoCommitSince s ops n)
      ∧ (∀ n b e, op = .apply n b → answer = .applied (.error e) → after = before)
      ∧ (∀ e, answer = .committed (.error e) → before.store.SameChain after.store)
      ∧ after.store.tip.height.toNat = after.store.blocks.length
      ∧ (after.store.blocks = [] → after.store.tip = ⟨0, .zero⟩)
      ∧ ∀ b, after.store.blocks.getLast? = some b → after.store.tip = ⟨b.height, b.hash⟩ := by
  intro before after answer
  have hstep : Step before op after answer := step_cases before op
  have hafter : after = (start s).run (ops ++ [op]) := (run_concat _ ops op).symm
  have hnumbered' : Numbered after.store.blocks :=
    hstep.numbered (consistent_run (.start hnumbered) ops)
  refine ⟨hnumbered', ?_, ?_, ?_, ?_, ?_, ?_, ?_, ?_⟩
  · obtain ⟨new, hnew, -⟩ := hstep.blocks
    exact ⟨new, hnew.symm⟩
  · rintro i (hi | hi)
    · rw [hafter]
      exact linkedAt_run (hlinked i) hi
    · rw [hafter]
      exact linkedAt_of_entered hnumbered hi
  · rintro n led rfl hcommitted
    exact noCommitSince_of_committed hnumbered hcommitted
  · rintro n b e rfl hrefused
    exact step_apply_error hrefused
  · intro e herror
    rw [herror] at hstep
    exact hstep.sameChain_of_error
  · exact hnumbered'.height_ledger after.store.peers
  · intro hnil
    simp [Store.tip, hnil]
  · intro b hb
    simp [Store.tip, hb]

theorem first_of_two_commits :
    let b : Block := ⟨1, .zero, 0, [], .zero, []⟩
    let ops : List StoreOp := [.openTransaction, .openTransaction, .apply 0 b, .apply 1 b]
    let after := (((start (.ofChain [] [])).run ops).step (.commit 0)).1
    LinkedAt after.store.blocks 0 ∧ NoCommitSince (.ofChain [] []) ops 0 := by
  intro b ops after
  have hlinked : ∀ i, LinkedAt (Store.ofChain [] []).blocks i := by
    intro i c hc
    simp [Store.ofChain] at hc
  obtain ⟨-, -, hentered, hcommit, -⟩ :=
    interleaved_sessions_linear .nil hlinked ops (.commit 0)
  have hfirst : EnteredAt (.ofChain [] []) (ops ++ [.commit 0]) 0 :=
    ⟨ops, 0, [], rfl, by decide, by decide⟩
  exact ⟨hentered 0 (.inr hfirst), hcommit 0 _ rfl rfl⟩

end Session

end LedgerCommit
