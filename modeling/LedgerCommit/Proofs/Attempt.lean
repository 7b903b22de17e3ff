import LedgerCommit.Proofs.Certified
import LedgerCommit.Sync.Synchronizer

/-!
# Download attempts

An attempt to download is a sequence of exchanges: a request to a peer and
the blocks delivered for it. `Conversation` lists what can happen with one
peer and `Attempt` what can happen with a list of peers, each with the
exchanges that took place; every download is one of them, and its exchanges
are what a loader sees that keeps a record.

Three facts hold of all attempts: the transaction grows by certified blocks
only, each of them is in an answer, and the target is reached when the attempt
is a success.
-/

namespace LedgerCommit

/-- A request together with the blocks that were delivered for it. -/
structure Exchange where
  request : BlockRequest
  answer : List Block

/-- The number of blocks delivered in some exchanges. -/
def delivered (log : List Exchange) : Nat := (log.map fun e => e.answer.length).sum

@[simp]
theorem delivered_nil : delivered [] = 0 := rfl

@[simp]
theorem delivered_cons (e : Exchange) (log : List Exchange) :
    delivered (e :: log) = e.answer.length + delivered log := rfl

/-- Some answers of at most `k` blocks each deliver at most so many in all. -/
theorem delivered_le {log : List Exchange} {k : Nat} (h : ∀ e ∈ log, e.answer.length ≤ k) :
    delivered log ≤ log.length * k := by
  induction log with
  | nil => rw [delivered_nil]; exact Nat.zero_le _
  | cons e log ih =>
      have hrest := ih fun x hx => h x (List.mem_cons_of_mem e hx)
      have hfirst := h e List.mem_cons_self
      rw [delivered_cons, List.length_cons, Nat.succ_mul]
      omega

@[simp]
theorem delivered_append (xs ys : List Exchange) :
    delivered (xs ++ ys) = delivered xs + delivered ys := by
  simp [delivered]

/-- The loader that also keeps a record of its exchanges. -/
def Loader.recording {σ : Type} (L : Loader σ) : Loader (σ × List Exchange) where
  retrieve := fun (l, log) height peer =>
    ((L.retrieve l height peer).1,
      (L.retrieve l height peer).2, log ++ [⟨⟨peer, height⟩, (L.retrieve l height peer).1⟩])

/-- The blocks are what the loader hands out for the request in one of its states. -/
def Loader.Answered {σ : Type} (L : Loader σ) (e : Exchange) : Prop :=
  ∃ l, (L.retrieve l e.request.height e.request.peer).1 = e.answer

theorem Loader.answered_of_retrieve {σ : Type} {L : Loader σ} {l l' : σ} {height : UInt64}
    {peer : PublicKey} {blocks : List Block} (h : L.retrieve l height peer = (blocks, l')) :
    L.Answered ⟨⟨peer, height⟩, blocks⟩ := ⟨l, by rw [h]⟩

theorem Loader.retrieve_recording {σ : Type} {L : Loader σ} {l l' : σ} {height : UInt64}
    {peer : PublicKey} {blocks : List Block} (h : L.retrieve l height peer = (blocks, l'))
    (log : List Exchange) : L.recording.retrieve (l, log) height peer
      = (blocks, l', log ++ [⟨⟨peer, height⟩, blocks⟩]) := by
  simp [recording, h]

namespace Synchronizer

variable {σ : Type} {L : Loader σ} {m : FaultModel} {p : SyncPolicy} {target : UInt64}
  {peer : PublicKey} {peers : List PublicKey}

/-! ## One peer -/

/-- The requests to one peer, of which `n` are allowed, from one transaction
and loader to the result and the loader after it. -/
inductive Conversation (L : Loader σ) (m : FaultModel) (target : UInt64) (peer : PublicKey) :
    Nat → Transaction → σ → List Exchange → Except Overflow (Bool × Transaction) → σ → Prop where
  /-- No request is left. -/
  | spent (tx : Transaction) (l : σ) :
      Conversation L m target peer 0 tx l [] (.ok (false, tx)) l
  /-- A check or an application overflows. -/
  | overflow {n : Nat} {tx : Transaction} {l l' : σ} {blocks : List Block} {o : Overflow} :
      L.retrieve l tx.ledger.height peer = (blocks, l') →
      Validation.absorb m tx blocks = .error o →
      Conversation L m target peer (n + 1) tx l [⟨⟨peer, tx.ledger.height⟩, blocks⟩] (.error o) l'
  /-- All blocks are valid and the target is reached. -/
  | reached {n : Nat} {tx tx' : Transaction} {l l' : σ} {blocks : List Block} :
      L.retrieve l tx.ledger.height peer = (blocks, l') →
      Validation.absorb m tx blocks = .ok (true, tx') →
      target ≤ tx'.ledger.height →
      Conversation L m target peer (n + 1) tx l [⟨⟨peer, tx.ledger.height⟩, blocks⟩]
        (.ok (true, tx')) l'
  /-- All blocks are valid and there are new ones: the peer is asked again. -/
  | again {n : Nat} {tx tx' : Transaction} {l l' l'' : σ} {blocks : List Block}
      {log : List Exchange} {r : Except Overflow (Bool × Transaction)} :
      L.retrieve l tx.ledger.height peer = (blocks, l') →
      Validation.absorb m tx blocks = .ok (true, tx') →
      ¬ target ≤ tx'.ledger.height →
      tx.ledger.height < tx'.ledger.height →
      Conversation L m target peer n tx' l' log r l'' →
      Conversation L m target peer (n + 1) tx l (⟨⟨peer, tx.ledger.height⟩, blocks⟩ :: log) r l''
  /-- A block is refused, or there is no new one: the peer is left. -/
  | stopped {n : Nat} {tx tx' : Transaction} {l l' : σ} {blocks : List Block} {valid : Bool} :
      L.retrieve l tx.ledger.height peer = (blocks, l') →
      Validation.absorb m tx blocks = .ok (valid, tx') →
      (valid = true → ¬ target ≤ tx'.ledger.height ∧ ¬ tx.ledger.height < tx'.ledger.height) →
      Conversation L m target peer (n + 1) tx l [⟨⟨peer, tx.ledger.height⟩, blocks⟩]
        (.ok (false, tx')) l'

/-- Asking a peer is one of the conversations. -/
theorem exists_conversation (L : Loader σ) (m : FaultModel) (target : UInt64) (peer : PublicKey)
    (n : Nat) (tx : Transaction) (l : σ) :
    ∃ log, Conversation L m target peer n tx l log (askPeer L m target peer n tx l).1
      (askPeer L m target peer n tx l).2 := by
  induction n generalizing tx l with
  | zero => exact ⟨[], .spent tx l⟩
  | succ n ih =>
      rcases hanswer : L.retrieve l tx.ledger.height peer with ⟨blocks, l'⟩
      simp only [askPeer, hanswer]
      cases habsorb : Validation.absorb m tx blocks with
      | error o => exact ⟨_, .overflow hanswer habsorb⟩
      | ok r =>
          obtain ⟨valid, tx'⟩ := r
          -- the loop tests the two ways on in this order, all else is a stop
          by_cases hreached : valid = true ∧ target ≤ tx'.ledger.height
          · obtain ⟨rfl, hle⟩ := hreached
            simp only [hle, decide_true, Bool.and_self, if_true]
            exact ⟨_, .reached hanswer habsorb hle⟩
          · by_cases hagain : valid = true ∧ tx.ledger.height < tx'.ledger.height
            · obtain ⟨rfl, hlt⟩ := hagain
              have hle : ¬ target ≤ tx'.ledger.height := fun h => hreached ⟨rfl, h⟩
              obtain ⟨log, hlog⟩ := ih tx' l'
              simp only [hle, hlt, decide_false, decide_true, Bool.and_false, Bool.and_true,
                Bool.false_eq_true, if_false, if_true]
              exact ⟨_, .again hanswer habsorb hle hlt hlog⟩
            · have hstop : valid = true →
                  ¬ target ≤ tx'.ledger.height ∧ ¬ tx.ledger.height < tx'.ledger.height :=
                fun hv => ⟨fun h => hreached ⟨hv, h⟩, fun h => hagain ⟨hv, h⟩⟩
              simp only [Bool.and_eq_true, decide_eq_true_eq, hreached, hagain, if_false]
              exact ⟨_, .stopped hanswer habsorb hstop⟩

/-- A conversation is what asking the peer does, and its exchanges are what
is recorded. -/
theorem Conversation.askPeer_eq {n : Nat} {tx : Transaction} {l l' : σ} {log : List Exchange}
    {r : Except Overflow (Bool × Transaction)}
    (h : Conversation L m target peer n tx l log r l') (before : List Exchange) :
    askPeer L.recording m target peer n tx (l, before) = (r, l', before ++ log) := by
  induction h generalizing before with
  | spent tx l => rw [List.append_nil]; rfl
  | overflow hanswer habsorb =>
      simp [askPeer, Loader.retrieve_recording hanswer, habsorb]
  | reached hanswer habsorb hle =>
      simp [askPeer, Loader.retrieve_recording hanswer, habsorb, hle]
  | again hanswer habsorb hle hlt _ ih =>
      simp [askPeer, Loader.retrieve_recording hanswer, habsorb, hle, hlt, ih]
  | @stopped n tx tx' l l' blocks valid hanswer habsorb hstop =>
      cases valid with
      | false => simp [askPeer, Loader.retrieve_recording hanswer, habsorb]
      | true =>
          obtain ⟨hle, hlt⟩ := hstop rfl
          simp [askPeer, Loader.retrieve_recording hanswer, habsorb, hle, hlt]

/-! ## A list of peers -/

/-- The conversations with the peers of a list, in order, until one of them
reaches the target or overflows. -/
inductive Attempt (L : Loader σ) (p : SyncPolicy) (target : UInt64) :
    List PublicKey → Transaction → σ → List Exchange → Except Overflow (Bool × Transaction) → σ →
      Prop where
  /-- No peer is left. -/
  | exhausted (tx : Transaction) (l : σ) : Attempt L p target [] tx l [] (.ok (false, tx)) l
  /-- A peer is left and the next one is asked. -/
  | next {peer : PublicKey} {peers : List PublicKey} {tx tx' : Transaction} {l l' l'' : σ}
      {log log' : List Exchange} {r : Except Overflow (Bool × Transaction)} :
      Conversation L p.model target peer p.maxRequests tx l log (.ok (false, tx')) l' →
      Attempt L p target peers tx' l' log' r l'' →
      Attempt L p target (peer :: peers) tx l (log ++ log') r l''
  /-- A peer completes the chain. -/
  | reached {peer : PublicKey} {peers : List PublicKey} {tx tx' : Transaction} {l l' : σ}
      {log : List Exchange} :
      Conversation L p.model target peer p.maxRequests tx l log (.ok (true, tx')) l' →
      Attempt L p target (peer :: peers) tx l log (.ok (true, tx')) l'
  /-- An overflow breaks the attempt off. -/
  | overflow {peer : PublicKey} {peers : List PublicKey} {tx : Transaction} {l l' : σ}
      {log : List Exchange} {o : Overflow} :
      Conversation L p.model target peer p.maxRequests tx l log (.error o) l' →
      Attempt L p target (peer :: peers) tx l log (.error o) l'

/-- Asking peers in turn is one of the attempts. -/
theorem exists_attempt (L : Loader σ) (p : SyncPolicy) (target : UInt64) (peers : List PublicKey)
    (tx : Transaction) (l : σ) :
    ∃ log, Attempt L p target peers tx l log (askPeers L p target peers tx l).1
      (askPeers L p target peers tx l).2 := by
  induction peers generalizing tx l with
  | nil => exact ⟨[], .exhausted tx l⟩
  | cons peer peers ih =>
      obtain ⟨log, hlog⟩ := exists_conversation L p.model target peer p.maxRequests tx l
      rw [askPeers]
      rcases hask : askPeer L p.model target peer p.maxRequests tx l with ⟨o | ⟨done, tx'⟩, l'⟩
      · rw [hask] at hlog
        exact ⟨log, .overflow hlog⟩
      · rw [hask] at hlog
        cases done with
        | false =>
            obtain ⟨log', hlog'⟩ := ih tx' l'
            exact ⟨log ++ log', .next hlog hlog'⟩
        | true => exact ⟨log, .reached hlog⟩

/-- An attempt is what asking the peers does, and its exchanges are what is
recorded. -/
theorem Attempt.askPeers_eq {tx : Transaction} {l l' : σ} {log : List Exchange}
    {r : Except Overflow (Bool × Transaction)} (h : Attempt L p target peers tx l log r l')
    (before : List Exchange) :
    askPeers L.recording p target peers tx (l, before) = (r, l', before ++ log) := by
  induction h generalizing before with
  | exhausted tx l => rw [List.append_nil]; rfl
  | next hpeer _ ih => simp only [askPeers, hpeer.askPeer_eq, ih, List.append_assoc]
  | reached hpeer => simp only [askPeers, hpeer.askPeer_eq]
  | overflow hpeer => simp only [askPeers, hpeer.askPeer_eq]

/-! ## A download -/

/-- The exchanges of a download. -/
def exchanges (L : Loader σ) (p : SyncPolicy) (s : Store) (l : σ) (target : UInt64)
    (peers : List PublicKey) : List Exchange :=
  (download L.recording p s (l, []) target peers).loader.2

/-- The ways a download can go, with its exchanges and what it leaves. -/
inductive Download (L : Loader σ) (p : SyncPolicy) (s : Store) (l : σ) (target : UInt64)
    (peers : List PublicKey) :
    List Exchange → Run σ (Except (Fault SyncError) (Option Ledger)) → Prop where
  /-- The committed ledger had reached the target. -/
  | alreadyThere : target ≤ s.ledger.height →
      Download L p s l target peers [] ⟨.ok none, s.openTransaction.2, l⟩
  /-- A check or an application overflowed. -/
  | overflow {log : List Exchange} {o : Overflow} {l' : σ} :
      ¬ target ≤ s.ledger.height →
      Attempt L p target peers s.openTransaction.1 l log (.error o) l' →
      Download L p s l target peers log ⟨.error (.overflow o), s.openTransaction.2, l'⟩
  /-- No peer completed the chain. -/
  | exhausted {log : List Exchange} {tx : Transaction} {l' : σ} :
      ¬ target ≤ s.ledger.height →
      Attempt L p target peers s.openTransaction.1 l log (.ok (false, tx)) l' →
      Download L p s l target peers log
        ⟨.error (.failed (.peersExhausted target tx.ledger.height)), s.openTransaction.2, l'⟩
  /-- The chain was complete and the store refused it. -/
  | refused {log : List Exchange} {tx : Transaction} {l' : σ} {e : StoreError} {s' : Store} :
      ¬ target ≤ s.ledger.height →
      Attempt L p target peers s.openTransaction.1 l log (.ok (true, tx)) l' →
      s.openTransaction.2.commit tx = (.error e, s') →
      Download L p s l target peers log ⟨.error (.failed (.store e)), s', l'⟩
  /-- The chain was complete and is committed. -/
  | committed {log : List Exchange} {tx : Transaction} {l' : σ} {led : Ledger} {s' : Store} :
      ¬ target ≤ s.ledger.height →
      Attempt L p target peers s.openTransaction.1 l log (.ok (true, tx)) l' →
      s.openTransaction.2.commit tx = (.ok led, s') →
      Download L p s l target peers log ⟨.ok (some led), s', l'⟩

/-- A download below its target makes an attempt, and the exchanges are those recorded. -/
theorem attempt_exchanges (L : Loader σ) (p : SyncPolicy) (peers : List PublicKey) (l : σ)
    {s : Store} (hbelow : ¬ target ≤ s.ledger.height) :
    Attempt L p target peers s.openTransaction.1 l (exchanges L p s l target peers)
      (askPeers L p target peers s.openTransaction.1 l).1
      (askPeers L p target peers s.openTransaction.1 l).2 := by
  have hopen : ¬ target ≤ s.openTransaction.1.ledger.height := hbelow
  obtain ⟨log, hlog⟩ := exists_attempt L p target peers s.openTransaction.1 l
  have hrecord := hlog.askPeers_eq []
  rw [List.nil_append] at hrecord
  have hexchanges : exchanges L p s l target peers = log := by
    rcases hask : askPeers L p target peers s.openTransaction.1 l with ⟨o | ⟨done, tx⟩, l'⟩
    · rw [hask] at hrecord
      simp only [exchanges, download, if_neg hopen, hrecord]
    · rw [hask] at hrecord
      cases done <;> simp only [exchanges, download, if_neg hopen, hrecord]
  rwa [hexchanges]

/-- **Every download goes one of these ways.** -/
theorem download_cases (L : Loader σ) (p : SyncPolicy) (s : Store) (l : σ) (target : UInt64)
    (peers : List PublicKey) (start : UInt64) :
    Download L p s l target peers (exchanges L p s l target peers)
      (download L p s l target peers start) := by
  by_cases hthere : target ≤ s.ledger.height
  · have hrun : ∀ {τ : Type} (M : Loader τ) (k : τ) (start : UInt64),
        download M p s k target peers start = ⟨.ok none, s.openTransaction.2, k⟩ := by
      intro τ M k start
      simp [download, Store.openTransaction, hthere]
    rw [exchanges, hrun, hrun]
    exact .alreadyThere hthere
  · have hopen : ¬ target ≤ s.openTransaction.1.ledger.height := hthere
    have hlog := attempt_exchanges L p peers l hthere
    generalize exchanges L p s l target peers = log at hlog
    rcases hask : askPeers L p target peers s.openTransaction.1 l with ⟨o | ⟨done, tx⟩, l'⟩
    · rw [hask] at hlog
      simp only [download, if_neg hopen, hask]
      exact .overflow hthere hlog
    · rw [hask] at hlog
      cases done with
      | false =>
          simp only [download, if_neg hopen, hask]
          exact .exhausted hthere hlog
      | true =>
          simp only [download, if_neg hopen, hask]
          rcases hcommit : s.openTransaction.2.commit tx with ⟨e | led, s'⟩
          · exact .refused hthere hlog hcommit
          · exact .committed hthere hlog hcommit

/-- A download that makes requests makes those of an attempt. -/
theorem Download.attempt {s : Store} {l : σ} {log : List Exchange}
    {run : Run σ (Except (Fault SyncError) (Option Ledger))}
    (h : Download L p s l target peers log run) :
    log = [] ∨ ∃ r l', Attempt L p target peers s.openTransaction.1 l log r l' := by
  cases h with
  | alreadyThere => exact .inl rfl
  | overflow _ hattempt => exact .inr ⟨_, _, hattempt⟩
  | exhausted _ hattempt => exact .inr ⟨_, _, hattempt⟩
  | refused _ hattempt => exact .inr ⟨_, _, hattempt⟩
  | committed _ hattempt => exact .inr ⟨_, _, hattempt⟩

/-! ## What is asked -/

theorem Conversation.answered {n : Nat} {tx : Transaction} {l l' : σ} {log : List Exchange}
    {r : Except Overflow (Bool × Transaction)}
    (h : Conversation L m target peer n tx l log r l') : ∀ e ∈ log, L.Answered e := by
  induction h with
  | spent => simp
  | overflow hanswer _ => simpa using Loader.answered_of_retrieve hanswer
  | reached hanswer _ _ => simpa using Loader.answered_of_retrieve hanswer
  | again hanswer _ _ _ _ ih =>
      exact List.forall_mem_cons.mpr ⟨Loader.answered_of_retrieve hanswer, ih⟩
  | stopped hanswer _ _ => simpa using Loader.answered_of_retrieve hanswer

theorem Conversation.length_le {n : Nat} {tx : Transaction} {l l' : σ} {log : List Exchange}
    {r : Except Overflow (Bool × Transaction)}
    (h : Conversation L m target peer n tx l log r l') : log.length ≤ n := by
  induction h with
  | spent => exact Nat.zero_le _
  | again _ _ _ _ _ ih => exact Nat.succ_le_succ ih
  | overflow | reached | stopped => exact Nat.succ_le_succ (Nat.zero_le _)

/-- Everything in an exchange was handed out by the loader. -/
theorem Attempt.answered {tx : Transaction} {l l' : σ} {log : List Exchange}
    {r : Except Overflow (Bool × Transaction)} (h : Attempt L p target peers tx l log r l') :
    ∀ e ∈ log, L.Answered e := by
  induction h with
  | exhausted => simp
  | next hpeer _ ih =>
      intro e he
      exact (List.mem_append.mp he).elim (hpeer.answered e) (ih e)
  | reached hpeer => exact hpeer.answered
  | overflow hpeer => exact hpeer.answered

/-- Each peer gets its number of requests at most. -/
theorem Attempt.length_le {tx : Transaction} {l l' : σ} {log : List Exchange}
    {r : Except Overflow (Bool × Transaction)} (h : Attempt L p target peers tx l log r l') :
    log.length ≤ peers.length * p.maxRequests := by
  induction h with
  | exhausted => exact Nat.zero_le _
  | next hpeer _ ih =>
      have := hpeer.length_le
      rw [List.length_append, List.length_cons, Nat.succ_mul]
      omega
  | reached hpeer | overflow hpeer =>
      have := hpeer.length_le
      rw [List.length_cons, Nat.succ_mul]
      omega

theorem answered_of_mem_exchanges {s : Store} {l : σ} {e : Exchange}
    (h : e ∈ exchanges L p s l target peers) : L.Answered e := by
  rcases (download_cases L p s l target peers 0).attempt with hnone | ⟨r, l', hattempt⟩
  · rw [hnone] at h
    cases h
  · exact hattempt.answered e h

theorem length_exchanges_le (L : Loader σ) (p : SyncPolicy) (s : Store) (l : σ) (target : UInt64)
    (peers : List PublicKey) :
    (exchanges L p s l target peers).length ≤ peers.length * p.maxRequests := by
  rcases (download_cases L p s l target peers 0).attempt with hnone | ⟨r, l', hattempt⟩
  · rw [hnone]
    exact Nat.zero_le _
  · exact hattempt.length_le

/-! ## What all attempts keep -/

/-- What one peer delivers only adds certified blocks, and a success is at the target. -/
theorem Conversation.grows {n : Nat} {tx tx' : Transaction} {l l' : σ} {log : List Exchange}
    {r : Except Overflow (Bool × Transaction)} {done : Bool}
    (h : Conversation L m target peer n tx l log r l') (hr : r = .ok (done, tx')) :
    ∃ new, tx' = tx.grow new ∧ Validation.Certified m tx.ledger new
      ∧ (done = true → target ≤ tx'.ledger.height) := by
  induction h with
  | spent tx l =>
      cases hr
      exact ⟨[], by simp, trivial, by simp⟩
  | overflow => cases hr
  | reached _ habsorb hle =>
      cases hr
      obtain ⟨new, -, hgrow, hcertified, -⟩ := Validation.absorb_eq_ok habsorb
      exact ⟨new, hgrow, hcertified, fun _ => hle⟩
  | again _ habsorb _ _ _ ih =>
      obtain ⟨new, -, rfl, hcertified, -⟩ := Validation.absorb_eq_ok habsorb
      obtain ⟨more, rfl, hmore, hdone⟩ := ih hr
      exact ⟨new ++ more, by simp, Validation.certified_append.mpr ⟨hcertified, hmore⟩, hdone⟩
  | stopped _ habsorb _ =>
      cases hr
      obtain ⟨new, -, hgrow, hcertified, -⟩ := Validation.absorb_eq_ok habsorb
      exact ⟨new, hgrow, hcertified, by simp⟩

/-- Whatever the peers deliver, the transaction grows by certified blocks
only, and a success is at the target. -/
theorem Attempt.grows {tx tx' : Transaction} {l l' : σ} {log : List Exchange}
    {r : Except Overflow (Bool × Transaction)} {done : Bool}
    (h : Attempt L p target peers tx l log r l') (hr : r = .ok (done, tx')) :
    ∃ new, tx' = tx.grow new ∧ Validation.Certified p.model tx.ledger new
      ∧ (done = true → target ≤ tx'.ledger.height) := by
  induction h with
  | exhausted tx l =>
      cases hr
      exact ⟨[], by simp, trivial, by simp⟩
  | next hpeer _ ih =>
      obtain ⟨new, rfl, hcertified, -⟩ := hpeer.grows rfl
      obtain ⟨more, rfl, hmore, hdone⟩ := ih hr
      exact ⟨new ++ more, by simp, Validation.certified_append.mpr ⟨hcertified, hmore⟩, hdone⟩
  | reached hpeer => exact hpeer.grows hr
  | overflow => cases hr

/-- A block of the transaction was in it before or is in an answer of the peer. -/
theorem Conversation.mem_answer {n : Nat} {tx tx' : Transaction} {l l' : σ} {log : List Exchange}
    {r : Except Overflow (Bool × Transaction)} {done : Bool} {b : Block}
    (h : Conversation L m target peer n tx l log r l') (hr : r = .ok (done, tx'))
    (hb : b ∈ tx'.pending) : b ∈ tx.pending ∨ ∃ e ∈ log, b ∈ e.answer := by
  -- one answer is absorbed in each exchange
  have hanswered : ∀ {e : Exchange} {tx tx' : Transaction} {valid : Bool},
      Validation.absorb m tx e.answer = .ok (valid, tx') → b ∈ tx'.pending →
      ∀ log, b ∈ tx.pending ∨ ∃ x ∈ e :: log, b ∈ x.answer := by
    intro e tx tx' valid habsorb hb log
    rcases Validation.mem_of_absorb habsorb hb with hold | hnew
    · exact .inl hold
    · exact .inr ⟨e, List.mem_cons_self, hnew⟩
  induction h with
  | spent =>
      cases hr
      exact .inl hb
  | overflow => cases hr
  | reached _ habsorb _ =>
      cases hr
      exact hanswered habsorb hb []
  | again _ habsorb _ _ _ ih =>
      rcases ih hr with hold | ⟨e, he, hnew⟩
      · exact hanswered habsorb hold _
      · exact .inr ⟨e, List.mem_cons_of_mem _ he, hnew⟩
  | stopped _ habsorb _ =>
      cases hr
      exact hanswered habsorb hb []

/-- A block of the transaction was in it before or is in an answer. -/
theorem Attempt.mem_answer {tx tx' : Transaction} {l l' : σ} {log : List Exchange}
    {r : Except Overflow (Bool × Transaction)} {done : Bool} {b : Block}
    (h : Attempt L p target peers tx l log r l') (hr : r = .ok (done, tx'))
    (hb : b ∈ tx'.pending) : b ∈ tx.pending ∨ ∃ e ∈ log, b ∈ e.answer := by
  induction h with
  | exhausted =>
      cases hr
      exact .inl hb
  | next hpeer _ ih =>
      rcases ih hr with hold | ⟨e, he, hnew⟩
      · rcases hpeer.mem_answer rfl hold with hold | ⟨e, he, hnew⟩
        · exact .inl hold
        · exact .inr ⟨e, List.mem_append_left _ he, hnew⟩
      · exact .inr ⟨e, List.mem_append_right _ he, hnew⟩
  | reached hpeer => exact hpeer.mem_answer hr hb
  | overflow => cases hr

end Synchronizer

end LedgerCommit
