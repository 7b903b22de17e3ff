import LedgerCommit.Proofs.Chain
import LedgerCommit.Proofs.Download
import LedgerCommit.Proofs.NeutralKey

/-!
# One honest peer suffices

An honest peer serves a chain that is certified on top of the committed one
and reaches the target. The other peers deliver what they like, as long as
nobody forks that chain. The transaction then stays `OnTrack`: what it holds
agrees with the honest chain as far as both go, so the honest answer always
links to it and completes it.
-/

namespace LedgerCommit

open Validation

/-! ## The invariant of the transaction -/

/-- Where the block passes the check on top of a block of `chain`, it has the
hash of the next one. -/
def NoFork (m : FaultModel) (ledger : Ledger) (chain : List Block) (b : Block) : Prop :=
  ∀ i c, chain[i]? = some c → check m b (ledger.extendAll (chain.take i)) = .ok () →
    b.hash = c.hash

section

variable {m : FaultModel} {ledger : Ledger} {chain new taken : List Block} {b : Block}

/-- A block that does not fork the chain keeps the transaction on track. -/
theorem OnTrack.concat (h : OnTrack m ledger chain new) (hchain : Certified m ledger chain)
    (hcheck : check m b (ledger.extendAll new) = .ok ()) (hfork : NoFork m ledger chain b) :
    OnTrack m ledger chain (new ++ [b]) := by
  refine ⟨certified_append.mpr ⟨h.certified, certified_singleton.mpr hcheck⟩, ?_⟩
  intro i x c hx hc
  rcases getElem?_concat_eq_some.mp hx with hx | ⟨rfl, rfl⟩
  · exact h.agrees i x c hx hc
  · have hle : new.length ≤ chain.length := Nat.le_of_lt (List.getElem?_eq_some_iff.mp hc).1
    rw [h.extendAll_eq hchain hle] at hcheck
    exact hfork _ c hc hcheck

theorem OnTrack.append (h : OnTrack m ledger chain new) (hchain : Certified m ledger chain)
    (htaken : Certified m (ledger.extendAll new) taken)
    (hfork : ∀ b ∈ taken, NoFork m ledger chain b) : OnTrack m ledger chain (new ++ taken) := by
  induction taken generalizing new with
  | nil => rwa [List.append_nil]
  | cons b rest ih =>
      have hb := h.concat hchain htaken.1 (hfork b (by simp))
      rw [List.append_cons]
      apply ih hb
      · rw [Ledger.extendAll_append]
        exact htaken.2
      · exact fun x hx => hfork x (by simp [hx])

/-- The blocks of a certified chain above a height in it are those behind it. -/
theorem blocksAbove_of_certified (hchain : Certified m ledger chain) {height : UInt64} {n : Nat}
    (hheight : height.toNat = ledger.height.toNat + n) :
    blocksAbove height chain = chain.drop n := by
  -- heights go up along the chain, so the filter cuts it in two
  have hlow : (chain.take n).filter (height < ·.height) = [] := by
    rw [List.filter_eq_nil_iff]
    intro b hb hlt
    obtain ⟨i, hi⟩ := List.getElem?_of_mem hb
    have hin : i < n := by
      have := (List.getElem?_eq_some_iff.mp hi).1
      rw [List.length_take] at this
      omega
    rw [List.getElem?_take_of_lt hin] at hi
    have := hchain.height_getElem hi
    have := UInt64.lt_iff_toNat_lt.mp (of_decide_eq_true hlt)
    omega
  have hhigh : (chain.drop n).filter (height < ·.height) = chain.drop n := by
    rw [List.filter_eq_self]
    intro b hb
    obtain ⟨i, hi⟩ := List.getElem?_of_mem hb
    rw [List.getElem?_drop] at hi
    have := hchain.height_getElem hi
    exact decide_eq_true (UInt64.lt_iff_toNat_lt.mpr (by omega))
  rw [blocksAbove]
  conv_lhs => rw [← List.take_append_drop n chain]
  rw [List.filter_append, hlow, hhigh, List.nil_append]

/-- What is missing of the chain is certified on top of what is on track. -/
theorem OnTrack.certified_drop (h : OnTrack m ledger chain new)
    (hchain : Certified m ledger chain) :
    Certified m (ledger.extendAll new) (chain.drop new.length) := by
  rcases Nat.lt_or_ge chain.length new.length with hlt | hle
  · rw [List.drop_eq_nil_of_le (Nat.le_of_lt hlt)]
    trivial
  · rw [h.extendAll_eq hchain hle]
    exact hchain.drop _

/-- The honest peer answers with its chain above the height asked for, and
nobody forks the chain. -/
structure Fair (m : FaultModel) (ledger : Ledger) (chain : List Block) (honest : PublicKey)
    (e : Exchange) : Prop where
  answer : e.request.peer = honest → e.answer = blocksAbove e.request.height chain
  noFork : ∀ b ∈ e.answer, NoFork m ledger chain b

/-- Any answer without a fork keeps the transaction on track. -/
theorem OnTrack.absorb {honest : PublicKey} {tx : Transaction}
    (h : OnTrack m tx.ledger chain new) (hchain : Certified m tx.ledger chain)
    (hpeers : tx.ledger.peers.length < 2 ^ 62) {e : Exchange}
    (hfair : Fair m tx.ledger chain honest e)
    (hroom : tx.ledger.height.toNat + new.length + e.answer.length < 2 ^ 64)
    {r : Except Overflow (Bool × Transaction)}
    (hr : Validation.absorb m (tx.grow new) e.answer = r) :
    ∃ valid taken, r = .ok (valid, tx.grow (new ++ taken))
      ∧ OnTrack m tx.ledger chain (new ++ taken) ∧ taken.length ≤ e.answer.length := by
  have hheight := h.certified.height_extendAll
  obtain ⟨valid, tx', habsorb⟩ := absorb_total m (tx.grow new) e.answer
    (by rwa [Transaction.ledger_grow, Ledger.peers_extendAll])
    (by rw [Transaction.ledger_grow]; omega)
  obtain ⟨taken, hfront, rfl, hcertified, -⟩ := absorb_eq_ok habsorb
  rw [Transaction.grow_grow, hr] at habsorb
  exact ⟨valid, taken, habsorb,
    h.append hchain hcertified (fun b hb => hfair.noFork b (hfront.subset hb)), hfront.length_le⟩

/-- The hash that the honest chain has at a height is the one committed there. -/
theorem OnTrack.hash_blockAt {s s' : Store}
    (h : OnTrack m s.ledger chain new) (hchain : Certified m s.ledger chain)
    (hnumbered : Numbered s.blocks) (hblocks : s'.blocks = s.blocks ++ new) {c : Block}
    (hc : c ∈ chain) (hle : c.height ≤ s'.ledger.height) :
    (s'.blockAt c.height).map Block.hash = some c.hash := by
  obtain ⟨i, hi⟩ := List.getElem?_of_mem hc
  have hbase : s.ledger.height.toNat = s.blocks.length := hnumbered.height_ledger s.peers
  have hnumbered' : Numbered s'.blocks := by
    rw [hblocks]
    exact hnumbered.append_certified s.peers h.certified
  have htop : s'.ledger.height.toNat = s.blocks.length + new.length := by
    rw [← List.length_append, ← hblocks]
    exact hnumbered'.height_ledger s'.peers
  have hheight : c.height.toNat = (s.blocks.length + i) + 1 := by
    rw [hchain.height_getElem hi, hbase]
  have hin : i < new.length := by
    have := UInt64.le_iff_toNat_le.mp hle
    omega
  have hb : new[i]? = some new[i] := List.getElem?_eq_getElem hin
  rw [Store.blockAt_eq hheight, hblocks, List.getElem?_append_right (Nat.le_add_right _ _),
    Nat.add_sub_cancel_left, hb, Option.map_some, h.agrees i _ c hb hi]

end

namespace Synchronizer

/-! ## What fair exchanges lead to -/

section

variable {σ : Type} {L : Loader σ} {m : FaultModel} {target : UInt64} {peer honest : PublicKey}
  {chain new : List Block} {tx : Transaction} {l l' : σ} {log : List Exchange}
  {r : Except Overflow (Bool × Transaction)}

/-- Nothing overflows in a fair conversation, and the transaction stays on track. -/
theorem Conversation.onTrack {n : Nat}
    (h : Conversation L m target peer n (tx.grow new) l log r l')
    (hon : OnTrack m tx.ledger chain new) (hchain : Certified m tx.ledger chain)
    (hpeers : tx.ledger.peers.length < 2 ^ 62)
    (hfair : ∀ e ∈ log, Fair m tx.ledger chain honest e)
    (hroom : tx.ledger.height.toNat + new.length + delivered log < 2 ^ 64) :
    ∃ done new', r = .ok (done, tx.grow new') ∧ OnTrack m tx.ledger chain new'
      ∧ new'.length ≤ new.length + delivered log := by
  generalize htx : tx.grow new = tx₁ at h
  induction h generalizing new with
  | spent => exact ⟨false, new, by rw [htx], hon, by simp⟩
  | overflow _ habsorb =>
      subst htx
      obtain ⟨valid, taken, heq, -, -⟩ := hon.absorb hchain hpeers (hfair _ List.mem_cons_self)
        hroom habsorb
      cases heq
  | reached _ habsorb _ =>
      subst htx
      obtain ⟨valid, taken, heq, htaken, hlength⟩ :=
        hon.absorb hchain hpeers (hfair _ List.mem_cons_self) hroom habsorb
      cases heq
      exact ⟨true, new ++ taken, rfl, htaken, by simpa using hlength⟩
  | again _ habsorb _ _ _ ih =>
      subst htx
      rw [delivered_cons] at hroom ⊢
      obtain ⟨valid, taken, heq, htaken, hlength⟩ :=
        hon.absorb hchain hpeers (hfair _ List.mem_cons_self) (by omega) habsorb
      cases heq
      obtain ⟨done, new', hr, hon', hlength'⟩ := ih htaken
        (fun e he => hfair e (List.mem_cons_of_mem _ he)) (by rw [List.length_append]; omega) rfl
      rw [List.length_append] at hlength'
      exact ⟨done, new', hr, hon', by omega⟩
  | stopped _ habsorb _ =>
      subst htx
      obtain ⟨valid, taken, heq, htaken, hlength⟩ :=
        hon.absorb hchain hpeers (hfair _ List.mem_cons_self) hroom habsorb
      cases heq
      exact ⟨false, new ++ taken, rfl, htaken, by simpa using hlength⟩

/-- **The honest answer completes the chain**, whatever the transaction on
track holds already. -/
theorem Conversation.completes {n : Nat}
    (h : Conversation L m target honest (n + 1) (tx.grow new) l log r l')
    (hon : OnTrack m tx.ledger chain new) (hchain : Certified m tx.ledger chain)
    (hfail : tx.failAt = none) (hfair : ∀ e ∈ log, Fair m tx.ledger chain honest e)
    (htarget : target.toNat ≤ tx.ledger.height.toNat + chain.length) :
    r = .ok (true, tx.grow (new ++ chain.drop new.length)) := by
  have hheight : (tx.grow new).ledger.height.toNat = tx.ledger.height.toNat + new.length :=
    hon.certified.height_extendAll
  have hrest := hon.certified_drop hchain
  have habove : blocksAbove (tx.grow new).ledger.height chain = chain.drop new.length :=
    blocksAbove_of_certified hchain hheight
  have habsorb : Validation.absorb m (tx.grow new) (chain.drop new.length)
      = .ok (true, tx.grow (new ++ chain.drop new.length)) := by
    rw [absorb_of_certified (tx.grow new) hfail hrest, Transaction.grow_grow]
  have hreached : target ≤ (tx.grow (new ++ chain.drop new.length)).ledger.height := by
    rw [UInt64.le_iff_toNat_le, Transaction.ledger_grow,
      (certified_append.mpr ⟨hon.certified, hrest⟩).height_extendAll, List.length_append,
      List.length_drop]
    omega
  -- however it goes on, the answer is the missing part of the chain
  have hanswer : ∀ blocks,
      (⟨⟨honest, (tx.grow new).ledger.height⟩, blocks⟩ : Exchange) ∈ log →
        Validation.absorb m (tx.grow new) blocks
          = .ok (true, tx.grow (new ++ chain.drop new.length)) := by
    intro blocks hmem
    have hblocks : blocks = blocksAbove (tx.grow new).ledger.height chain :=
      (hfair _ hmem).answer rfl
    rw [hblocks, habove, habsorb]
  cases h with
  | overflow _ hwrong =>
      rw [hanswer _ List.mem_cons_self] at hwrong
      cases hwrong
  | reached _ hright _ =>
      rw [hanswer _ List.mem_cons_self] at hright
      cases hright
      rfl
  | again _ hright hbelow _ _ =>
      rw [hanswer _ List.mem_cons_self] at hright
      cases hright
      exact absurd hreached hbelow
  | stopped _ hright hstop =>
      rw [hanswer _ List.mem_cons_self] at hright
      cases hright
      exact absurd hreached (hstop rfl).1

/-- A fair attempt that has the honest peer before it is a success. -/
theorem Attempt.succeeds {p : SyncPolicy} {peers : List PublicKey}
    (h : Attempt L p target peers (tx.grow new) l log r l') (hmem : honest ∈ peers)
    (hasked : 1 ≤ p.maxRequests) (hon : OnTrack p.model tx.ledger chain new)
    (hchain : Certified p.model tx.ledger chain) (hpeers : tx.ledger.peers.length < 2 ^ 62)
    (hfail : tx.failAt = none) (hfair : ∀ e ∈ log, Fair p.model tx.ledger chain honest e)
    (htarget : target.toNat ≤ tx.ledger.height.toNat + chain.length)
    (hroom : tx.ledger.height.toNat + new.length + delivered log < 2 ^ 64) :
    ∃ new', r = .ok (true, tx.grow new') ∧ OnTrack p.model tx.ledger chain new' := by
  obtain ⟨n, hn⟩ := Nat.exists_eq_add_of_le' hasked
  generalize htx : tx.grow new = tx₁ at h
  induction h generalizing new with
  | exhausted => cases hmem
  | @next peer peers tx₁ tx₂ l l' l'' log log' r hpeer _ ih =>
      subst htx
      have hfair₁ : ∀ e ∈ log, Fair p.model tx.ledger chain honest e :=
        fun e he => hfair e (List.mem_append_left _ he)
      rw [delivered_append] at hroom
      obtain ⟨done, new', heq, hon', hlength⟩ :=
        hpeer.onTrack hon hchain hpeers hfair₁ (by omega)
      cases heq
      -- the peer that was left is not the honest one
      have hne : honest ≠ peer := by
        rintro rfl
        rw [hn] at hpeer
        have := hpeer.completes hon hchain hfail hfair₁ htarget
        cases this
      exact ih ((List.mem_cons.mp hmem).resolve_left hne) hon'
        (fun e he => hfair e (List.mem_append_right _ he)) (by omega) rfl
  | reached hpeer =>
      subst htx
      obtain ⟨done, new', heq, hon', -⟩ := hpeer.onTrack hon hchain hpeers hfair hroom
      cases heq
      exact ⟨new', rfl, hon'⟩
  | overflow hpeer =>
      subst htx
      obtain ⟨done, new', heq, -, -⟩ := hpeer.onTrack hon hchain hpeers hfair hroom
      cases heq

end

/-! ## The download -/

/-- **One honest peer suffices.** The committed chain is numbered and below
the target, nothing is scripted to fail, and the heights have room for all
that is delivered. One of the peers serves `chain`, which is certified on top
of the committed chain and reaches the target, and no delivered block forks
it. Then the download commits, the target is reached, and at every height of
`chain` up to the new tip the committed block has the hash of the block of
`chain`. -/
theorem download_of_honest_peer {σ : Type} {L : Loader σ} {p : SyncPolicy} {s : Store} {l : σ}
    {target : UInt64} {peers : List PublicKey} {start : UInt64} (honest : PublicKey)
    {chain : List Block} (hnumbered : Numbered s.blocks) (hpeers : s.peers.length < 2 ^ 62)
    (hcommit : s.failNextCommit = false) (happly : s.failApplyAt = none)
    (hbelow : s.ledger.height < target)
    (hroom : s.ledger.height.toNat + delivered (exchanges L p s l target peers) < 2 ^ 64 - 1)
    (hasked : 1 ≤ p.maxRequests) (hchain : Certified p.model s.ledger chain)
    (htarget : target.toNat ≤ s.ledger.height.toNat + chain.length) (hmem : honest ∈ peers)
    (hhonest : ∀ e ∈ exchanges L p s l target peers, e.request.peer = honest →
      e.answer = blocksAbove e.request.height chain)
    (hnofork : ∀ e ∈ exchanges L p s l target peers, ∀ b ∈ e.answer,
      NoFork p.model s.ledger chain b) :
    ∃ led, (download L p s l target peers start).result = .ok (some led) ∧ target ≤ led.height
      ∧ ∀ c ∈ chain, c.height ≤ led.height →
          ((download L p s l target peers start).store.blockAt c.height).map Block.hash
            = some c.hash := by
  have hbelow' : ¬ target ≤ s.ledger.height := UInt64.not_le.mpr hbelow
  have hfair : ∀ e ∈ exchanges L p s l target peers, Fair p.model s.ledger chain honest e :=
    fun e he => ⟨hhonest e he, hnofork e he⟩
  have hattempt := attempt_exchanges L p peers l hbelow'
  -- the transaction starts empty, so it is on track
  have hsucceeds := hattempt
  rw [← Transaction.grow_nil s.openTransaction.1] at hsucceeds
  obtain ⟨new, hr, hon⟩ := hsucceeds.succeeds hmem hasked .start hchain hpeers happly hfair htarget
    (by show s.ledger.height.toNat + 0 + delivered _ < 2 ^ 64; omega)
  rw [Transaction.grow_nil] at hr
  have hne : new ≠ [] := by
    obtain ⟨-, -, -, hreached⟩ := hattempt.grows hr
    rintro rfl
    exact hbelow' (hreached rfl)
  obtain ⟨hresult, hblocks, -⟩ := download_of_reached start hbelow' (Prod.ext hr rfl) hne hcommit
    (hnumbered.height_ledger s.peers)
  obtain ⟨-, -, -, -, -, -, htop⟩ :=
    (download_cases L p s l target peers start).committed_chain hresult
  exact ⟨_, hresult, htop, fun c hc => hon.hash_blockAt hchain hnumbered hblocks hc⟩

/-- One peer serves the chain, all others answer with a block from nowhere. -/
def servedBy (honest : PublicKey) (chain : List Block) : Loader Unit where
  retrieve := fun _ height peer =>
    (if peer = honest then blocksAbove height chain else [Block.build 5 .zero 0 []], ())

theorem download_behind_stranger :
    let s := Store.ofChain Neutral.peers []
    let b := Neutral.nextBlock s.ledger 7
    let stranger : PublicKey := ⟨Vector.replicate 32 0⟩
    let run := download (servedBy Neutral.key [b]) ⟨.byzantine, 1⟩ s () 1 [stranger, Neutral.key] 0
    ∃ led, run.result = .ok (some led) ∧ 1 ≤ led.height
      ∧ ∀ c ∈ [b], c.height ≤ led.height →
          (run.store.blockAt c.height).map Block.hash = some c.hash := by
  intro s b stranger run
  have hcheck : check .byzantine b s.ledger = .ok () :=
    Neutral.check_nextBlock .byzantine 7 rfl (by decide)
  let log := exchanges (servedBy Neutral.key [b]) ⟨.byzantine, 1⟩ s () 1 [stranger, Neutral.key]
  have hanswer : ∀ e ∈ log, e.answer = if e.request.peer = Neutral.key
      then blocksAbove e.request.height [b] else [Block.build 5 .zero 0 []] := by
    intro e he
    obtain ⟨_, h⟩ := answered_of_mem_exchanges he
    exact h.symm
  have hlength : log.length ≤ 2 * 1 := length_exchanges_le _ _ _ _ _ _
  have hdelivered : delivered log ≤ log.length * 1 := by
    apply delivered_le
    intro e he
    rw [hanswer e he]
    split
    · exact List.length_filter_le _ _
    · exact Nat.le_refl 1
  apply download_of_honest_peer Neutral.key .nil (by decide) rfl rfl (by decide)
  · show 0 + delivered log < 2 ^ 64 - 1
    omega
  · exact Nat.le_refl 1
  · exact ⟨hcheck, trivial⟩
  · decide
  · simp
  · intro e he hpeer
    rw [hanswer e he, if_pos hpeer]
  · intro e he x hx i c hc hpass
    obtain ⟨hi, rfl⟩ := List.getElem?_eq_some_iff.mp hc
    obtain rfl : i = 0 := by
      simp at hi
      exact hi
    rw [hanswer e he] at hx
    split at hx
    · rw [List.mem_singleton.mp (List.mem_filter.mp hx).1]
      rfl
    · -- the strangers' block is too high
      obtain rfl := List.mem_singleton.mp hx
      have := (check_eq_ok_iff.mp hpass).height
      cases this

end Synchronizer

end LedgerCommit
