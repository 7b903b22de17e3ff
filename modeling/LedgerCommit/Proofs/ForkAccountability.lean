import LedgerCommit.Proofs.Chain
import LedgerCommit.Proofs.NeutralKey
import LedgerCommit.Proofs.SyncRun

/-!
# Fork accountability

Two stores that set out from one chain and only download can come to differ.
The lowest blocks in which they differ then stand on the same ledger, so each
is sealed by a supermajority of the same peers, and the peers in both
supermajorities have sealed two blocks of one height.
-/

namespace LedgerCommit

/-! ## Peers that seal twice -/

/-- The key has a valid seal on the block. -/
def Block.ValidlySealedBy (b : Block) (k : PublicKey) : Prop :=
  ∃ s ∈ b.seals, s.signer = k ∧ s.valid b.hash = true

/-- The keys with a seal on the block. -/
def Block.signerSet (b : Block) : Finset PublicKey := b.signers.toFinset

theorem card_toFinset_keys (ks : List PublicKey) :
    ks.toFinset.card = (distinctKeys ks).length := by
  have hset : ks.toFinset = (distinctKeys ks).toFinset := by
    ext k
    simp
  rw [hset, List.toFinset_card_of_nodup (nodup_distinctKeys ks)]

theorem Block.card_signerSet (b : Block) : b.signerSet.card = (distinctKeys b.signers).length :=
  card_toFinset_keys b.signers

namespace Validation

variable {m : FaultModel} {b c : Block} {l l' : Ledger}

theorem Certificate.sealed (h : Certificate m b l) {k : PublicKey} (hk : k ∈ b.signerSet) :
    (∃ peer ∈ l.peers, peer.key = k) ∧ b.ValidlySealedBy k := by
  obtain ⟨s, hs, rfl⟩ := List.mem_map.mp (List.mem_toFinset.mp hk)
  obtain ⟨hpeer, hvalid⟩ := h.seals s hs
  exact ⟨Ledger.hasPeer_iff.mp hpeer, s, hs, rfl, hvalid⟩

/-- Blocks certified over the same peers share at least `sharedPeers` signers. -/
theorem Certificate.sharedPeers_le (hb : Certificate m b l) (hc : Certificate m c l')
    (hpeers : l'.peers = l.peers) :
    m.sharedPeers l.peers.length ≤ (b.signerSet ∩ c.signerSet).card := by
  have hbq := hb.quorum
  have hcq := hc.quorum
  rw [hpeers] at hcq
  rw [← Block.card_signerSet] at hbq hcq
  have hsub : ∀ {x : Block} {led : Ledger}, led.peers = l.peers → Certificate m x led →
      x.signerSet ⊆ (l.peers.map Peer.key).toFinset := by
    intro x led hled hx k hk
    obtain ⟨peer, hpeer, rfl⟩ := (hx.sealed hk).1
    rw [hled] at hpeer
    exact List.mem_toFinset.mpr (List.mem_map_of_mem hpeer)
  have hcard : (l.peers.map Peer.key).toFinset.card ≤ l.peers.length := by
    rw [← List.length_map Peer.key]
    exact List.toFinset_card_le _
  exact FaultModel.sharedPeers_le_card_inter hbq hcq (hsub rfl hb) (hsub hpeers hc) hcard

/-- At least `sharedPeers` peers have validly sealed both of two blocks that
are certified over the same peers. -/
theorem Certificate.double_seals (hb : Certificate m b l) (hc : Certificate m c l')
    (hpeers : l'.peers = l.peers) :
    ∃ keys : Finset PublicKey, m.sharedPeers l.peers.length ≤ keys.card
      ∧ ∀ k ∈ keys, (∃ peer ∈ l.peers, peer.key = k) ∧ b.ValidlySealedBy k
          ∧ c.ValidlySealedBy k := by
  refine ⟨b.signerSet ∩ c.signerSet, hb.sharedPeers_le hc hpeers, ?_⟩
  intro k hk
  obtain ⟨hkb, hkc⟩ := Finset.mem_inter.mp hk
  obtain ⟨hpeer, hkb⟩ := hb.sealed hkb
  exact ⟨hpeer, hkb, (hc.sealed hkc).2⟩

/-! ## The lowest fork -/

/-- Where two certified chains agree up to a position, the blocks there are
certified on the same ledger. -/
theorem Certified.certificates_of_agree {xs ys : List Block} (hx : Certified m l xs)
    (hy : Certified m l ys) {i : Nat} (hb : xs[i]? = some b) (hc : ys[i]? = some c)
    (hagree : ∀ j < i, (xs[j]?).map Block.hash = (ys[j]?).map Block.hash) :
    ∃ led, led.peers = l.peers ∧ Certificate m b led ∧ Certificate m c led := by
  have hxi := (List.getElem?_eq_some_iff.mp hb).1
  have hyi := (List.getElem?_eq_some_iff.mp hc).1
  have hlength : (xs.take i).length = i := by
    rw [List.length_take]
    omega
  have hon : OnTrack m l ys (xs.take i) := by
    refine ⟨hx.take i, ?_⟩
    intro j x y hxj hyj
    have hj : j < i := by
      have := (List.getElem?_eq_some_iff.mp hxj).1
      omega
    rw [List.getElem?_take_of_lt hj] at hxj
    have := hagree j hj
    rw [hxj, hyj] at this
    exact Option.some.inj this
  have hsame := hon.extendAll_eq hy (by omega)
  rw [hlength] at hsame
  refine ⟨l.extendAll (xs.take i), Ledger.peers_extendAll l _, hx.certificate hb, ?_⟩
  rw [hsame]
  exact hy.certificate hc

end Validation

/-- Chains with different hashes at a position have a lowest such position. -/
theorem exists_lowest_fork {xs ys : List Block} {i : Nat} {b c : Block} (hb : xs[i]? = some b)
    (hc : ys[i]? = some c) (hne : b.hash ≠ c.hash) :
    ∃ j ≤ i, ∃ x y, xs[j]? = some x ∧ ys[j]? = some y ∧ x.hash ≠ y.hash
      ∧ ∀ k < j, (xs[k]?).map Block.hash = (ys[k]?).map Block.hash := by
  induction i using Nat.strongRecOn generalizing b c with
  | _ i ih =>
    by_cases hlower : ∃ k < i, (xs[k]?).map Block.hash ≠ (ys[k]?).map Block.hash
    · obtain ⟨k, hk, hkne⟩ := hlower
      obtain ⟨x, hx⟩ : ∃ x, xs[k]? = some x :=
        ⟨_, List.getElem?_eq_getElem (Nat.lt_trans hk (List.getElem?_eq_some_iff.mp hb).1)⟩
      obtain ⟨y, hy⟩ : ∃ y, ys[k]? = some y :=
        ⟨_, List.getElem?_eq_getElem (Nat.lt_trans hk (List.getElem?_eq_some_iff.mp hc).1)⟩
      have hhash : x.hash ≠ y.hash := by
        intro heq
        rw [hx, hy, Option.map_some, Option.map_some, heq] at hkne
        exact hkne rfl
      obtain ⟨j, hj, hfork⟩ := ih k hk hx hy hhash
      exact ⟨j, by omega, hfork⟩
    · refine ⟨i, Nat.le_refl i, b, c, hb, hc, hne, ?_⟩
      intro k hk
      by_contra hkne
      exact hlower ⟨k, hk, hkne⟩

/-! ## Stores that set out from one chain -/

/-- Where two stores fork, the blocks have the same block below and at least
`sharedPeers` peers in common that have sealed both. -/
theorem Store.Extends.double_seals {m : FaultModel} {s s' t t' : Store} (hs : s.Extends m s')
    (ht : t.Extends m t') (hpeers : t.peers = s.peers) (hblocks : t.blocks = s.blocks) {i : Nat}
    {b c : Block} (hb : s'.blocks[i]? = some b) (hc : t'.blocks[i]? = some c)
    (hne : b.hash ≠ c.hash)
    (hagree : ∀ j < i, (s'.blocks[j]?).map Block.hash = (t'.blocks[j]?).map Block.hash) :
    b.prev = c.prev ∧ ∃ keys : Finset PublicKey, m.sharedPeers s.peers.length ≤ keys.card
      ∧ ∀ k ∈ keys, (∃ peer ∈ s.peers, peer.key = k) ∧ b.ValidlySealedBy k
          ∧ c.ValidlySealedBy k := by
  obtain ⟨xs, hxs, hx⟩ := hs.blocks
  obtain ⟨ys, hys, hy⟩ := ht.blocks
  have hledger : t.ledger = s.ledger := by
    rw [ledger_eq_ofChain, hpeers, hblocks]
    rfl
  rw [hledger] at hy
  rw [hxs] at hb hagree
  rw [hys, hblocks] at hc hagree
  -- the old chain is the same, so the fork is above it
  rcases Nat.lt_or_ge i s.blocks.length with hlow | hhigh
  · rw [List.getElem?_append_left hlow] at hb hc
    rw [hb] at hc
    exact absurd (congrArg Block.hash (Option.some.inj hc)) hne
  · rw [List.getElem?_append_right hhigh] at hb hc
    have hagree' : ∀ j < i - s.blocks.length,
        (xs[j]?).map Block.hash = (ys[j]?).map Block.hash := by
      intro j hj
      have := hagree (s.blocks.length + j) (by omega)
      rwa [List.getElem?_append_right (Nat.le_add_right _ _),
        List.getElem?_append_right (Nat.le_add_right _ _), Nat.add_sub_cancel_left] at this
    obtain ⟨led, hled, hcb, hcc⟩ := hx.certificates_of_agree hy hb hc hagree'
    have hsealed := hcb.double_seals hcc rfl
    rw [hled] at hsealed
    exact ⟨hcb.prev.trans hcc.prev.symm, hsealed⟩

namespace Synchronizer

/-- **Fork accountability.** Two stores with the same peers and the same
chain are driven independently, each by any decisions but held blocks, any
scripted failures and any answers of its loader. If their chains then differ
at some height, then at the lowest such height the two blocks have the same
block below, and at least `sharedPeers` peers have validly sealed both. -/
theorem forks_are_accountable {σ τ : Type} (L : Loader σ) (M : Loader τ) (p q : SyncPolicy)
    (s t : Store) (l : σ) (k : τ) (is js : List Input) (hmodel : q.model = p.model)
    (hpeers : t.peers = s.peers) (hblocks : t.blocks = s.blocks) (his : ∀ i ∈ is, i.Downloads)
    (hjs : ∀ j ∈ js, j.Downloads) {height : UInt64} {b c : Block}
    (hb : (run L p s l is).1.blockAt height = some b)
    (hc : (run M q t k js).1.blockAt height = some c) (hne : b.hash ≠ c.hash) :
    ∃ low ≤ height, ∃ x y, (run L p s l is).1.blockAt low = some x
      ∧ (run M q t k js).1.blockAt low = some y ∧ x.hash ≠ y.hash
      ∧ (∀ below < low, ((run L p s l is).1.blockAt below).map Block.hash
          = ((run M q t k js).1.blockAt below).map Block.hash)
      ∧ x.prev = y.prev
      ∧ ∃ keys : Finset PublicKey, p.model.sharedPeers s.peers.length ≤ keys.card
          ∧ ∀ key ∈ keys, (∃ peer ∈ s.peers, peer.key = key) ∧ x.ValidlySealedBy key
              ∧ y.ValidlySealedBy key := by
  have hs := extends_run (L := L) (p := p) s l his
  have ht := extends_run (L := M) (p := q) t k hjs
  rw [hmodel] at ht
  generalize (run L p s l is).1 = s' at hs hb ⊢
  generalize (run M q t k js).1 = t' at ht hc ⊢
  -- heights are positions counted from one
  obtain ⟨i, hpos⟩ : ∃ i, height.toNat = i + 1 := by
    apply exists_position
    rintro rfl
    cases hb
  rw [Store.blockAt_eq hpos] at hb hc
  obtain ⟨j, hj, x, y, hx, hy, hxy, hagree⟩ := exists_lowest_fork hb hc hne
  have hlow : (UInt64.ofNat (j + 1)).toNat = j + 1 := by
    have := height.toNat_lt
    apply UInt64.toNat_ofNat_of_lt'
    show j + 1 < 2 ^ 64
    omega
  refine ⟨UInt64.ofNat (j + 1), ?_, x, y, ?_, ?_, hxy, ?_,
    hs.double_seals ht hpeers hblocks hx hy hxy hagree⟩
  · rw [UInt64.le_iff_toNat_le]
    omega
  · rwa [Store.blockAt_eq hlow]
  · rwa [Store.blockAt_eq hlow]
  · intro below hbelow
    have hlt := UInt64.lt_iff_toNat_lt.mp hbelow
    by_cases hzero : below = 0
    · subst hzero
      rfl
    · obtain ⟨n, hn⟩ := exists_position hzero
      rw [Store.blockAt_eq hn, Store.blockAt_eq hn]
      exact hagree _ (by omega)

/-! ### A fork of the neutral peer -/

/-- The empty chain over the neutral peer. -/
def neutralStore : Store := .ofChain Neutral.peers []

/-- The loader that hands out one block for every request. -/
def handingOut (b : Block) : Loader Unit := ⟨fun _ _ _ => ([b], ())⟩

/-- The run of the decision for some block of the first round, which the
neutral peer delivers. -/
def afterFirst (b : Block) : Store × Unit :=
  run (handingOut b) ⟨.byzantine, 1⟩ neutralStore ()
    [.resolve (.otherBlock ⟨1, 0⟩ neutralStore.ledger [Neutral.key] .zero)]

/-- Whichever block the decision is for, the one that is handed out is committed. -/
theorem resolve_handingOut {b : Block} (agreed : Hash)
    (hcheck : Validation.check .byzantine b neutralStore.ledger = .ok ()) :
    let r := resolve (handingOut b) ⟨.byzantine, 1⟩ neutralStore ()
      (.otherBlock ⟨1, 0⟩ neutralStore.ledger [Neutral.key] agreed)
    r.result = .ok (some ⟨.commit, ⟨1, 0⟩, r.store.ledger⟩) ∧ r.store.blockAt 1 = some b := by
  intro r
  have hone : (1 : UInt64).toNat = 0 + 1 := rfl
  have hbelow : neutralStore.ledger.height < (⟨1, 0⟩ : Round).height := by decide
  have hanswer : (handingOut b).retrieve () neutralStore.ledger.height Neutral.key
      = ([b], ()) := rfl
  have hreached : (⟨1, 0⟩ : Round).height ≤ (neutralStore.ledger.extendAll [b]).height := by
    rw [UInt64.le_iff_toNat_le]
    exact Nat.le_of_eq (Validation.check_eq_ok_iff.mp hcheck).height.symm
  obtain ⟨hresult, hblocks⟩ := resolve_of_first_answer (p := ⟨.byzantine, 1⟩) neutralStore.ledger
    [] agreed hbelow hanswer ⟨hcheck, trivial⟩ hreached (Nat.le_refl 1) rfl rfl rfl
  refine ⟨hresult, ?_⟩
  rw [Store.blockAt_eq hone, hblocks]
  rfl

theorem blockAt_afterFirst {b : Block}
    (hcheck : Validation.check .byzantine b neutralStore.ledger = .ok ()) :
    (afterFirst b).1.blockAt 1 = some b := (resolve_handingOut .zero hcheck).2

theorem forks_of_neutral_peer :
    let left := afterFirst (Neutral.nextBlock neutralStore.ledger 7)
    let right := afterFirst (Neutral.nextBlock neutralStore.ledger 8)
    ∃ low ≤ 1, ∃ x y, left.1.blockAt low = some x ∧ right.1.blockAt low = some y ∧ x.hash ≠ y.hash
      ∧ (∀ below < low, (left.1.blockAt below).map Block.hash
          = (right.1.blockAt below).map Block.hash)
      ∧ x.prev = y.prev
      ∧ ∃ keys : Finset PublicKey, FaultModel.byzantine.sharedPeers 1 ≤ keys.card
          ∧ ∀ key ∈ keys, (∃ peer ∈ Neutral.peers, peer.key = key) ∧ x.ValidlySealedBy key
              ∧ y.ValidlySealedBy key := by
  have hx := Neutral.check_nextBlock .byzantine (l := neutralStore.ledger) 7 rfl (by decide)
  have hy := Neutral.check_nextBlock .byzantine (l := neutralStore.ledger) 8 rfl (by decide)
  have hne : (Neutral.nextBlock neutralStore.ledger 7).hash
      ≠ (Neutral.nextBlock neutralStore.ledger 8).hash := by decide +kernel
  -- no more of the blocks is needed, and their hashes are not to be computed again
  generalize Neutral.nextBlock neutralStore.ledger 7 = b at hx hne ⊢
  generalize Neutral.nextBlock neutralStore.ledger 8 = c at hy hne ⊢
  have hdownloads : ∀ i ∈ [Input.resolve (.otherBlock ⟨1, 0⟩ neutralStore.ledger [Neutral.key]
      .zero)], i.Downloads := by
    intro i hi
    rw [List.mem_singleton.mp hi]
    trivial
  intro left right
  exact forks_are_accountable _ _ _ _ neutralStore neutralStore () () _ _ rfl rfl rfl hdownloads
    hdownloads (blockAt_afterFirst hx) (blockAt_afterFirst hy) hne

end Synchronizer

end LedgerCommit
