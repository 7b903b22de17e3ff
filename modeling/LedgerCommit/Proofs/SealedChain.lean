import LedgerCommit.Proofs.FirstFailure
import LedgerCommit.Proofs.LongestFront

/-!
# Chains sealed by a fixed set of keys

The builder of a sealed chain and the check of a block know nothing of each
other: the one fills in the hash of a block, links it to the one before and
adds the seal of each signer, unless the key has sealed it already; the other
asks for the next height, the link, the hash and a supermajority of seals by
peers. What is built on a ledger is certified on it, if the signers are peers
and enough of them, and if the signatures they make are accepted under their
own keys.
-/

namespace LedgerCommit

/-- What the key pair signs the message with is accepted under its public key. -/
def KeyPair.Signs (k : KeyPair) (message : List UInt8) : Prop :=
  (k.sign message).valid message k.publicKey = true

instance (k : KeyPair) (message : List UInt8) : Decidable (k.Signs message) :=
  inferInstanceAs (Decidable (_ = true))

namespace Block

variable {m : FaultModel} {l : Ledger} {signers : List KeyPair} {b : Block} {bs : List Block}
  {prev : Hash} {height top : UInt64} {count : Nat}

/-! ## Blocks sealed by all -/

/-- The seals are all for the hash that the block had at first. -/
theorem sealAll_eq (b : Block) (signers : List KeyPair) :
    b.sealAll signers = (signers.map (·.sealHash b.hash)).foldl addSeal b := by
  induction signers generalizing b with
  | nil => rfl
  | cons k signers ih =>
      show (b.addSeal (k.sealHash b.hash)).sealAll signers = _
      rw [ih, hash_addSeal]
      rfl

/-- All but the seals is as it was. -/
theorem sealAll_eq_withFresh (b : Block) (signers : List KeyPair) :
    b.sealAll signers = b.withFresh (signers.map (·.sealHash b.hash)) := by
  rw [sealAll_eq, foldl_addSeal]

theorem map_signer_sealHash (signers : List KeyPair) (h : Hash) :
    (signers.map (·.sealHash h)).map Seal.signer = signers.map KeyPair.publicKey := by
  rw [List.map_map]
  rfl

/-- The keys on a new block are those of its signers. -/
theorem signerSet_sealAll (hnew : b.seals = []) :
    (b.sealAll signers).signerSet = (signers.map KeyPair.publicKey).toFinset := by
  ext k
  rw [signerSet, List.mem_toFinset, List.mem_toFinset, sealAll_eq, mem_signers_foldl_addSeal,
    map_signer_sealHash, Block.signers, hnew]
  simp

/-- A block of the chain is built if and only if its time fits. -/
theorem sealedAt_eq_ok_iff :
    sealedAt signers prev height = .ok b ↔ 1000 * height.toNat < 2 ^ 64
      ∧ b = (build height prev (height * 1000) (wordBytes height)).sealAll signers := by
  rw [sealedAt, Nat.mul_comm]
  constructor
  · intro h
    rcases htime : checkedMul height 1000 with _ | time
    · rw [htime] at h
      cases h
    · obtain ⟨hfits, rfl⟩ := checkedMul_eq_ok_iff.mp htime
      rw [htime] at h
      exact ⟨hfits, (Except.ok.inj h).symm⟩
  · rintro ⟨hfits, rfl⟩
    rw [checkedMul_eq_ok_iff.mpr ⟨hfits, rfl⟩]
    rfl

/-- The block built on a ledger extends it by the next height and its own hash. -/
theorem tip_extend_of_sealedAt (h : sealedAt signers l.tip.hash (l.height + 1) = .ok b) :
    (l.extend b).tip = ⟨l.height + 1, b.hash⟩ := by
  obtain ⟨-, rfl⟩ := sealedAt_eq_ok_iff.mp h
  rw [sealAll_eq_withFresh]
  rfl

/-- The block built on a ledger is certified there, if its signers are peers
and a supermajority of them, and their signatures good. -/
theorem certificate_of_sealedAt (hroom : l.height.toNat + 1 < 2 ^ 64)
    (h : sealedAt signers l.tip.hash (l.height + 1) = .ok b)
    (hmembers : ∀ k ∈ signers, ∃ peer ∈ l.peers, peer.key = k.publicKey)
    (henough : m.isSupermajority (signers.map KeyPair.publicKey).toFinset.card l.peers.length
      = .ok true)
    (hsigns : ∀ k ∈ signers, k.Signs b.hash.bytes.toList) : Validation.Certificate m b l := by
  obtain ⟨-, rfl⟩ := sealedAt_eq_ok_iff.mp h
  have hheight : (l.height + 1).toNat = l.height.toNat + 1 :=
    toNat_of_checkedAdd (checkedAdd_eq_ok hroom)
  rw [sealAll_eq_withFresh] at hsigns
  rw [sealAll_eq]
  refine Validation.certificate_foldl_addSeal hheight rfl rfl ?_ ?_
  · intro s hs
    obtain ⟨k, hk, rfl⟩ := List.mem_map.mp hs
    exact ⟨Ledger.hasPeer_iff.mpr (hmembers k hk), hsigns k hk⟩
  · rw [card_toFinset_keys, ← map_signer_sealHash] at henough
    exact henough

/-- A block built on a ledger is certified there only if its signers are a supermajority. -/
theorem enough_of_certificate (h : sealedAt signers prev height = .ok b)
    (hb : Validation.Certificate m b l) :
    m.isSupermajority (signers.map KeyPair.publicKey).toFinset.card l.peers.length = .ok true := by
  have hquorum := hb.quorum
  rw [← card_signerSet] at hquorum
  obtain ⟨-, rfl⟩ := sealedAt_eq_ok_iff.mp h
  rwa [signerSet_sealAll rfl] at hquorum

/-! ## Sealed chains -/

theorem sealedAbove_succ_eq_ok_iff :
    sealedAbove signers top prev (count + 1) = .ok bs ↔
      ∃ b rest, bs = b :: rest ∧ sealedAt signers prev (top + 1) = .ok b
        ∧ sealedAbove signers (top + 1) b.hash count = .ok rest := by
  rw [sealedAbove]
  simp only [Validation.bind_eq_ok_iff]
  constructor
  · rintro ⟨b, hb, rest, hrest, h⟩
    exact ⟨b, rest, (Except.ok.inj h).symm, hb, hrest⟩
  · rintro ⟨b, rest, rfl, hb, hrest⟩
    exact ⟨b, hb, rest, hrest, rfl⟩

/-- The blocks are all built if and only if the time of the last one fits. -/
theorem exists_sealedAbove_iff (hroom : top.toNat + count < 2 ^ 64) :
    (∃ bs, sealedAbove signers top prev count = .ok bs) ↔
      (count ≠ 0 → 1000 * (top.toNat + count) < 2 ^ 64) := by
  induction count generalizing top prev with
  | zero => simp [sealedAbove]
  | succ count ih =>
      have htop : (top + 1).toNat = top.toNat + 1 := by
        refine toNat_of_checkedAdd (checkedAdd_eq_ok ?_)
        show top.toNat + 1 < 2 ^ 64
        omega
      constructor
      · rintro ⟨bs, h⟩ -
        obtain ⟨b, rest, -, hb, hrest⟩ := sealedAbove_succ_eq_ok_iff.mp h
        have hfirst := (sealedAt_eq_ok_iff.mp hb).1
        have hothers := (ih (by omega)).mp ⟨rest, hrest⟩
        rcases Nat.eq_zero_or_pos count with rfl | hpos
        · omega
        · have := hothers (by omega)
          omega
      · intro hlast
        have hfits := hlast (by omega)
        have hfirst : 1000 * (top + 1).toNat < 2 ^ 64 := by omega
        obtain ⟨b, hb⟩ : ∃ b, sealedAt signers prev (top + 1) = .ok b :=
          ⟨_, sealedAt_eq_ok_iff.mpr ⟨hfirst, rfl⟩⟩
        obtain ⟨rest, hrest⟩ : ∃ rest, sealedAbove signers (top + 1) b.hash count = .ok rest :=
          (ih (by omega)).mpr fun _ => by omega
        exact ⟨b :: rest, sealedAbove_succ_eq_ok_iff.mpr ⟨b, rest, rfl, hb, hrest⟩⟩

theorem length_of_sealedAbove (h : sealedAbove signers top prev count = .ok bs) :
    bs.length = count := by
  induction count generalizing top prev bs with
  | zero =>
      cases h
      rfl
  | succ count ih =>
      obtain ⟨b, rest, rfl, -, hrest⟩ := sealedAbove_succ_eq_ok_iff.mp h
      rw [List.length_cons, ih hrest]

/-- What is built on a ledger is certified on it, block after block. -/
theorem certified_of_sealedAbove (hroom : l.height.toNat + count < 2 ^ 64)
    (h : sealedAbove signers l.height l.tip.hash count = .ok bs)
    (hmembers : ∀ k ∈ signers, ∃ peer ∈ l.peers, peer.key = k.publicKey)
    (henough : m.isSupermajority (signers.map KeyPair.publicKey).toFinset.card l.peers.length
      = .ok true)
    (hsigns : ∀ b ∈ bs, ∀ k ∈ signers, k.Signs b.hash.bytes.toList) :
    Validation.Certified m l bs := by
  induction count generalizing l bs with
  | zero =>
      cases h
      trivial
  | succ count ih =>
      obtain ⟨b, rest, rfl, hb, hrest⟩ := sealedAbove_succ_eq_ok_iff.mp h
      rw [List.forall_mem_cons] at hsigns
      have hcertificate := certificate_of_sealedAt (by omega) hb hmembers henough hsigns.1
      have hheight : (l.extend b).height.toNat = l.height.toNat + 1 := hcertificate.height
      refine ⟨Validation.check_eq_ok_iff.mpr hcertificate, ?_⟩
      refine ih (by omega) ?_ hmembers henough hsigns.2
      -- the rest is built on the ledger that the block leaves
      rw [Ledger.height, tip_extend_of_sealedAt hb]
      exact hrest

/-- The sum for the first height is made even where no block is asked for. -/
theorem sealedChain_eq_ok_iff {tip : Tip} {count : UInt64} :
    sealedChain tip count signers = .ok bs ↔
      tip.height.toNat + 1 < 2 ^ 64 ∧ tip.height.toNat + count.toNat < 2 ^ 64
        ∧ sealedAbove signers tip.height tip.hash count.toNat = .ok bs := by
  rw [sealedChain]
  simp only [Validation.bind_eq_ok_iff, checkedAdd_eq_ok_iff]
  constructor
  · rintro ⟨_, ⟨hfirst, -⟩, _, ⟨hlast, -⟩, h⟩
    exact ⟨hfirst, hlast, h⟩
  · rintro ⟨hfirst, hlast, h⟩
    exact ⟨_, ⟨hfirst, rfl⟩, _, ⟨hlast, rfl⟩, h⟩

end Block

namespace Validation

open Block

/-- **What a fixed set of peers seals is taken, if they are enough of them.**
Take any ledger with fewer than `2 ^ 62` peers, any number of blocks and any
list of key pairs of peers, some of them perhaps more than once. The chain on
the tip of the ledger is built if and only if the heights and the times of its
blocks fit. Then it has as many blocks as were asked for. If the different
signers are a supermajority and their signatures for the hashes of the chain
are accepted under their own keys, every block is certified on top of those
before it, and a transaction on the ledger without a scripted failure takes
them all and ends at the last one. If the signers are too few, a transaction
takes none of the blocks and the answer is no, unless none was asked for. -/
theorem sealed_chain_is_taken (m : FaultModel) (l : Ledger) (count : UInt64)
    (signers : List KeyPair) (hpeers : l.peers.length < 2 ^ 62)
    (hmembers : ∀ k ∈ signers, ∃ peer ∈ l.peers, peer.key = k.publicKey) :
    ((∃ chain, sealedChain l.tip count signers = .ok chain) ↔
        l.height.toNat + 1 < 2 ^ 64 ∧ l.height.toNat + count.toNat < 2 ^ 64
          ∧ (count ≠ 0 → 1000 * (l.height.toNat + count.toNat) < 2 ^ 64))
      ∧ ∃ enough, m.isSupermajority (signers.map KeyPair.publicKey).toFinset.card l.peers.length
            = .ok enough
          ∧ ∀ chain, sealedChain l.tip count signers = .ok chain →
            chain.length = count.toNat
              ∧ (enough = true →
                  (∀ b ∈ chain, ∀ k ∈ signers, k.Signs b.hash.bytes.toList) →
                  Certified m l chain ∧ ∀ tx : Transaction, tx.ledger = l → tx.failAt = none →
                    ∃ tx', absorb m tx chain = .ok (true, tx')
                      ∧ tx'.pending = tx.pending ++ chain
                      ∧ tx'.ledger.height.toNat = l.height.toNat + count.toNat
                      ∧ tx'.ledger.tip.hash = (chain.getLast?.map Block.hash).getD l.tip.hash)
              ∧ (enough = false → count ≠ 0 → ∀ tx : Transaction, tx.ledger = l →
                  absorb m tx chain = .ok (false, tx)) := by
  have hzero : count.toNat = 0 ↔ count = 0 := UInt64.toNat_inj (b := 0)
  refine ⟨?_, ?_⟩
  · simp only [sealedChain_eq_ok_iff, exists_and_left]
    refine and_congr_right fun _ => and_congr_right fun hlast => ?_
    exact (exists_sealedAbove_iff hlast).trans (by rw [Ne, hzero]; rfl)
  · obtain ⟨enough, hanswer⟩ := FaultModel.isSupermajority_ne_error m
      (signers.map KeyPair.publicKey).toFinset.card hpeers
    refine ⟨enough, hanswer, ?_⟩
    intro chain hchain
    obtain ⟨hfirst, hlast, habove⟩ := sealedChain_eq_ok_iff.mp hchain
    have hlength := length_of_sealedAbove habove
    refine ⟨hlength, ?_, ?_⟩
    · rintro rfl hsigns
      have hcertified := certified_of_sealedAbove hlast habove hmembers hanswer hsigns
      refine ⟨hcertified, ?_⟩
      rintro tx rfl hfail
      refine ⟨_, absorb_of_certified tx hfail hcertified, rfl, ?_, ?_⟩
      · rw [Transaction.ledger_grow, hcertified.height_extendAll, hlength]
      · rw [Transaction.ledger_grow, Ledger.tip_extendAll]
        cases chain.getLast? <;> rfl
    · rintro rfl hcount tx rfl
      obtain ⟨n, hn⟩ := Nat.exists_eq_succ_of_ne_zero (mt hzero.mp hcount)
      rw [hn] at habove
      obtain ⟨b, rest, rfl, hb, -⟩ := sealedAbove_succ_eq_ok_iff.mp habove
      refine absorb_cons_of_not_comesNext hpeers hfirst fun hnext => ?_
      have henough := enough_of_certificate hb (check_eq_ok_iff.mp hnext.check)
      rw [hanswer] at henough
      cases henough

/-- The key pair of the first numbered seed signs the first block above an empty chain. -/
theorem signs_first_block : (KeyPair.ofSeed (.replicate 32 1)).Signs
    (build 1 .zero 1000 (wordBytes 1)).hash.bytes.toList := by
  decide +kernel

/-- A peer that is listed twice among the signers certifies a block when it is
the only peer, and does not when it is one of four. -/
theorem signer_listed_twice_counts_once :
    let k := KeyPair.ofSeed (.replicate 32 1)
    let others : List PublicKey := [⟨.replicate 32 2⟩, ⟨.replicate 32 3⟩, ⟨.replicate 32 4⟩]
    let alone : Ledger := ⟨Peer.loopback [k.publicKey], ⟨0, .zero⟩⟩
    let crowd : Ledger := ⟨Peer.loopback (k.publicKey :: others), ⟨0, .zero⟩⟩
    ∃ b, sealedChain ⟨0, .zero⟩ 1 [k, k] = .ok [b]
      ∧ (∃ tx', absorb .byzantine ⟨0, alone, [], none⟩ [b] = .ok (true, tx')
          ∧ tx'.ledger.height.toNat = 1 ∧ tx'.ledger.tip.hash = b.hash)
      ∧ absorb .byzantine ⟨0, crowd, [], none⟩ [b] = .ok (false, ⟨0, crowd, [], none⟩) := by
  intro k others alone crowd
  have hsigns : k.Signs (build 1 .zero 1000 (wordBytes 1)).hash.bytes.toList := signs_first_block
  -- nothing more is to be signed
  clear_value k
  have hkeys : ([k, k].map KeyPair.publicKey).toFinset.card = 1 := by simp
  obtain ⟨b, hchain, hhash⟩ : ∃ b, sealedChain ⟨0, .zero⟩ 1 [k, k] = .ok [b]
      ∧ b.hash = (build 1 .zero 1000 (wordBytes 1)).hash := by
    refine ⟨(build 1 .zero 1000 (wordBytes 1)).sealAll [k, k], rfl, ?_⟩
    rw [sealAll_eq_withFresh]
    rfl
  rw [← hhash] at hsigns
  obtain ⟨-, enough, hanswer, htaken⟩ := sealed_chain_is_taken .byzantine alone 1 [k, k]
    (by show 1 < 2 ^ 62; decide) (by simp [alone, Peer.loopback])
  obtain ⟨-, few, hfew, hrefused⟩ := sealed_chain_is_taken .byzantine crowd 1 [k, k]
    (by show 4 < 2 ^ 62; decide) (by simp [crowd, Peer.loopback])
  rw [hkeys] at hanswer hfew
  obtain rfl : true = enough := Except.ok.inj hanswer
  obtain rfl : false = few := Except.ok.inj hfew
  refine ⟨b, hchain, ?_, ?_⟩
  · obtain ⟨-, htakes⟩ := (htaken [b] hchain).2.1 rfl (by simpa using hsigns)
    obtain ⟨tx', habsorb, -, hheight, htop⟩ := htakes ⟨0, alone, [], none⟩ rfl rfl
    exact ⟨tx', habsorb, hheight, htop⟩
  · exact (hrefused [b] hchain).2.2 rfl (by decide) ⟨0, crowd, [], none⟩ rfl

end Validation

end LedgerCommit
