import LedgerCommit.Proofs.HeldCertificate
import LedgerCommit.Proofs.ForkAccountability

/-!
# The failure that is reported

A block that is not certified may fail several checks, and the first of them
is reported: the height, the link, the hash, then the seals from the first one
on, at each of them the signer before the signature, and at last the number of
signers. `FirstFailure` says which failure comes first without running the
check; the check accepts the certified blocks and reports exactly this failure
of all others.

Whether a block is accepted depends on its seals as a set: neither their order
nor a seal that comes twice matters. Which failure is reported does depend on
the order.
-/

namespace LedgerCommit

namespace Validation

variable {m : FaultModel} {b : Block} {l : Ledger} {s : Seal} {seals : List Seal}
  {e : BlockError}

/-! ## Failures -/

/-- What is checked of a block before its seals. -/
structure Stands (b : Block) (l : Ledger) : Prop where
  height : b.height.toNat = l.height.toNat + 1
  prev : b.prev = l.tip.hash
  hash : b.hash = b.contentHash

/-- The seal is a valid one of a peer of the ledger. -/
def IsGood (b : Block) (l : Ledger) (s : Seal) : Prop :=
  (∃ peer ∈ l.peers, peer.key = s.signer) ∧ s.valid b.hash = true

/-- What is wrong with a seal; a stranger's signature is not looked at. -/
inductive SealFailure (b : Block) (l : Ledger) (s : Seal) : BlockError → Prop where
  | stranger : (¬ ∃ peer ∈ l.peers, peer.key = s.signer) →
      SealFailure b l s (.unknownSigner b.height s.signer)
  | signature : (∃ peer ∈ l.peers, peer.key = s.signer) → s.valid b.hash = false →
      SealFailure b l s (.invalidSeal b.height s.signer)

/-- The first thing that keeps a block from being certified on a ledger. -/
inductive FirstFailure (m : FaultModel) (b : Block) (l : Ledger) : BlockError → Prop where
  | height : b.height.toNat ≠ l.height.toNat + 1 →
      FirstFailure m b l (.unexpectedHeight l.height b.height)
  | link : b.height.toNat = l.height.toNat + 1 → b.prev ≠ l.tip.hash →
      FirstFailure m b l (.brokenLink b.height)
  | contents : b.height.toNat = l.height.toNat + 1 → b.prev = l.tip.hash →
      b.hash ≠ b.contentHash → FirstFailure m b l (.hashMismatch b.height)
  /-- All seals before this one are good. -/
  | seals {before after : List Seal} {s : Seal} {e : BlockError} : Stands b l →
      b.seals = before ++ s :: after → (∀ t ∈ before, IsGood b l t) → SealFailure b l s e →
      FirstFailure m b l e
  | quorum : Stands b l → (∀ s ∈ b.seals, IsGood b l s) →
      m.isSupermajority b.signerSet.card l.peers.length = .ok false →
      FirstFailure m b l (.noSupermajority b.height b.signerSet.card l.peers.length)

/-! ## One check after the other -/

theorem isGood_iff : IsGood b l s ↔ l.hasPeer s.signer = true ∧ s.valid b.hash = true := by
  rw [IsGood, Ledger.hasPeer_iff]

theorem good_or_failure (b : Block) (l : Ledger) (s : Seal) :
    IsGood b l s ∨ ∃ e, SealFailure b l s e := by
  by_cases hpeer : ∃ peer ∈ l.peers, peer.key = s.signer
  · cases hvalid : s.valid b.hash with
    | true => exact .inl ⟨hpeer, hvalid⟩
    | false => exact .inr ⟨_, .signature hpeer hvalid⟩
  · exact .inr ⟨_, .stranger hpeer⟩

theorem checkSeals_cons_of_good (h : IsGood b l s) :
    checkSeals b l (s :: seals) = checkSeals b l seals := by
  obtain ⟨hpeer, hvalid⟩ := isGood_iff.mp h
  simp [checkSeals, hpeer, hvalid]

theorem checkSeals_cons_of_failure (h : SealFailure b l s e) :
    checkSeals b l (s :: seals) = .error e := by
  cases h with
  | stranger hstranger =>
      rw [← Ledger.hasPeer_iff] at hstranger
      simp [checkSeals, hstranger]
  | signature hpeer hinvalid =>
      rw [← Ledger.hasPeer_iff] at hpeer
      simp [checkSeals, hpeer, hinvalid]

/-- Good seals are passed over, and what comes after a failure is not looked at. -/
theorem checkSeals_of_failure {before after : List Seal} (hbefore : ∀ t ∈ before, IsGood b l t)
    (h : SealFailure b l s e) : checkSeals b l (before ++ s :: after) = .error e := by
  induction before with
  | nil => exact checkSeals_cons_of_failure h
  | cons t before ih =>
      rw [List.forall_mem_cons] at hbefore
      rw [List.cons_append, checkSeals_cons_of_good hbefore.1]
      exact ih hbefore.2

/-- Seals that are not all good have a first one that is not. -/
theorem good_or_first_failure (b : Block) (l : Ledger) (seals : List Seal) :
    (∀ s ∈ seals, IsGood b l s)
      ∨ ∃ before s after e, seals = before ++ s :: after ∧ (∀ t ∈ before, IsGood b l t)
        ∧ SealFailure b l s e := by
  induction seals with
  | nil => exact .inl (by simp)
  | cons s rest ih =>
      rcases good_or_failure b l s with hgood | ⟨e, hfailure⟩
      · rcases ih with hrest | ⟨before, t, after, e, rfl, hbefore, hfailure⟩
        · exact .inl (List.forall_mem_cons.mpr ⟨hgood, hrest⟩)
        · exact .inr ⟨s :: before, t, after, e, rfl,
            List.forall_mem_cons.mpr ⟨hgood, hbefore⟩, hfailure⟩
      · exact .inr ⟨[], s, rest, e, rfl, by simp, hfailure⟩

/-- A block is certified or something fails first. -/
theorem certificate_or_failure (m : FaultModel) (b : Block) (hpeers : l.peers.length < 2 ^ 62) :
    Certificate m b l ∨ ∃ e, FirstFailure m b l e := by
  by_cases hheight : b.height.toNat = l.height.toNat + 1
  swap
  · exact .inr ⟨_, .height hheight⟩
  by_cases hprev : b.prev = l.tip.hash
  swap
  · exact .inr ⟨_, .link hheight hprev⟩
  by_cases hhash : b.hash = b.contentHash
  swap
  · exact .inr ⟨_, .contents hheight hprev hhash⟩
  have hstands : Stands b l := ⟨hheight, hprev, hhash⟩
  rcases good_or_first_failure b l b.seals with hgood | ⟨before, s, after, e, hseals, hbefore, hs⟩
  · obtain ⟨answer, hanswer⟩ := FaultModel.isSupermajority_ne_error m b.signerSet.card hpeers
    cases answer with
    | true =>
        rw [Block.card_signerSet] at hanswer
        exact .inl ⟨hheight, hprev, hhash, fun s hs => isGood_iff.mp (hgood s hs), hanswer⟩
    | false => exact .inr ⟨_, .quorum hstands hgood hanswer⟩
  · exact .inr ⟨e, .seals hstands hseals hbefore hs⟩

/-! ## The check as a whole -/

/-- The failure that comes first is the one that is reported. -/
theorem check_of_failure (hroom : l.height.toNat < 2 ^ 64 - 1) (h : FirstFailure m b l e) :
    check m b l = .error (.failed e) := by
  have hfits : l.height.toNat + (1 : UInt64).toNat < UInt64.size := by
    show l.height.toNat + 1 < 2 ^ 64
    omega
  have hnext : checkedAdd l.height 1 = .ok (l.height + 1) := checkedAdd_eq_ok hfits
  have hheight : b.height = l.height + 1 ↔ b.height.toNat = l.height.toNat + 1 := by
    rw [← UInt64.toNat_inj, toNat_of_checkedAdd hnext]
    rfl
  have hstands : Stands b l → checkContents b l (l.height + 1) = .ok () := fun hb =>
    checkContents_eq_ok_iff.mpr ⟨hheight.mpr hb.height, hb.prev, hb.hash⟩
  simp only [check, hnext, Except.mapError, bind, Except.bind]
  cases h with
  | height hne => simp [checkContents, hheight, hne]
  | link hb hne => simp [checkContents, hheight, hb, hne]
  | contents hb hprev hne => simp [checkContents, hheight, hb, hprev, hne]
  | seals hb hseals hbefore hs =>
      simp only [hstands hb, hseals, checkSeals_of_failure hbefore hs]
  | quorum hb hgood hfew =>
      have hseals : checkSeals b l b.seals = .ok () :=
        checkSeals_eq_ok_iff.mpr fun s hs => isGood_iff.mp (hgood s hs)
      rw [Block.card_signerSet] at hfew ⊢
      simp only [hstands hb, hseals, checkQuorum, hfew]

/-- **Every block that is not certified is refused for what fails first.** -/
theorem check_eq_error_iff {fault : Fault BlockError} (hroom : l.height.toNat < 2 ^ 64 - 1)
    (hpeers : l.peers.length < 2 ^ 62) :
    check m b l = .error fault ↔ ∃ e, fault = .failed e ∧ FirstFailure m b l e := by
  constructor
  · intro h
    rcases certificate_or_failure m b hpeers with hb | ⟨e, he⟩
    · rw [check_eq_ok_iff.mpr hb] at h
      cases h
    · rw [check_of_failure hroom he] at h
      cases h
      exact ⟨e, rfl, he⟩
  · rintro ⟨e, rfl, he⟩
    exact check_of_failure hroom he

/-- Of the seals only the set counts. -/
theorem certificate_congr (h : ∀ s, s ∈ seals ↔ s ∈ b.seals) :
    Certificate m { b with seals } l ↔ Certificate m b l := by
  have hkeys : (distinctKeys { b with seals }.signers).length
      = (distinctKeys b.signers).length := by
    refine length_distinctKeys_congr fun k => ?_
    simp only [Block.signers, List.mem_map, h]
  have hseals : ∀ p : Seal → Prop, (∀ s ∈ seals, p s) ↔ ∀ s ∈ b.seals, p s := by
    intro p
    simp only [h]
  constructor
  · intro hb
    have hquorum := hb.quorum
    rw [hkeys] at hquorum
    exact ⟨hb.height, hb.prev, hb.hash, (hseals _).mp hb.seals, hquorum⟩
  · intro hb
    have hquorum := hb.quorum
    rw [← hkeys] at hquorum
    exact ⟨hb.height, hb.prev, hb.hash, (hseals _).mpr hb.seals, hquorum⟩

/-- **The check accepts exactly the certified next blocks and reports what
fails first of all others.** Take any block, a ledger below the last height
with fewer than `2 ^ 62` peers, and either fault model. The block is accepted
if and only if it is the next one in height, links to the top, has the hash of
its contents, every seal is a valid one of a peer, and the number of different
signers is a supermajority of the peers. Otherwise the failure that comes
first is reported; nothing overflows. Putting in place of the seals any list
of the same ones, in another order or with some of them repeated, changes
nothing about whether the block is accepted. -/
theorem check_reports_first_failure (m : FaultModel) (b : Block) (l : Ledger)
    (hroom : l.height.toNat < 2 ^ 64 - 1) (hpeers : l.peers.length < 2 ^ 62) :
    (check m b l = .ok () ↔ b.height.toNat = l.height.toNat + 1 ∧ b.prev = l.tip.hash
        ∧ b.hash = b.contentHash
        ∧ (∀ s ∈ b.seals, (∃ peer ∈ l.peers, peer.key = s.signer) ∧ s.valid b.hash = true)
        ∧ m.isSupermajority b.signerSet.card l.peers.length = .ok true)
      ∧ (∀ fault, check m b l = .error fault ↔ ∃ e, fault = .failed e ∧ FirstFailure m b l e)
      ∧ ∀ seals, (∀ s, s ∈ seals ↔ s ∈ b.seals) →
          (check m { b with seals } l = .ok () ↔ check m b l = .ok ()) := by
  refine ⟨?_, fun _ => check_eq_error_iff hroom hpeers, ?_⟩
  · rw [check_eq_ok_iff, Block.card_signerSet]
    simp only [← Ledger.hasPeer_iff]
    constructor
    · intro hb
      exact ⟨hb.height, hb.prev, hb.hash, hb.seals, hb.quorum⟩
    · rintro ⟨hheight, hprev, hhash, hseals, hquorum⟩
      exact ⟨hheight, hprev, hhash, hseals, hquorum⟩
  · intro seals h
    rw [check_eq_ok_iff, check_eq_ok_iff]
    exact certificate_congr h

theorem stranger_is_refused_and_repeated_seal_is_not :
    let l : Ledger := ⟨Neutral.peers, ⟨0, .zero⟩⟩
    let b := Neutral.nextBlock l 7
    let stranger : Seal := ⟨⟨.replicate 32 5⟩, ⟨.replicate 64 0⟩⟩
    l.height.toNat < 2 ^ 64 - 1 ∧ l.peers.length < 2 ^ 62
      ∧ check .byzantine { b with seals := [Neutral.mark, Neutral.mark] } l = .ok ()
      ∧ check .byzantine { b with seals := [Neutral.mark, stranger, Neutral.mark] } l
        = .error (.failed (.unknownSigner b.height stranger.signer)) := by
  intro l b stranger
  have hroom : l.height.toNat < 2 ^ 64 - 1 := by decide
  have hpeers : l.peers.length < 2 ^ 62 := by decide
  have hb : check .byzantine b l = .ok () := Neutral.check_nextBlock .byzantine 7 rfl (by decide)
  have hmarked : b.seals = [Neutral.mark] := rfl
  -- the hash of the block is not to be computed
  clear_value b
  have hcertificate := check_eq_ok_iff.mp hb
  refine ⟨hroom, hpeers, ?_, ?_⟩
  · refine ((check_reports_first_failure .byzantine b l hroom hpeers).2.2 _ ?_).mpr hb
    simp [hmarked]
  · have hgood : IsGood b l Neutral.mark :=
      isGood_iff.mpr (hcertificate.seals _ (by simp [hmarked]))
    refine ((check_reports_first_failure _ _ l hroom hpeers).2.1 _).mpr ⟨_, rfl, ?_⟩
    have hsplit : [Neutral.mark, stranger, Neutral.mark]
        = [Neutral.mark] ++ stranger :: [Neutral.mark] := rfl
    refine .seals ⟨hcertificate.height, hcertificate.prev, hcertificate.hash⟩ hsplit ?_
      (.stranger (by decide))
    intro t ht
    rw [List.mem_singleton.mp ht]
    exact hgood

end Validation

end LedgerCommit
