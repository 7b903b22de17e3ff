import LedgerCommit.Proofs.Quorum
import LedgerCommit.Sync.Validation

/-!
# Certified chains

What a block that passes the check has is its `Certificate`. A chain is
`Certified` on top of a ledger when each block passes the check on the ledger
that the blocks before it leave. Absorbing a stream takes a certified prefix
of it into the transaction, and all of a certified stream when no failure is
scripted.
-/

namespace LedgerCommit

/-! ## Ledgers that grow -/

namespace Ledger

/-- The ledger with one more block on top. -/
def extend (l : Ledger) (b : Block) : Ledger := { l with tip := ⟨b.height, b.hash⟩ }

/-- The ledger with a chain on top. -/
def extendAll (l : Ledger) (bs : List Block) : Ledger := bs.foldl extend l

@[simp]
theorem extendAll_nil (l : Ledger) : l.extendAll [] = l := rfl

@[simp]
theorem extendAll_cons (l : Ledger) (b : Block) (bs : List Block) :
    l.extendAll (b :: bs) = (l.extend b).extendAll bs := rfl

theorem extendAll_append (l : Ledger) (xs ys : List Block) :
    l.extendAll (xs ++ ys) = (l.extendAll xs).extendAll ys := List.foldl_append

@[simp]
theorem peers_extendAll (l : Ledger) (bs : List Block) : (l.extendAll bs).peers = l.peers := by
  induction bs generalizing l with
  | nil => rfl
  | cons b bs ih => rw [extendAll_cons, ih]; rfl

/-- A ledger with blocks on top stands at the last one. -/
theorem tip_extendAll (l : Ledger) (bs : List Block) :
    (l.extendAll bs).tip = (bs.getLast?.map fun b => ⟨b.height, b.hash⟩).getD l.tip := by
  rcases List.eq_nil_or_concat' bs with rfl | ⟨front, last, rfl⟩
  · rfl
  · rw [extendAll_append, List.getLast?_concat]
    rfl

end Ledger

/-- The ledger of a longer chain grows out of the ledger of the shorter one. -/
theorem Store.ledger_ofChain_append (peers : List Peer) (xs ys : List Block) :
    (ofChain peers (xs ++ ys)).ledger = (ofChain peers xs).ledger.extendAll ys := by
  induction ys using List.reverseRecOn with
  | nil => rw [List.append_nil]; rfl
  | append_singleton ys b _ =>
      rw [Ledger.extendAll_append, ← List.append_assoc]
      simp [Store.ledger, Store.tip, ofChain, Ledger.extend]

/-- The committed ledger is the one of the committed chain. -/
theorem Store.ledger_eq_ofChain (s : Store) : s.ledger = (ofChain s.peers s.blocks).ledger := rfl

namespace Transaction

/-- The transaction with more blocks on top, checked or not. -/
def grow (tx : Transaction) (bs : List Block) : Transaction :=
  { tx with ledger := tx.ledger.extendAll bs, pending := tx.pending ++ bs }

@[simp]
theorem grow_nil (tx : Transaction) : tx.grow [] = tx := by
  simp [grow]

@[simp]
theorem grow_grow (tx : Transaction) (xs ys : List Block) :
    (tx.grow xs).grow ys = tx.grow (xs ++ ys) := by
  simp [grow, Ledger.extendAll_append]

@[simp]
theorem ledger_grow (tx : Transaction) (bs : List Block) :
    (tx.grow bs).ledger = tx.ledger.extendAll bs := rfl

@[simp]
theorem pending_grow (tx : Transaction) (bs : List Block) :
    (tx.grow bs).pending = tx.pending ++ bs := rfl

/-- A block that is applied is all that the transaction grows by. -/
theorem eq_grow_of_apply {tx tx' : Transaction} {b : Block} (h : tx.apply b = .ok tx') :
    tx' = tx.grow [b] := by
  obtain ⟨hpending, hledger, hbase, hfail, -, -⟩ := apply_eq_ok h
  obtain ⟨base, ledger, pending, failAt⟩ := tx'
  simp only at hpending hledger hbase hfail
  subst hpending hledger hbase hfail
  rfl

/-- The next linked block is applied, unless it is at the scripted height. -/
theorem apply_eq_grow {tx : Transaction} {b : Block} (hfail : tx.failAt ≠ some b.height)
    (hheight : b.height.toNat = tx.ledger.height.toNat + 1) (hprev : b.prev = tx.ledger.tip.hash) :
    tx.apply b = .ok (tx.grow [b]) := by
  have hfits : tx.ledger.height.toNat + (1 : UInt64).toNat < UInt64.size := by
    have := b.height.toNat_lt
    show tx.ledger.height.toNat + 1 < 2 ^ 64
    omega
  have hnext : b.height = tx.ledger.height + 1 := by
    apply UInt64.toNat_inj.mp
    rw [toNat_of_checkedAdd (checkedAdd_eq_ok hfits), hheight]
    rfl
  rw [hnext] at hfail
  simp [apply, checkedAdd_eq_ok hfits, hnext, hprev, hfail, grow, Ledger.extend]

/-- No block at the scripted height is applied. -/
theorem failAt_ne_of_apply {tx tx' : Transaction} {b : Block} (h : tx.apply b = .ok tx') :
    tx.failAt ≠ some b.height := by
  intro hfail
  unfold apply at h
  split at h
  · cases h
  · split at h
    · cases h
    · rw [if_pos (.inr hfail)] at h
      cases h

end Transaction

/-! ## Certificates -/

namespace Validation

/-- What a block has that is certified on top of a ledger. -/
structure Certificate (m : FaultModel) (b : Block) (l : Ledger) : Prop where
  height : b.height.toNat = l.height.toNat + 1
  prev : b.prev = l.tip.hash
  hash : b.hash = b.contentHash
  seals : ∀ s ∈ b.seals, l.hasPeer s.signer = true ∧ s.valid b.hash = true
  quorum : m.isSupermajority (distinctKeys b.signers).length l.peers.length = .ok true

theorem checkContents_eq_ok_iff {b : Block} {l : Ledger} {next : UInt64} :
    checkContents b l next = .ok () ↔
      b.height = next ∧ b.prev = l.tip.hash ∧ b.hash = b.contentHash := by
  unfold checkContents
  by_cases hh : b.height = next
  · by_cases hp : b.prev = l.tip.hash
    · by_cases hc : b.hash = b.contentHash <;> simp [hh, hp, hc]
    · simp [hh, hp]
  · simp [hh]

theorem checkQuorum_eq_ok_iff {m : FaultModel} {b : Block} {l : Ledger} :
    checkQuorum m b l = .ok () ↔
      m.isSupermajority (distinctKeys b.signers).length l.peers.length = .ok true := by
  unfold checkQuorum
  dsimp only
  split <;> simp_all

theorem mapError_eq_ok_iff {α ε ε' : Type} {f : ε → ε'} {x : Except ε α} {a : α} :
    x.mapError f = .ok a ↔ x = .ok a := by
  cases x <;> simp [Except.mapError]

theorem bind_eq_ok_iff {α β ε : Type} {x : Except ε α} {f : α → Except ε β} {b : β} :
    x >>= f = .ok b ↔ ∃ a, x = .ok a ∧ f a = .ok b := by
  cases x <;> simp [bind, Except.bind]

/-- **The check accepts exactly the certified blocks.** -/
theorem check_eq_ok_iff {m : FaultModel} {b : Block} {l : Ledger} :
    check m b l = .ok () ↔ Certificate m b l := by
  simp only [check, bind_eq_ok_iff, mapError_eq_ok_iff]
  constructor
  · rintro ⟨next, hnext, ⟨⟩, hcontents, ⟨⟩, hseals, hquorum⟩
    obtain ⟨hheight, hprev, hhash⟩ := checkContents_eq_ok_iff.mp hcontents
    refine ⟨?_, hprev, hhash, checkSeals_eq_ok_iff.mp hseals, checkQuorum_eq_ok_iff.mp hquorum⟩
    rw [hheight, toNat_of_checkedAdd hnext]
    rfl
  · intro h
    -- the height of the block is a word, so there is a next height
    have hfits : l.height.toNat + (1 : UInt64).toNat < UInt64.size := by
      have := b.height.toNat_lt
      have := h.height
      show l.height.toNat + 1 < 2 ^ 64
      omega
    have hheight : b.height = l.height + 1 := by
      apply UInt64.toNat_inj.mp
      rw [toNat_of_checkedAdd (checkedAdd_eq_ok hfits), h.height]
      rfl
    exact ⟨_, checkedAdd_eq_ok hfits, (), checkContents_eq_ok_iff.mpr ⟨hheight, h.prev, h.hash⟩,
      (), checkSeals_eq_ok_iff.mpr h.seals, checkQuorum_eq_ok_iff.mpr h.quorum⟩

/-! ## Certified chains -/

/-- Each block passes the check on the ledger that the blocks before it leave. -/
def Certified (m : FaultModel) : Ledger → List Block → Prop
  | _, [] => True
  | l, b :: bs => check m b l = .ok () ∧ Certified m (l.extend b) bs

theorem certified_append {m : FaultModel} {l : Ledger} {xs ys : List Block} :
    Certified m l (xs ++ ys) ↔ Certified m l xs ∧ Certified m (l.extendAll xs) ys := by
  induction xs generalizing l with
  | nil => simp [Certified]
  | cons b xs ih => simp only [List.cons_append, Certified, Ledger.extendAll_cons, ih, and_assoc]

theorem certified_singleton {m : FaultModel} {l : Ledger} {b : Block} :
    Certified m l [b] ↔ check m b l = .ok () := by
  simp [Certified]

/-- Heights go up by one with each block. -/
theorem Certified.height_extendAll {m : FaultModel} {l : Ledger} {bs : List Block}
    (h : Certified m l bs) : (l.extendAll bs).height.toNat = l.height.toNat + bs.length := by
  induction bs generalizing l with
  | nil => rfl
  | cons b bs ih =>
      rw [Ledger.extendAll_cons, ih h.2, List.length_cons]
      have hb : (l.extend b).height.toNat = l.height.toNat + 1 := (check_eq_ok_iff.mp h.1).height
      omega

theorem Certified.take {m : FaultModel} {l : Ledger} {bs : List Block} (h : Certified m l bs)
    (n : Nat) : Certified m l (bs.take n) := by
  rw [← List.take_append_drop n bs, certified_append] at h
  exact h.1

theorem Certified.drop {m : FaultModel} {l : Ledger} {bs : List Block} (h : Certified m l bs)
    (n : Nat) : Certified m (l.extendAll (bs.take n)) (bs.drop n) := by
  rw [← List.take_append_drop n bs, certified_append] at h
  exact h.2

/-- The block at a position is certified on top of those before it. -/
theorem Certified.certificate {m : FaultModel} {l : Ledger} {bs : List Block}
    (h : Certified m l bs) {i : Nat} {b : Block} (hb : bs[i]? = some b) :
    Certificate m b (l.extendAll (bs.take i)) := by
  obtain ⟨hi, rfl⟩ := List.getElem?_eq_some_iff.mp hb
  have hd := h.drop i
  rw [List.drop_eq_getElem_cons hi] at hd
  exact check_eq_ok_iff.mp hd.1

theorem Certified.height_getElem {m : FaultModel} {l : Ledger} {bs : List Block}
    (h : Certified m l bs) {i : Nat} {b : Block} (hb : bs[i]? = some b) :
    b.height.toNat = l.height.toNat + i + 1 := by
  have hi := (List.getElem?_eq_some_iff.mp hb).1
  rw [(h.certificate hb).height, (h.take i).height_extendAll, List.length_take,
    Nat.min_eq_left (Nat.le_of_lt hi)]

/-! ## Absorbing a stream -/

/-- What is absorbed is a certified prefix, and all of it if the answer is yes. -/
theorem absorb_eq_ok {m : FaultModel} {tx tx' : Transaction} {bs : List Block} {valid : Bool}
    (h : absorb m tx bs = .ok (valid, tx')) :
    ∃ taken, taken <+: bs ∧ tx' = tx.grow taken ∧ Certified m tx.ledger taken
      ∧ (valid = true → taken = bs) := by
  induction bs generalizing tx with
  | nil =>
      cases h
      exact ⟨[], List.nil_prefix, by simp, trivial, fun _ => rfl⟩
  | cons b rest ih =>
      -- a stop at this block takes nothing and answers no
      have hstop : (Except.ok (false, tx) : Except Overflow _) = .ok (valid, tx') →
          ∃ taken, taken <+: b :: rest ∧ tx' = tx.grow taken ∧ Certified m tx.ledger taken
            ∧ (valid = true → taken = b :: rest) := by
        intro h
        cases h
        exact ⟨[], List.nil_prefix, by simp, trivial, by simp⟩
      rw [absorb] at h
      split at h
      · cases h
      · exact hstop h
      · rename_i hcheck
        split at h
        · cases h
        · exact hstop h
        · rename_i next hnext
          obtain rfl := Transaction.eq_grow_of_apply hnext
          obtain ⟨taken, hfront, rfl, hcertified, hall⟩ := ih h
          refine ⟨b :: taken, List.cons_prefix_cons.mpr ⟨rfl, hfront⟩, by simp,
            ⟨hcheck, hcertified⟩, fun hv => by rw [hall hv]⟩

/-- What is absorbed comes from the stream. -/
theorem mem_of_absorb {m : FaultModel} {tx tx' : Transaction} {bs : List Block} {valid : Bool}
    {b : Block} (h : absorb m tx bs = .ok (valid, tx')) (hb : b ∈ tx'.pending) :
    b ∈ tx.pending ∨ b ∈ bs := by
  obtain ⟨taken, hfront, rfl, -, -⟩ := absorb_eq_ok h
  rcases List.mem_append.mp hb with hold | hnew
  · exact .inl hold
  · exact .inr (hfront.mem hnew)

/-- A certified stream is absorbed to its end when no failure is scripted. -/
theorem absorb_of_certified {m : FaultModel} (tx : Transaction) {bs : List Block}
    (hfail : tx.failAt = none) (h : Certified m tx.ledger bs) :
    absorb m tx bs = .ok (true, tx.grow bs) := by
  induction bs generalizing tx with
  | nil => simp [absorb]
  | cons b rest ih =>
      have hcertificate := check_eq_ok_iff.mp h.1
      have happly := Transaction.apply_eq_grow (by simp [hfail]) hcertificate.height
        hcertificate.prev
      simp only [absorb, h.1, happly]
      rw [ih (tx.grow [b]) hfail h.2, Transaction.grow_grow]
      rfl

/-- Below the last height, and with fewer than `2 ^ 62` peers, no check overflows. -/
theorem check_ne_overflow {m : FaultModel} {b : Block} {l : Ledger} {o : Overflow}
    (hpeers : l.peers.length < 2 ^ 62) (hroom : l.height.toNat + 1 < 2 ^ 64) :
    check m b l ≠ .error (.overflow o) := by
  have hnext : checkedAdd l.height 1 = .ok (l.height + 1) := checkedAdd_eq_ok hroom
  obtain ⟨answer, hanswer⟩ := FaultModel.isSupermajority_ne_error m
    (distinctKeys b.signers).length hpeers
  have hquorum : checkQuorum m b l ≠ .error (.overflow o) := by
    simp only [checkQuorum, hanswer]
    cases answer <;> simp
  simp only [check, hnext, bind, Except.bind, Except.mapError]
  split
  · rename_i e he
    split at he <;> cases he
    simp
  · split
    · rename_i e he
      split at he <;> cases he
      simp
    · exact hquorum

theorem apply_ne_overflow {tx : Transaction} {b : Block} {o : Overflow}
    (hroom : tx.ledger.height.toNat + 1 < 2 ^ 64) : tx.apply b ≠ .error (.overflow o) := by
  have hnext : checkedAdd tx.ledger.height 1 = .ok (tx.ledger.height + 1) := checkedAdd_eq_ok hroom
  simp only [Transaction.apply, hnext]
  split
  · simp
  · split <;> simp

/-- A stream that ends below the last height is absorbed without overflow. -/
theorem absorb_total (m : FaultModel) (tx : Transaction) (bs : List Block)
    (hpeers : tx.ledger.peers.length < 2 ^ 62)
    (hroom : tx.ledger.height.toNat + bs.length < 2 ^ 64) :
    ∃ valid tx', absorb m tx bs = .ok (valid, tx') := by
  induction bs generalizing tx with
  | nil => exact ⟨true, tx, rfl⟩
  | cons b rest ih =>
      rw [List.length_cons] at hroom
      have hhere : tx.ledger.height.toNat + 1 < 2 ^ 64 := by omega
      rw [absorb]
      split
      · rename_i o ho
        exact absurd ho (check_ne_overflow hpeers hhere)
      · exact ⟨false, tx, rfl⟩
      · rename_i hcheck
        split
        · rename_i o ho
          exact absurd ho (apply_ne_overflow hhere)
        · exact ⟨false, tx, rfl⟩
        · rename_i next hnext
          obtain rfl := Transaction.eq_grow_of_apply hnext
          -- the room is for all blocks that are left, and one was taken
          have hheight : (tx.grow [b]).ledger.height.toNat = tx.ledger.height.toNat + 1 :=
            (check_eq_ok_iff.mp hcheck).height
          exact ih _ hpeers (by omega)

end Validation

end LedgerCommit
