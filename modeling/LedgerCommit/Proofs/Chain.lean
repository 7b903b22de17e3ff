import LedgerCommit.Proofs.Certified

/-!
# Numbered and linked chains

In a numbered chain the block at position `i` has height `i + 1`. A position
is linked when its block names the hash of the block just below it, the zero
hash at the bottom. Both are facts about a position and what stands below, so
a chain that grows at the top keeps them.
-/

namespace LedgerCommit

/-- The block at position `i` has height `i + 1`. -/
def Numbered (chain : List Block) : Prop :=
  ∀ i b, chain[i]? = some b → b.height.toNat = i + 1

/-- The hash of the block just below a position; zero at the bottom. -/
def hashBelow (chain : List Block) : Nat → Hash
  | 0 => .zero
  | i + 1 => (chain[i]?.map Block.hash).getD .zero

/-- The block at a position names the hash of the block just below it. -/
def LinkedAt (chain : List Block) (i : Nat) : Prop :=
  ∀ b, chain[i]? = some b → b.prev = hashBelow chain i

/-! ## Heights -/

theorem Numbered.nil : Numbered [] := by
  intro i b hb
  simp at hb

/-- Heights are words, so a numbered chain has fewer than `2 ^ 64` blocks. -/
theorem Numbered.length_lt {chain : List Block} (h : Numbered chain) : chain.length < 2 ^ 64 := by
  rcases Nat.eq_zero_or_pos chain.length with h0 | hpos
  · omega
  · have hlast := h (chain.length - 1) _ (List.getElem?_eq_getElem (by omega))
    have := chain[chain.length - 1].height.toNat_lt
    omega

theorem Numbered.of_append {xs ys : List Block} (h : Numbered (xs ++ ys)) : Numbered xs := by
  intro i b hb
  have hi := (List.getElem?_eq_some_iff.mp hb).1
  exact h i b (by rw [List.getElem?_append_left hi, hb])

/-- A block of a longer chain stands in the shorter one or is the new one. -/
theorem getElem?_concat_eq_some {xs : List Block} {b c : Block} {i : Nat} :
    (xs ++ [b])[i]? = some c ↔ xs[i]? = some c ∨ i = xs.length ∧ b = c := by
  rcases Nat.lt_trichotomy i xs.length with hi | rfl | hi
  · rw [List.getElem?_append_left hi]
    simp [Nat.ne_of_lt hi]
  · simp
  · rw [List.getElem?_eq_none (by rw [List.length_append, List.length_singleton]; omega)]
    simp [Nat.ne_of_gt hi, Nat.le_of_lt hi]

theorem numbered_concat {xs : List Block} {b : Block} :
    Numbered (xs ++ [b]) ↔ Numbered xs ∧ b.height.toNat = xs.length + 1 := by
  constructor
  · intro h
    exact ⟨h.of_append, h xs.length b (by simp)⟩
  · rintro ⟨h, hb⟩ i c hc
    rcases getElem?_concat_eq_some.mp hc with hc | ⟨rfl, rfl⟩
    · exact h i c hc
    · exact hb

/-- The tip of a numbered chain stands as high as the chain is long. -/
theorem Numbered.height_ledger {chain : List Block} (h : Numbered chain) (peers : List Peer) :
    (Store.ofChain peers chain).ledger.height.toNat = chain.length := by
  induction chain using List.reverseRecOn with
  | nil => rfl
  | append_singleton xs b _ =>
      have hb := (numbered_concat.mp h).2
      rw [Store.ledger_ofChain_append, List.length_append]
      exact hb

/-- What is certified on top of a numbered chain carries the numbers on. -/
theorem Numbered.append_certified {m : FaultModel} {xs ys : List Block} (h : Numbered xs)
    (peers : List Peer) (hys : Validation.Certified m (Store.ofChain peers xs).ledger ys) :
    Numbered (xs ++ ys) := by
  intro i b hb
  rcases Nat.lt_or_ge i xs.length with hi | hi
  · rw [List.getElem?_append_left hi] at hb
    exact h i b hb
  · rw [List.getElem?_append_right hi] at hb
    have := hys.height_getElem hb
    rw [h.height_ledger] at this
    omega

/-- Every height but zero is one above a position. -/
theorem exists_position {height : UInt64} (h : height ≠ 0) : ∃ i, height.toNat = i + 1 := by
  have hne := UInt64.toNat_inj.not.mpr h
  rw [UInt64.toNat_zero] at hne
  exact Nat.exists_eq_succ_of_ne_zero hne

/-- A height is looked up one position below. -/
theorem Store.blockAt_eq {s : Store} {height : UInt64} {i : Nat} (h : height.toNat = i + 1) :
    s.blockAt height = s.blocks[i]? := by
  have hne : height ≠ 0 := by
    rintro rfl
    simp at h
  rw [blockAt, if_neg hne, h, Nat.add_sub_cancel]

/-! ## Links -/

theorem hashBelow_append {xs ys : List Block} {i : Nat} (h : i ≤ xs.length) :
    hashBelow (xs ++ ys) i = hashBelow xs i := by
  cases i with
  | zero => rfl
  | succ i => rw [hashBelow, hashBelow, List.getElem?_append_left h]

theorem linkedAt_append {xs ys : List Block} {i : Nat} (h : i < xs.length) :
    LinkedAt (xs ++ ys) i ↔ LinkedAt xs i := by
  rw [LinkedAt, LinkedAt, List.getElem?_append_left h, hashBelow_append (Nat.le_of_lt h)]

/-- The last position is linked when its block names the hash below it. -/
theorem linkedAt_concat {chain : List Block} {b : Block} :
    LinkedAt (chain ++ [b]) chain.length ↔ b.prev = hashBelow chain chain.length := by
  rw [LinkedAt, hashBelow_append (Nat.le_refl _), List.getElem?_concat_length]
  exact ⟨fun h => h b rfl, fun h c hc => by rw [← Option.some.inj hc, h]⟩

/-- The tip of a chain has the hash that the next block is to name. -/
theorem hash_tip_ofChain (peers : List Peer) (chain : List Block) :
    (Store.ofChain peers chain).ledger.tip.hash = hashBelow chain chain.length := by
  induction chain using List.reverseRecOn with
  | nil => rfl
  | append_singleton xs b _ =>
      rw [Store.ledger_ofChain_append, List.length_append]
      simp [hashBelow, Ledger.extend]

/-! ## Chains that agree -/

/-- The blocks `new` are certified, and agree with `chain` as far as both go. -/
structure OnTrack (m : FaultModel) (ledger : Ledger) (chain new : List Block) : Prop where
  certified : Validation.Certified m ledger new
  agrees : ∀ (i : Nat) (b c : Block), new[i]? = some b → chain[i]? = some c → b.hash = c.hash

section

variable {m : FaultModel} {ledger : Ledger} {chain new : List Block}

theorem OnTrack.start : OnTrack m ledger chain [] := ⟨trivial, by simp⟩

/-- Up to the end of `chain` both lead to the same ledger. -/
theorem OnTrack.extendAll_eq (h : OnTrack m ledger chain new)
    (hchain : Validation.Certified m ledger chain) (hle : new.length ≤ chain.length) :
    ledger.extendAll new = ledger.extendAll (chain.take new.length) := by
  -- only the last block decides on the ledger
  rcases List.eq_nil_or_concat' new with rfl | ⟨init, b, rfl⟩
  · rfl
  · have hlt : init.length < chain.length := by
      rw [List.length_append, List.length_singleton] at hle
      exact hle
    have hc : chain[init.length]? = some chain[init.length] := List.getElem?_eq_getElem hlt
    have hb : (init ++ [b])[init.length]? = some b := by simp
    have hhash := h.agrees init.length b _ hb hc
    have hheight : b.height = chain[init.length].height := by
      apply UInt64.toNat_inj.mp
      rw [h.certified.height_getElem hb, hchain.height_getElem hc]
    rw [List.length_append, List.length_singleton, List.take_add_one, hc,
      Ledger.extendAll_append, Ledger.extendAll_append]
    simp [Ledger.extend, Ledger.extendAll_cons, hhash, hheight]

end

/-! ## Commits -/

/-- Commits leave the peers alone. -/
@[simp]
theorem Store.peers_commit (s : Store) (tx : Transaction) : (s.commit tx).2.peers = s.peers := by
  unfold commit
  split
  · rfl
  · split
    · rfl
    · split <;> rfl

theorem Store.opened_commit (s : Store) (tx : Transaction) :
    (s.commit tx).2.opened = s.opened := by
  unfold commit
  split
  · rfl
  · split
    · rfl
    · split <;> rfl

/-- A transaction with blocks, opened on the present chain, is committed when
no failure is scripted. -/
theorem Store.commit_eq_ok (s : Store) (tx : Transaction) (hpending : tx.pending ≠ [])
    (hfail : s.failNextCommit = false) (hbase : tx.base.toNat = s.blocks.length) :
    ∃ s', s.commit tx = (.ok s'.ledger, s') := by
  refine ⟨{ s with
    blocks := s.blocks ++ tx.pending, prepared := none, commits := s.commits + 1 }, ?_⟩
  simp [commit, hpending, hfail, hbase]

end LedgerCommit
