import LedgerCommit.Proofs.NeutralKey

/-!
# The longest front that is taken

Two parties look at each block of a stream: the check, against the ledger of
the transaction, and the transaction itself, which compares height and link
once more and refuses the scripted height. The second look finds no fault with
a block that passed the check unless it stands at that height, so the two
agree on what is taken: the longest front of the stream in which every block
is certified on top of those before it and none is at the scripted height.

A stream may be cut anywhere. Taking its parts one after the other, as long as
they are taken to the end, comes to the same as taking it as a whole.
-/

namespace LedgerCommit

namespace Validation

variable {m : FaultModel} {tx : Transaction} {b : Block} {bs rest front taken : List Block}

/-! ## What can be taken -/

/-- The block passes the check on the ledger of the transaction and is not at
the height at which applying fails. -/
structure ComesNext (m : FaultModel) (tx : Transaction) (b : Block) : Prop where
  check : check m b tx.ledger = .ok ()
  unscripted : tx.failAt ≠ some b.height

/-- Each block passes the check on the ledger that the blocks before it leave,
and none is at the height at which applying fails. -/
structure Takeable (m : FaultModel) (tx : Transaction) (bs : List Block) : Prop where
  certified : Certified m tx.ledger bs
  unscripted : ∀ b ∈ bs, tx.failAt ≠ some b.height

theorem takeable_nil (m : FaultModel) (tx : Transaction) : Takeable m tx [] := ⟨trivial, by simp⟩

theorem takeable_cons :
    Takeable m tx (b :: bs) ↔ ComesNext m tx b ∧ Takeable m (tx.grow [b]) bs := by
  constructor
  · rintro ⟨⟨hcheck, hcertified⟩, hunscripted⟩
    rw [List.forall_mem_cons] at hunscripted
    exact ⟨⟨hcheck, hunscripted.1⟩, hcertified, hunscripted.2⟩
  · rintro ⟨⟨hcheck, hfirst⟩, hcertified, hunscripted⟩
    exact ⟨⟨hcheck, hcertified⟩, List.forall_mem_cons.mpr ⟨hfirst, hunscripted⟩⟩

/-- The longest front of a stream that can be taken. -/
structure LongestFront (m : FaultModel) (tx : Transaction) (bs taken : List Block) : Prop where
  front : taken <+: bs
  takeable : Takeable m tx taken
  longest : ∀ front, front <+: bs → Takeable m tx front → front <+: taken

/-- A block that comes next belongs to the longest front. -/
theorem LongestFront.cons (hb : ComesNext m tx b) (h : LongestFront m (tx.grow [b]) bs taken) :
    LongestFront m tx (b :: bs) (b :: taken) where
  front := List.cons_prefix_cons.mpr ⟨rfl, h.front⟩
  takeable := takeable_cons.mpr ⟨hb, h.takeable⟩
  longest front hfront htakeable := by
    cases front with
    | nil => exact List.nil_prefix
    | cons c front =>
        obtain ⟨rfl, hrest⟩ := List.cons_prefix_cons.mp hfront
        exact List.cons_prefix_cons.mpr ⟨rfl, h.longest front hrest (takeable_cons.mp htakeable).2⟩

/-- Where the first block does not come next, no front but the empty one can be taken. -/
theorem LongestFront.stop (hb : ¬ ComesNext m tx b) : LongestFront m tx (b :: bs) [] where
  front := List.nil_prefix
  takeable := takeable_nil m tx
  longest front hfront htakeable := by
    cases front with
    | nil => exact List.nil_prefix
    | cons c front =>
        obtain ⟨rfl, -⟩ := List.cons_prefix_cons.mp hfront
        exact absurd (takeable_cons.mp htakeable).1 hb

/-! ## Taking a block -/

/-- What passed the check is applied, unless it is at the scripted height. -/
theorem ComesNext.apply_eq (h : ComesNext m tx b) : tx.apply b = .ok (tx.grow [b]) := by
  have hcertificate := check_eq_ok_iff.mp h.check
  exact Transaction.apply_eq_grow h.unscripted hcertificate.height hcertificate.prev

theorem absorb_cons_of_comesNext (h : ComesNext m tx b) :
    absorb m tx (b :: rest) = absorb m (tx.grow [b]) rest := by
  simp only [absorb, h.check, h.apply_eq]

/-- Below the last height a block that does not come next ends the stream. -/
theorem absorb_cons_of_not_comesNext (hpeers : tx.ledger.peers.length < 2 ^ 62)
    (hroom : tx.ledger.height.toNat + 1 < 2 ^ 64) (h : ¬ ComesNext m tx b) :
    absorb m tx (b :: rest) = .ok (false, tx) := by
  rcases hcheck : check m b tx.ledger with (e | o) | _
  · simp only [absorb, hcheck]
  · exact absurd hcheck (check_ne_overflow hpeers hroom)
  · rcases happly : tx.apply b with (e | o) | tx'
    · simp only [absorb, hcheck, happly]
    · exact absurd happly (apply_ne_overflow hroom)
    · exact absurd ⟨hcheck, Transaction.failAt_ne_of_apply happly⟩ h

/-! ## Taking a stream -/

/-- A stream is taken up to the end of its longest front, and the answer is
yes if that is all of it. -/
theorem exists_longestFront (m : FaultModel) (tx : Transaction) (bs : List Block)
    (hpeers : tx.ledger.peers.length < 2 ^ 62)
    (hroom : tx.ledger.height.toNat + bs.length < 2 ^ 64) :
    ∃ taken, LongestFront m tx bs taken
      ∧ absorb m tx bs = .ok (decide (taken = bs), tx.grow taken) := by
  induction bs generalizing tx with
  | nil =>
      refine ⟨[], ⟨List.nil_prefix, takeable_nil m tx, fun _ hfront _ => hfront⟩, ?_⟩
      simp [absorb]
  | cons b rest ih =>
      rw [List.length_cons] at hroom
      by_cases hb : ComesNext m tx b
      · -- the room is for all blocks that are left, and one was taken
        have hheight : (tx.grow [b]).ledger.height.toNat = tx.ledger.height.toNat + 1 :=
          (check_eq_ok_iff.mp hb.check).height
        obtain ⟨taken, hlongest, habsorb⟩ := ih (tx.grow [b]) hpeers (by omega)
        refine ⟨b :: taken, hlongest.cons hb, ?_⟩
        rw [absorb_cons_of_comesNext hb, habsorb]
        simp
      · refine ⟨[], .stop hb, ?_⟩
        rw [absorb_cons_of_not_comesNext hpeers (by omega) hb]
        simp

/-- A stream is taken as its parts are, one after the other, each only if the
one before it was taken to its end. -/
theorem absorb_append (m : FaultModel) (tx : Transaction) (xs ys : List Block) :
    absorb m tx (xs ++ ys) = do
      let (valid, tx') ← absorb m tx xs
      if valid then absorb m tx' ys else return (false, tx') := by
  induction xs generalizing tx with
  | nil => rfl
  | cons b xs ih =>
      rw [List.cons_append, absorb, absorb]
      rcases check m b tx.ledger with (e | o) | _
      · rfl
      · rfl
      · rcases tx.apply b with (e | o) | tx'
        · rfl
        · rfl
        · exact ih tx'

/-- **What is taken of a stream is its longest front that can be taken.** Take
a transaction over fewer than `2 ^ 62` peers and a stream that ends below the
last height. Nothing overflows. The blocks of the longest front in which each
one passes the check on the ledger that the blocks before it leave, and none
is at the scripted height, come to the transaction; its ledger stands at the
last of them, and all else is as it was. The answer is yes if and only if they
are the whole stream. When no failure is scripted, every block that passes the
check is applied. And whatever the streams and the transaction, taking two
streams joined together is taking the first and then, if that was taken to its
end, the second. -/
theorem longest_front_is_taken (m : FaultModel) (tx : Transaction) :
    (∀ bs : List Block, tx.ledger.peers.length < 2 ^ 62 →
        tx.ledger.height.toNat + bs.length < 2 ^ 64 →
        ∃ valid tx' taken, absorb m tx bs = .ok (valid, tx') ∧ LongestFront m tx bs taken
          ∧ tx'.pending = tx.pending ++ taken
          ∧ tx'.ledger.tip = (taken.getLast?.map fun b => ⟨b.height, b.hash⟩).getD tx.ledger.tip
          ∧ tx'.ledger.peers = tx.ledger.peers ∧ tx'.base = tx.base ∧ tx'.failAt = tx.failAt
          ∧ (valid = true ↔ taken = bs))
      ∧ (tx.failAt = none → ∀ b, check m b tx.ledger = .ok () → ∃ tx', tx.apply b = .ok tx')
      ∧ ∀ xs ys : List Block, absorb m tx (xs ++ ys) = do
          let (valid, tx') ← absorb m tx xs
          if valid then absorb m tx' ys else return (false, tx') := by
  refine ⟨?_, ?_, absorb_append m tx⟩
  · intro bs hpeers hroom
    obtain ⟨taken, hlongest, habsorb⟩ := exists_longestFront m tx bs hpeers hroom
    refine ⟨_, _, taken, habsorb, hlongest, rfl, Ledger.tip_extendAll _ _,
      Ledger.peers_extendAll _ _, rfl, rfl, ?_⟩
    exact decide_eq_true_iff
  · intro hfail b hcheck
    have hb : ComesNext m tx b := ⟨hcheck, by simp [hfail]⟩
    exact ⟨_, hb.apply_eq⟩

/-- Of two certified blocks the second is at the scripted height. -/
theorem block_at_scripted_height_is_left :
    let l : Ledger := ⟨Neutral.peers, ⟨0, .zero⟩⟩
    let b := Neutral.nextBlock l 7
    let c := Neutral.nextBlock (l.extend b) 8
    let tx : Transaction := ⟨0, l, [], some 2⟩
    Certified .byzantine l [b, c]
      ∧ ∃ tx', absorb .byzantine tx [b, c] = .ok (false, tx') ∧ tx'.pending = [b]
        ∧ tx'.ledger.tip = ⟨b.height, b.hash⟩ := by
  intro l b c tx
  have hb : check .byzantine b l = .ok () := Neutral.check_nextBlock .byzantine 7 rfl (by decide)
  have hone : b.height.toNat = 1 := (check_eq_ok_iff.mp hb).height
  -- the hashes of the blocks are not to be computed
  clear_value b
  have hextended : (l.extend b).height.toNat = 1 := hone
  have hc : check .byzantine c (l.extend b) = .ok () :=
    Neutral.check_nextBlock .byzantine 8 rfl (by rw [hextended]; decide)
  have htwo : c.height = 2 := by
    apply UInt64.toNat_inj.mp
    rw [(check_eq_ok_iff.mp hc).height, hextended]
    rfl
  clear_value c
  refine ⟨⟨hb, hc, trivial⟩, ?_⟩
  obtain ⟨valid, tx', taken, habsorb, hlongest, hpending, htip, -, -, -, hvalid⟩ :=
    (longest_front_is_taken .byzantine tx).1 [b, c] (by decide)
      (by show 0 + 2 < 2 ^ 64; decide)
  -- the first block can be taken, the second one cannot
  have hfirst : Takeable .byzantine tx [b] := by
    refine ⟨⟨hb, trivial⟩, ?_⟩
    intro x hx hfail
    rw [List.mem_singleton.mp hx] at hfail
    rw [← Option.some.inj hfail] at hone
    exact absurd hone (by decide)
  have hsecond : c ∉ taken := by
    intro hmem
    refine hlongest.takeable.unscripted c hmem ?_
    rw [htwo]
  have htaken : taken = [b] := by
    obtain ⟨more, rfl⟩ := hlongest.longest [b] ⟨[c], rfl⟩ hfirst
    cases more with
    | nil => rfl
    | cons x more =>
        obtain ⟨-, hrest⟩ := List.cons_prefix_cons.mp hlongest.front
        obtain ⟨rfl, -⟩ := List.cons_prefix_cons.mp hrest
        exact absurd (by simp) hsecond
  subst htaken
  have hno : valid = false := by
    rw [← Bool.not_eq_true, hvalid]
    simp
  rw [hno] at habsorb
  exact ⟨tx', habsorb, hpending, htip⟩

end Validation

end LedgerCommit
