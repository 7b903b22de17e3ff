import LedgerCommit.Proofs.FirstFailure

/-!
# What the hash of a block binds

The bytes hashed for a block begin with four fields of fixed width, and the
payload is all that follows: no byte can be read as part of another field. So
the bytes give the contents back, and blocks of one hash have the same contents
unless two different byte strings have the same digest. The check compares the
hash with the contents. Whoever changes the contents of an accepted block and
keeps its hash finds no ledger that accepts the result, short of such a pair of
byte strings.
-/

namespace LedgerCommit

/-- Two different byte strings with the same digest. -/
def Blake2b.Collide (x y : List UInt8) : Prop := x ≠ y ∧ digest x = digest y

namespace Block

variable {a b : Block}

/-- The bytes that the hash of a block is taken over. -/
def hashedBytes (b : Block) : List UInt8 := preimage b.height b.prev b.time b.payload

/-- Two blocks may differ in their hash and their seals only. -/
structure SameContents (a b : Block) : Prop where
  height : a.height = b.height
  prev : a.prev = b.prev
  time : a.time = b.time
  payload : a.payload = b.payload

/-! ## The layout of the hashed bytes -/

/-- The hashed bytes determine every field, whatever the length of the payload. -/
theorem preimage_inj {height height' time time' : UInt64} {prev prev' : Hash}
    {payload payload' : List UInt8}
    (h : preimage height prev time payload = preimage height' prev' time' payload') :
    height = height' ∧ prev = prev' ∧ time = time' ∧ payload = payload' := by
  -- all that stands before the payload has the same width in both
  obtain ⟨hfront, hpayload⟩ := List.append_inj h (by simp)
  obtain ⟨hfront, -⟩ := List.append_inj hfront (by simp)
  obtain ⟨hfront, htime⟩ := List.append_inj hfront (by simp)
  obtain ⟨hheight, hprev⟩ := List.append_inj hfront (by simp)
  refine ⟨wordBytes_inj hheight, ?_, wordBytes_inj htime, hpayload⟩
  obtain ⟨bytes⟩ := prev
  obtain ⟨bytes'⟩ := prev'
  exact congrArg Hash.mk (Vector.toList_inj.mp hprev)

theorem hashedBytes_eq_iff : a.hashedBytes = b.hashedBytes ↔ a.SameContents b := by
  constructor
  · intro h
    obtain ⟨hheight, hprev, htime, hpayload⟩ := preimage_inj h
    exact ⟨hheight, hprev, htime, hpayload⟩
  · rintro ⟨hheight, hprev, htime, hpayload⟩
    rw [hashedBytes, hashedBytes, hheight, hprev, htime, hpayload]

/-! ## Blocks of one hash -/

theorem contentHash_eq_iff_digest :
    a.contentHash = b.contentHash ↔ Blake2b.digest a.hashedBytes = Blake2b.digest b.hashedBytes :=
  Hash.mk.injEq _ _ ▸ Iff.rfl

/-- Blocks have the same hash for their contents if these are the same, or by
a collision. -/
theorem contentHash_eq_iff : a.contentHash = b.contentHash ↔
    a.SameContents b ∨ Blake2b.Collide a.hashedBytes b.hashedBytes := by
  rw [contentHash_eq_iff_digest, ← hashedBytes_eq_iff]
  constructor
  · intro h
    by_cases hbytes : a.hashedBytes = b.hashedBytes
    · exact .inl hbytes
    · exact .inr ⟨hbytes, h⟩
  · rintro (hbytes | hcollide)
    · rw [hbytes]
    · exact hcollide.2

theorem contentHash_foldl_addSeal (b : Block) (seals : List Seal) :
    (seals.foldl addSeal b).contentHash = b.contentHash := by
  rw [foldl_addSeal]
  rfl

end Block

namespace Validation

variable {m : FaultModel} {b : Block} {l : Ledger}

/-- A block whose hash is not the one of its contents fails before its seals
are looked at. -/
theorem failure_of_hash_ne (m : FaultModel) (l : Ledger) (h : b.hash ≠ b.contentHash) :
    ∃ e ∈ [.unexpectedHeight l.height b.height, .brokenLink b.height, .hashMismatch b.height],
      FirstFailure m b l e := by
  by_cases hheight : b.height.toNat = l.height.toNat + 1
  · by_cases hprev : b.prev = l.tip.hash
    · exact ⟨_, by simp, .contents hheight hprev h⟩
    · exact ⟨_, by simp, .link hheight hprev⟩
  · exact ⟨_, by simp, .height hheight⟩

/-- Above the last height nothing can be checked. -/
theorem check_of_last_height (m : FaultModel) (b : Block) (h : ¬ l.height.toNat < 2 ^ 64 - 1) :
    check m b l = .error (.overflow .add) := by
  have hlarge : UInt64.size ≤ l.height.toNat + (1 : UInt64).toNat := by
    show 2 ^ 64 ≤ l.height.toNat + 1
    omega
  simp only [check, checkedAdd_eq_error hlarge, Except.mapError, bind, Except.bind]

end Validation

namespace Block

open Validation

/-- **The hash of a block commits to all its contents.** For any two blocks:
the same bytes are hashed for them exactly when height, hash of the block
below, time and payload are the same, and the hashes for their contents are the
same exactly then or when the hashed bytes collide. A block that has the hash
of an accepted one and not its contents is refused on every ledger and under
every fault model, for its height, its link or its hash, unless the hashed
bytes collide. Seals that are added change nothing about the hash. -/
theorem hash_commits_to_contents (a b : Block) :
    (a.hashedBytes = b.hashedBytes ↔ a.SameContents b)
      ∧ (a.contentHash = b.contentHash ↔
        a.SameContents b ∨ Blake2b.Collide a.hashedBytes b.hashedBytes)
      ∧ (∀ m l, check m a l = .ok () → b.hash = a.hash → ¬ a.SameContents b →
        Blake2b.Collide a.hashedBytes b.hashedBytes
          ∨ ∀ m' l', ∃ fault, check m' b l' = .error fault
            ∧ (l'.height.toNat < 2 ^ 64 - 1 → ∃ e ∈ [.unexpectedHeight l'.height b.height,
              .brokenLink b.height, .hashMismatch b.height], fault = .failed e))
      ∧ ∀ seals : List Seal, (seals.foldl addSeal a).contentHash = a.contentHash := by
  refine ⟨hashedBytes_eq_iff, contentHash_eq_iff, ?_, contentHash_foldl_addSeal a⟩
  intro m l haccepted hhash hdiffer
  by_cases hcontents : a.contentHash = b.contentHash
  · exact .inl ((contentHash_eq_iff.mp hcontents).resolve_left hdiffer)
  have hmismatch : b.hash ≠ b.contentHash := by
    rw [hhash, (check_eq_ok_iff.mp haccepted).hash]
    exact hcontents
  refine .inr fun m' l' => ?_
  by_cases hroom : l'.height.toNat < 2 ^ 64 - 1
  · obtain ⟨e, he, hfirst⟩ := failure_of_hash_ne m' l' hmismatch
    exact ⟨_, check_of_failure hroom hfirst, fun _ => ⟨e, he, rfl⟩⟩
  · exact ⟨_, check_of_last_height m' b hroom, fun h => absurd h hroom⟩

/-- A byte more in the payload of an accepted block, with its hash kept, and no
ledger takes it. -/
theorem longer_payload_is_refused :
    let l : Ledger := ⟨Neutral.peers, ⟨0, .zero⟩⟩
    let a := Neutral.nextBlock l 7
    let b := { a with payload := [0] }
    check .byzantine a l = .ok () ∧ b.hash = a.hash ∧ ¬ a.SameContents b
      ∧ ∀ l', ∃ fault, check .byzantine b l' = .error fault := by
  intro l a b
  have haccepted : check .byzantine a l = .ok () :=
    Neutral.check_nextBlock .byzantine 7 rfl (by decide)
  have hdiffer : ¬ a.SameContents b := fun h => absurd h.payload (by decide)
  have hdigests : ¬ Blake2b.Collide a.hashedBytes b.hashedBytes := fun h =>
    absurd h.2 (by decide +kernel)
  obtain hcollide | hrefused :=
    (hash_commits_to_contents a b).2.2.1 .byzantine l haccepted rfl hdiffer
  · exact absurd hcollide hdigests
  · refine ⟨haccepted, rfl, hdiffer, fun l' => ?_⟩
    obtain ⟨fault, hfault, -⟩ := hrefused .byzantine l'
    exact ⟨fault, hfault⟩

end Block

end LedgerCommit
