import LedgerCommit.Proofs.Certified
import Mathlib.Data.ZMod.Defs
import Mathlib.Tactic.Ring

/-!
# The neutral key

The neutral point of the curve is accepted as a public key, and its multiples
are all neutral. So one signature, the neutral point with the scalar zero,
belongs to every message: a peer with this key certifies whatever it likes,
without a secret. Chains of any length over this peer alone are certified.
-/

namespace LedgerCommit

namespace Ed25519

open Fin.CommRing

/-! ## Inverses -/

theorem power_eq_pow (b : Field) (e : Nat) : power b e = b ^ e := by
  induction e using Nat.strongRecOn generalizing b with
  | _ e ih =>
    rw [power]
    by_cases h : e = 0
    · rw [if_pos h, h, pow_zero]
    · rw [if_neg h, ih (e / 2) (by omega)]
      have hb : (b * b) ^ (e / 2) = b ^ (2 * (e / 2)) := by rw [pow_mul, pow_two]
      rw [hb]
      dsimp only
      by_cases hodd : e % 2 = 1
      · rw [if_pos hodd, ← pow_succ']
        congr 1
        omega
      · rw [if_neg hodd]
        congr 1
        omega

theorem inverse_mul (a b : Field) : inverse (a * b) = inverse a * inverse b := by
  simp only [inverse, power_eq_pow, mul_pow]

/-- Products of invertible elements are invertible. -/
theorem mul_inverse_mul {a b : Field} (ha : a * inverse a = 1) (hb : b * inverse b = 1) :
    a * b * inverse (a * b) = 1 := by
  rw [inverse_mul, mul_mul_mul_comm, ha, hb, mul_one]

theorem two_mul_inverse : (2 : Field) * inverse 2 = 1 := by decide +kernel

theorem negOne_mul_inverse : (-1 : Field) * inverse (-1) = 1 := by decide +kernel

/-! ## Neutral points -/

namespace Point

/-- The point is neutral, in any of its extended coordinates. -/
structure IsNeutral (p : Point) : Prop where
  x : p.x = 0
  y : p.y = p.z
  t : p.t = 0
  invertible : p.z * inverse p.z = 1

theorem isNeutral_neutral : IsNeutral neutral := by
  refine ⟨rfl, rfl, rfl, ?_⟩
  rw [neutral, inverse, power_eq_pow, one_pow, mul_one]

theorem IsNeutral.add {p q : Point} (hp : p.IsNeutral) (hq : q.IsNeutral) :
    (p.add q).IsNeutral := by
  -- the coordinates that are not zero are equal, and a product of units
  have hz : (p.add q).z = 2 * (p.z * q.z) * (2 * (p.z * q.z)) := by
    simp only [Point.add, hp.t]
    ring
  have hunit := mul_inverse_mul two_mul_inverse (mul_inverse_mul hp.invertible hq.invertible)
  refine ⟨?_, ?_, ?_, ?_⟩
  · simp only [Point.add, hp.x, hq.x]
    ring
  · rw [hz]
    simp only [Point.add, hp.x, hq.x, hp.y, hq.y, hp.t]
    ring
  · simp only [Point.add, hp.x, hq.x]
    ring
  · rw [hz]
    exact mul_inverse_mul hunit hunit

theorem IsNeutral.double {p : Point} (hp : p.IsNeutral) : p.double.IsNeutral := by
  have hz : p.double.z = -1 * (p.z * p.z * (p.z * p.z)) := by
    simp only [Point.double, hp.x, hp.y]
    ring
  have hsquare := mul_inverse_mul hp.invertible hp.invertible
  refine ⟨?_, ?_, ?_, ?_⟩
  · simp only [Point.double, hp.x, hp.y]
    ring
  · rw [hz]
    simp only [Point.double, hp.x, hp.y]
    ring
  · simp only [Point.double, hp.x, hp.y]
    ring
  · rw [hz]
    exact mul_inverse_mul negOne_mul_inverse (mul_inverse_mul hsquare hsquare)

/-- All multiples of neutral points are neutral. -/
theorem IsNeutral.scaleAdd {acc p : Point} (hacc : acc.IsNeutral) (hp : p.IsNeutral) (n : Nat) :
    (scaleAdd acc p n).IsNeutral := by
  induction n using Nat.strongRecOn generalizing acc p with
  | _ n ih =>
    rw [Point.scaleAdd]
    by_cases h : n = 0
    · rwa [if_pos h]
    · rw [if_neg h]
      by_cases hodd : n % 2 = 1
      · rw [if_pos hodd]
        exact ih (n / 2) (by omega) (hacc.add hp) hp.double
      · rw [if_neg hodd]
        exact ih (n / 2) (by omega) hacc hp.double

theorem IsNeutral.encode {p : Point} (hp : p.IsNeutral) : p.encode = littleEndian 32 1 := by
  simp only [Point.encode, hp.x, hp.y, hp.invertible, zero_mul]
  rfl

end Point

theorem rootOfRatio_zero (v : Field) : rootOfRatio 0 v = some 0 := by
  simp [rootOfRatio]

theorem decode_neutral : Point.decode (littleEndian 32 1) = some .neutral := by
  have hy : (Fin.ofNat prime 1 : Field) = 1 := rfl
  simp only [Point.decode, ofLittleEndian_littleEndian, hy]
  rw [mul_one, sub_self, rootOfRatio_zero]
  rfl

/-- The neutral signature belongs to every message. -/
theorem verify_neutral (message : List UInt8) :
    verify (littleEndian 32 1) message (littleEndian 32 1 ++ littleEndian 32 0) = true := by
  have hpoint : (littleEndian 32 1 ++ littleEndian 32 0).take 32 = littleEndian 32 1 :=
    List.take_left' (length_littleEndian 32 1)
  have hscalar : (littleEndian 32 1 ++ littleEndian 32 0).drop 32 = littleEndian 32 0 :=
    List.drop_left' (length_littleEndian 32 1)
  have hzero : ofLittleEndian (littleEndian 32 0) = 0 := by decide
  have hbase : scaleBase 0 = .neutral := by
    rw [scaleBase_eq (by decide), Point.scale, Point.scaleAdd_zero]
  have hneg : Point.neutral.neg = .neutral := by simp [Point.neg, Point.neutral]
  simp only [verify, hpoint, hscalar, decode_neutral, hzero, hbase, hneg]
  rw [(Point.isNeutral_neutral.scaleAdd Point.isNeutral_neutral _).encode]
  simp [groupOrder]

end Ed25519

/-! ## Chains over the neutral key -/

namespace Neutral

def key : PublicKey := ⟨⟨(littleEndian 32 1).toArray, by decide⟩⟩

def mark : Seal :=
  ⟨key, ⟨⟨(littleEndian 32 1 ++ littleEndian 32 0).toArray, by decide⟩⟩⟩

def peers : List Peer := [⟨"127.0.0.1:10001", key⟩]

/-- **The neutral seal is valid for every hash.** -/
theorem valid_mark (h : Hash) : mark.valid h = true := Ed25519.verify_neutral h.bytes.toList

/-- The next block on a ledger, with the neutral seal. -/
def nextBlock (l : Ledger) (time : UInt64) : Block :=
  { Block.build (l.height + 1) l.tip.hash time [] with seals := [mark] }

/-- The neutral peer alone certifies the next block at any time. -/
theorem check_nextBlock (m : FaultModel) {l : Ledger} (time : UInt64) (hpeers : l.peers = peers)
    (hroom : l.height.toNat + 1 < 2 ^ 64) : Validation.check m (nextBlock l time) l = .ok () := by
  rw [Validation.check_eq_ok_iff]
  refine ⟨?_, rfl, rfl, ?_, ?_⟩
  · exact toNat_of_checkedAdd (checkedAdd_eq_ok hroom)
  · intro s hs
    obtain rfl := List.mem_singleton.mp hs
    refine ⟨?_, valid_mark _⟩
    rw [Ledger.hasPeer_iff, hpeers]
    exact ⟨_, List.mem_singleton_self _, rfl⟩
  · rw [hpeers]
    cases m <;> rfl

end Neutral

end LedgerCommit
