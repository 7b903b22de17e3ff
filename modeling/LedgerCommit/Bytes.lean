/-!
# Byte strings

Byte strings of a fixed length, and integers written as bytes, least
significant byte first.
-/

namespace LedgerCommit

abbrev Bytes (n : Nat) := Vector UInt8 n

namespace Bytes

def ofList? (n : Nat) (bs : List UInt8) : Option (Bytes n) :=
  if h : bs.length = n then some ⟨bs.toArray, by simpa using h⟩ else none

theorem ofList?_toList {n : Nat} (b : Bytes n) : ofList? n b.toList = some b := by
  have h : b.toList.length = n := b.length_toList
  rw [ofList?, dif_pos h]
  congr 1

theorem toList_of_ofList? {n : Nat} {bs : List UInt8} {b : Bytes n}
    (h : ofList? n bs = some b) : b.toList = bs := by
  unfold ofList? at h
  split at h
  next => cases h; rfl
  next => cases h

def compare {n : Nat} (a b : Bytes n) : Ordering := List.compareLex Ord.compare a.toList b.toList

end Bytes

/-- The `k` low bytes of `v`, least significant first. -/
def littleEndian : Nat → Nat → List UInt8
  | 0, _ => []
  | k + 1, v => UInt8.ofNat v :: littleEndian k (v / 256)

def ofLittleEndian : List UInt8 → Nat
  | [] => 0
  | b :: bs => b.toNat + 256 * ofLittleEndian bs

@[simp]
theorem length_littleEndian (k v : Nat) : (littleEndian k v).length = k := by
  induction k generalizing v with
  | zero => rfl
  | succ k ih => simp [littleEndian, ih]

/-- Reading the bytes written gives the number back, up to the bytes cut off. -/
theorem ofLittleEndian_littleEndian (k v : Nat) :
    ofLittleEndian (littleEndian k v) = v % Nat.pow 256 k := by
  rw [Nat.pow_eq]
  induction k generalizing v with
  | zero => simp [littleEndian, ofLittleEndian, Nat.mod_one]
  | succ k ih =>
      rw [littleEndian, ofLittleEndian, ih, Nat.pow_succ', Nat.mod_mul]
      simp

/-- A word as its eight bytes. -/
def wordBytes (w : UInt64) : List UInt8 := littleEndian 8 w.toNat

@[simp]
theorem length_wordBytes (w : UInt64) : (wordBytes w).length = 8 := length_littleEndian 8 _

theorem wordBytes_inj {a b : UInt64} (h : wordBytes a = wordBytes b) : a = b := by
  have key : ∀ w : UInt64, ofLittleEndian (wordBytes w) = w.toNat := by
    intro w
    rw [wordBytes, ofLittleEndian_littleEndian]
    exact Nat.mod_eq_of_lt w.toNat_lt
  exact UInt64.toNat_inj.mp (by rw [← key a, ← key b, h])

end LedgerCommit
