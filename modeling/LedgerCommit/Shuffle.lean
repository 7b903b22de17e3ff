import LedgerCommit.Crypto.ChaCha
import LedgerCommit.Hash

/-!
# Seeded shuffles

A shuffle rearranges a list as a hash tells: from the last position down to
the second, the element at a position changes places with one that is drawn
among the positions up to it. The draws depend on the seed and on the length
of the list alone, so lists of one length are rearranged in the same way.
-/

namespace LedgerCommit.Shuffle

/-- The bits of the numbers that a number below `range` is drawn from: a word
of the stream, or two words where one is too short. -/
def bits (range : Nat) : Nat := if range < UInt32.size then 32 else 64

/-- The next of these numbers; of two words the low one comes first. -/
def nextNumber (range : Nat) (s : ChaCha.Stream) : Nat × ChaCha.Stream :=
  let (low, s) := s.next
  if range < UInt32.size then (low.toNat, s)
  else
    let (high, s) := s.next
    (low.toNat + UInt32.size * high.toNat, s)

theorem nextNumber_lt (range : Nat) (s : ChaCha.Stream) :
    (nextNumber range s).1 < Nat.pow 2 (bits range) := by
  have hlow : s.next.1.toNat < UInt32.size := s.next.1.toNat_lt
  have hhigh : s.next.2.next.1.toNat < UInt32.size := s.next.2.next.1.toNat_lt
  by_cases h : range < UInt32.size
  · simp only [nextNumber, bits, if_pos h]
    exact hlow
  · simp only [nextNumber, bits, if_neg h]
    show s.next.1.toNat + UInt32.size * s.next.2.next.1.toNat < UInt32.size * UInt32.size
    simp only [UInt32.size] at *
    omega

/-- The largest low half of a product that is taken when a number below
`range` is drawn; products above it would favour some numbers. -/
def zone (range : Nat) : Nat := range * Nat.pow 2 (bits range - 1 - Nat.log2 range) - 1

/-- The words after which a stream starts over. -/
def period : Nat := Nat.pow 2 68

/-- Draw a number up to `i`: numbers are taken from the stream until one falls
into the zone. A stream none of whose `attempts` numbers does gives zero. -/
def draw (i : Nat) : Nat → ChaCha.Stream → Fin (i + 1) × ChaCha.Stream
  | 0, s => (0, s)
  | attempts + 1, s =>
      let drawn := nextNumber (i + 1) s
      let product := drawn.1 * (i + 1)
      if product % Nat.pow 2 (bits (i + 1)) ≤ zone (i + 1) then
        (⟨product / Nat.pow 2 (bits (i + 1)), Nat.div_lt_of_lt_mul
          (Nat.mul_lt_mul_of_pos_right (nextNumber_lt (i + 1) s) (Nat.succ_pos i))⟩, drawn.2)
      else draw i attempts drawn.2

/-- The exchanges of a shuffle of the positions up to `i`, in order: each
position with the one drawn for it. -/
def exchanges : Nat → ChaCha.Stream → List (Nat × Nat)
  | 0, _ => []
  | i + 1, s =>
      let (j, s) := draw (i + 1) period s
      (i + 1, j.val) :: exchanges i s

def exchange {α : Type} (xs : Array α) (ij : Nat × Nat) : Array α :=
  xs.swapIfInBounds ij.1 ij.2

/-- The list rearranged as the seed tells. -/
def shuffle {α : Type} (seed : Hash) (xs : List α) : List α :=
  ((exchanges (xs.length - 1) (.ofKey seed.bytes)).foldl exchange xs.toArray).toList

theorem perm_exchange {α : Type} (xs : Array α) (ij : Nat × Nat) :
    (exchange xs ij).toList.Perm xs.toList := by
  unfold exchange Array.swapIfInBounds
  split
  · split
    · exact (Array.swap_perm _ _).toList
    · exact .refl _
  · exact .refl _

/-- A shuffle loses nothing and repeats nothing. -/
theorem perm_shuffle {α : Type} (seed : Hash) (xs : List α) : (shuffle seed xs).Perm xs := by
  have key : ∀ (es : List (Nat × Nat)) (a : Array α),
      (es.foldl exchange a).toList.Perm a.toList := by
    intro es
    induction es with
    | nil => intro a; exact .refl _
    | cons e es ih =>
        intro a
        rw [List.foldl_cons]
        exact (ih _).trans (perm_exchange a e)
  exact key _ xs.toArray

theorem length_shuffle {α : Type} (seed : Hash) (xs : List α) :
    (shuffle seed xs).length = xs.length := (perm_shuffle seed xs).length_eq

end LedgerCommit.Shuffle
