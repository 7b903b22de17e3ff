import LedgerCommit.Store

/-!
# Block sources

A source knows the top height of a chain and its blocks by height, and either
may fail. A request for the blocks above a height is answered with the blocks
from the next height on, up to the top or to the first one that is missing.
-/

namespace LedgerCommit

/-- A chain that can be asked for its top and for its blocks. -/
structure BlockSource where
  top : Except StoreError UInt64
  blockAt : UInt64 → Except StoreError (Option Block)

namespace BlockSource

def ofStore (s : Store) : BlockSource := ⟨.ok s.tip.height, fun h => .ok (s.blockAt h)⟩

/-- A source given by its top and a table of its blocks by height; without a
top, and at a height without a block, it fails. -/
def ofTable (top : Option UInt64) (table : List (UInt64 × Option Block)) : BlockSource where
  top :=
    match top with
    | some h => .ok h
    | none => .error (.backend "no top")
  blockAt h :=
    match table.lookup h with
    | none => .ok none
    | some (some b) => .ok (some b)
    | some none => .error (.backend "no block")

/-- The blocks at `count` heights from `height` on, as far as they are found. -/
def blocksFrom (s : BlockSource) (height : UInt64) : Nat → List Block
  | 0 => []
  | count + 1 =>
      match s.blockAt height with
      | .ok (some b) => b :: s.blocksFrom (height + 1) count
      | _ => []

/-- The blocks above a height. Above the highest height there are none. -/
def answer (s : BlockSource) (height : UInt64) : List Block :=
  match s.top with
  | .error _ => []
  | .ok top => s.blocksFrom (height + 1) (top.toNat - height.toNat)

end BlockSource

end LedgerCommit
