import LedgerCommit.Proofs.Chain
import LedgerCommit.Sync.Loader
import LedgerCommit.Transport.Source

/-!
# Requested suffixes

The blocks above a height of a numbered chain are its suffix from that
position on, in ascending heights. A source that is asked height by height up
to its top answers with this suffix, and so does a script that picks the
blocks by their heights.
-/

namespace LedgerCommit

/-! ## Suffixes of a chain -/

/-- The heights of a numbered chain ascend. -/
theorem Numbered.pairwise {chain : List Block} (h : Numbered chain) :
    chain.Pairwise fun a b => a.height < b.height := by
  rw [List.pairwise_iff_getElem]
  intro i j hi hj hij
  have hlow := h i _ (List.getElem?_eq_getElem hi)
  have hhigh := h j _ (List.getElem?_eq_getElem hj)
  rw [UInt64.lt_iff_toNat_lt]
  omega

/-- The blocks above a height are those from this position on. -/
theorem Numbered.blocksAbove_eq_drop {chain : List Block} (h : Numbered chain) (height : UInt64) :
    blocksAbove height chain = chain.drop height.toNat := by
  have hlow : (chain.take height.toNat).filter (height < ·.height) = [] := by
    rw [List.filter_eq_nil_iff]
    intro b hb
    obtain ⟨i, hi⟩ := List.getElem?_of_mem hb
    have hlt := (List.getElem?_eq_some_iff.mp hi).1
    rw [List.length_take] at hlt
    rw [List.getElem?_take_of_lt (by omega)] at hi
    have := h i b hi
    rw [decide_eq_true_eq, UInt64.lt_iff_toNat_lt]
    omega
  have hhigh : (chain.drop height.toNat).filter (height < ·.height) = chain.drop height.toNat := by
    rw [List.filter_eq_self]
    intro b hb
    obtain ⟨i, hi⟩ := List.getElem?_of_mem hb
    rw [List.getElem?_drop] at hi
    have := h _ b hi
    rw [decide_eq_true_eq, UInt64.lt_iff_toNat_lt]
    omega
  rw [blocksAbove]
  conv_lhs => rw [← List.take_append_drop height.toNat chain]
  rw [List.filter_append, hlow, hhigh, List.nil_append]

theorem Numbered.pairwise_blocksAbove {chain : List Block} (h : Numbered chain) (height : UInt64) :
    (blocksAbove height chain).Pairwise fun a b => a.height < b.height :=
  h.pairwise.sublist List.filter_sublist

/-! ## Sources -/

namespace BlockSource

/-- A store hands out its blocks one height after the other. -/
theorem blocksFrom_ofStore (s : Store) {i n : Nat} (hn : i + n ≤ s.blocks.length)
    (hsize : s.blocks.length < 2 ^ 64) :
    (ofStore s).blocksFrom (UInt64.ofNat (i + 1)) n = (s.blocks.drop i).take n := by
  induction n generalizing i with
  | zero => rfl
  | succ n ih =>
      have hi : i < s.blocks.length := by omega
      have hheight : (UInt64.ofNat (i + 1)).toNat = i + 1 := by
        apply UInt64.toNat_ofNat_of_lt'
        show i + 1 < 2 ^ 64
        omega
      have hblock : (ofStore s).blockAt (UInt64.ofNat (i + 1)) = .ok (some s.blocks[i]) := by
        rw [← List.getElem?_eq_getElem hi, ← Store.blockAt_eq hheight]
        rfl
      have hnext : UInt64.ofNat (i + 1) + 1 = UInt64.ofNat (i + 1 + 1) :=
        (UInt64.ofNat_add (i + 1) 1).symm
      rw [blocksFrom, hblock, hnext, List.drop_eq_getElem_cons hi, List.take_succ_cons]
      dsimp only
      rw [ih (by omega)]

/-- **A source answers with the blocks above the requested height.** -/
theorem answer_ofStore {s : Store} (h : Numbered s.blocks) (height : UInt64) :
    (ofStore s).answer height = blocksAbove height s.blocks := by
  have htop : s.tip.height.toNat = s.blocks.length := h.height_ledger s.peers
  have hnext : height + 1 = UInt64.ofNat (height.toNat + 1) := by
    rw [UInt64.ofNat_add, UInt64.ofNat_toNat]
    rfl
  have hanswer : (ofStore s).answer height
      = (ofStore s).blocksFrom (height + 1) (s.tip.height.toNat - height.toNat) := rfl
  rw [h.blocksAbove_eq_drop, hanswer, htop, hnext]
  by_cases hreach : height.toNat ≤ s.blocks.length
  · rw [blocksFrom_ofStore s (by omega) h.length_lt]
    exact List.take_of_length_le (by rw [List.length_drop])
  · have hnone : s.blocks.length - height.toNat = 0 := by omega
    rw [hnone, List.drop_eq_nil_of_le (by omega)]
    rfl

end BlockSource

/-! ## Scripts -/

namespace Script

/-- The script in which peers serve chains; of two chains for one peer the
later one counts. -/
def serving (chains : List (PublicKey × List Block)) : Script :=
  chains.foldl (fun s x => s.serve x.1 x.2) empty

theorem lookup_filter_ne (chains : List (PublicKey × List Block)) {k peer : PublicKey}
    (hne : peer ≠ k) : (chains.filter (·.1 ≠ k)).lookup peer = chains.lookup peer := by
  induction chains with
  | nil => rfl
  | cons x chains ih =>
      obtain ⟨key, chain⟩ := x
      by_cases hkey : key = k
      · subst hkey
        have hpeer : (peer == key) = false := beq_eq_false_iff_ne.mpr hne
        rw [List.filter_cons_of_neg (by simp), List.lookup_cons, hpeer, ih]
      · rw [List.filter_cons_of_pos (by simpa using hkey), List.lookup_cons, List.lookup_cons, ih]

theorem lookup_serving (chains : List (PublicKey × List Block)) (peer : PublicKey) :
    (serving chains).chains.lookup peer = chains.reverse.lookup peer := by
  induction chains using List.reverseRecOn with
  | nil => rfl
  | append_singleton chains x ih =>
      obtain ⟨key, chain⟩ := x
      have hserve : (serving (chains ++ [(key, chain)])).chains
          = (key, chain) :: (serving chains).chains.filter (·.1 ≠ key) := by
        rw [serving, List.foldl_append]
        rfl
      rw [hserve, List.reverse_concat, List.lookup_cons, List.lookup_cons]
      cases hpeer : peer == key with
      | true => rfl
      | false =>
          dsimp only
          rw [lookup_filter_ne _ (beq_eq_false_iff_ne.mp hpeer), ih]

theorem answers_serving (chains : List (PublicKey × List Block)) :
    (serving chains).answers = [] := by
  induction chains using List.reverseRecOn with
  | nil => rfl
  | append_singleton chains x ih =>
      rw [serving, List.foldl_append]
      exact ih

/-- **Without queued answers a script answers from the chains it serves.** -/
theorem retrieve_serving (chains : List (PublicKey × List Block)) (height : UInt64)
    (peer : PublicKey) :
    ((serving chains).retrieve height peer).1
      = blocksAbove height ((chains.reverse.lookup peer).getD []) := by
  rw [← lookup_serving, retrieve]
  simp only [answers_serving]
  rfl

end Script

end LedgerCommit
