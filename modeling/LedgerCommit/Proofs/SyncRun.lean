import LedgerCommit.Proofs.Download

/-!
# Runs of the synchronizer

A run resolves decisions one after the other; between them blocks are
prepared and failures scripted. A run in which no held block is decided only
downloads: it extends the committed chain by certified blocks.
-/

namespace LedgerCommit

/-! ## Stores with more blocks -/

/-- The store has the same peers and, on top of the same chain, more certified blocks. -/
structure Store.Extends (m : FaultModel) (s s' : Store) : Prop where
  peers : s'.peers = s.peers
  blocks : ∃ new, s'.blocks = s.blocks ++ new ∧ Validation.Certified m s.ledger new

namespace Store

variable {m : FaultModel} {s s' s'' : Store}

theorem Extends.of_eq (hpeers : s'.peers = s.peers) (hblocks : s'.blocks = s.blocks) :
    Extends m s s' :=
  ⟨hpeers, [], by rw [hblocks, List.append_nil], trivial⟩

theorem Extends.refl (m : FaultModel) (s : Store) : Extends m s s := .of_eq rfl rfl

theorem Extends.trans (h : Extends m s s') (h' : Extends m s' s'') : Extends m s s'' := by
  obtain ⟨new, hnew, hcertified⟩ := h.blocks
  obtain ⟨more, hmore, hcertified'⟩ := h'.blocks
  have hledger : s'.ledger = s.ledger.extendAll new := by
    rw [ledger_eq_ofChain, h.peers, hnew, ledger_ofChain_append]
    rfl
  rw [hledger] at hcertified'
  refine ⟨h'.peers.trans h.peers, new ++ more, ?_, ?_⟩
  · rw [hmore, hnew, List.append_assoc]
  · exact Validation.certified_append.mpr ⟨hcertified, hcertified'⟩

end Store

namespace Synchronizer

variable {σ : Type}

/-! ## Steps and runs -/

/-- What happens to a store that a synchronizer works on. -/
inductive Input where
  | resolve (d : Decision)
  | prepare (b : Block)
  | scriptCommitFailure
  | scriptApplyFailure (height : UInt64)

/-- Whether the input leaves it to downloads to change the chain. -/
def Input.Downloads : Input → Prop
  | resolve (.heldBlock ..) => False
  | _ => True

def step (L : Loader σ) (p : SyncPolicy) (s : Store) (l : σ) : Input → Store × σ
  | .resolve d => ((resolve L p s l d).store, (resolve L p s l d).loader)
  | .prepare b => (s.prepare b, l)
  | .scriptCommitFailure => (s.scriptCommitFailure, l)
  | .scriptApplyFailure height => (s.scriptApplyFailure height, l)

/-- The store and the loader after some inputs. -/
def run (L : Loader σ) (p : SyncPolicy) : Store → σ → List Input → Store × σ
  | s, l, [] => (s, l)
  | s, l, i :: is => run L p (step L p s l i).1 (step L p s l i).2 is

variable {L : Loader σ} {p : SyncPolicy}

/-- A block is committed and reported when the first signer delivers the chain up to its height. -/
theorem resolve_of_first_answer {s : Store} {l l' : σ} {round : Round} {peer : PublicKey}
    {blocks : List Block} (ledger : Ledger) (peers : List PublicKey) (agreed : Hash)
    (hbelow : s.ledger.height < round.height)
    (hanswer : L.retrieve l s.ledger.height peer = (blocks, l'))
    (hcertified : Validation.Certified p.model s.ledger blocks)
    (hreached : round.height ≤ (s.ledger.extendAll blocks).height) (hasked : 1 ≤ p.maxRequests)
    (happly : s.failApplyAt = none) (hcommit : s.failNextCommit = false)
    (hbase : s.ledger.height.toNat = s.blocks.length) :
    let r := resolve L p s l (.otherBlock round ledger (peer :: peers) agreed)
    r.result = .ok (some ⟨.commit, round, r.store.ledger⟩)
      ∧ r.store.blocks = s.blocks ++ blocks := by
  intro r
  obtain ⟨hresult, hblocks, -⟩ := download_of_first_answer peers ledger.height hbelow hanswer
    hcertified hreached hasked happly hcommit hbase
  refine ⟨?_, hblocks⟩
  show commitEvent round _ = _
  rw [hresult]
  rfl

theorem extends_download (s : Store) (l : σ) (target : UInt64) (peers : List PublicKey)
    (start : UInt64) : s.Extends p.model (download L p s l target peers start).store := by
  obtain ⟨hpeers, hblocks⟩ := (download_cases L p s l target peers start).grows
  exact ⟨hpeers, hblocks⟩

theorem extends_step (s : Store) (l : σ) {i : Input} (h : i.Downloads) :
    s.Extends p.model (step L p s l i).1 := by
  cases i with
  | prepare b => exact .of_eq rfl rfl
  | scriptCommitFailure => exact .of_eq rfl rfl
  | scriptApplyFailure height => exact .of_eq rfl rfl
  | resolve d =>
      cases d with
      | heldBlock => exact h.elim
      | otherBlock => exact extends_download ..
      | future => exact extends_download ..
      | nothing => exact .refl ..
      | blockReject => exact .refl ..
      | proposalReject => exact .refl ..

/-- **Runs of downloads only put certified blocks on the chain.** -/
theorem extends_run (s : Store) (l : σ) {is : List Input} (h : ∀ i ∈ is, i.Downloads) :
    s.Extends p.model (run L p s l is).1 := by
  induction is generalizing s l with
  | nil => exact .refl ..
  | cons i is ih =>
      have hstep := extends_step (L := L) (p := p) s l (h i List.mem_cons_self)
      exact hstep.trans (ih _ _ fun j hj => h j (List.mem_cons_of_mem i hj))

end Synchronizer

end LedgerCommit
