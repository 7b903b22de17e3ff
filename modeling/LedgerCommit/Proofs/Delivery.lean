import LedgerCommit.Proofs.RequestedSuffix
import LedgerCommit.Proofs.TransportProgress

/-!
# What readers are given

A reader asks for the blocks of a peer above a height, and other readers ask
at the same time. Whatever the order of turns, each reader is given the
blocks of that peer's chain above that height, in their order, and when the
stream is over, all of them. This is what a script that serves the same chains
answers.
-/

namespace LedgerCommit

namespace Transport

/-- What a turn gives to the reader of a stream. -/
def gives (t : Transport) (i : Nat) : Turn → List Block
  | .read k => if k = i then (t.channel.poll k).1.blocks else []
  | .ask _ | .giveUp _ | .leave | .serve | .work _ => []

/-- What the reader of a stream is given in some turns. -/
def given (t : Transport) (i : Nat) : List Turn → List Block
  | [] => []
  | turn :: turns => t.gives i turn ++ (t.step turn).given i turns

/-- Whether the reader of a stream is told that it is over. -/
def IsOver (t : Transport) (i : Nat) : Prop :=
  (t.channel.poll i).1 = .over ∨ (t.channel.poll i).1 = .gone

instance (t : Transport) (i : Nat) : Decidable (t.IsOver i) :=
  inferInstanceAs (Decidable ((t.channel.poll i).1 = .over ∨ (t.channel.poll i).1 = .gone))

section

variable {t t' : Transport} {turn : Turn} {givenUp : Nat → Prop} {i : Nat} {s : BlockStream}

/-! ## What a run records -/

theorem receivedBy_eq (t : Transport) (i : Nat) :
    t.receivedBy i = (t.channel.receipts[i]?).getD [] := by
  rw [receivedBy, RequestChannel.receipts, List.getElem?_map]
  cases t.channel.streams[i]? <;> rfl

/-- Who changes no receipts gives nothing. -/
theorem receivedBy_of_receipts {c : RequestChannel} {jobs : List Job}
    (h : c.receipts = t.channel.receipts) (i : Nat) :
    receivedBy { t with channel := c, jobs := jobs } i = t.receivedBy i ++ [] := by
  rw [receivedBy_eq, receivedBy_eq, h, List.append_nil]

theorem receivedBy_read {k : Nat} {out : Polled} {c : RequestChannel}
    (hp : RequestChannel.Polls t.channel k s out c) (hs : t.channel.streams[k]? = some s) :
    receivedBy { t with channel := c } i
      = t.receivedBy i ++ if k = i then out.blocks else [] := by
  have hreceipts : t.channel.receipts[k]? = some s.received := by
    rw [RequestChannel.receipts, List.getElem?_map, hs]
    rfl
  rw [receivedBy_eq, receivedBy_eq, hp.receipts]
  by_cases hki : k = i
  · subst hki
    simp [hreceipts]
  · simp [hki]

/-- A turn that has nothing to do gives nothing. -/
theorem gives_of_idle (hidle : Idle t turn) (i : Nat) : t.gives i turn = [] := by
  cases turn with
  | read k =>
      have hnothing : (t.channel.poll k).1.blocks = [] := by
        cases hs : t.channel.streams[k]? with
        | none => rw [RequestChannel.poll_of_none hs]; rfl
        | some s => exact (hidle s hs).blocks_eq_nil
      rw [gives, hnothing, ite_self]
  | ask _ => rfl
  | giveUp _ => rfl
  | leave => rfl
  | serve => rfl
  | work _ => rfl

/-- **What a reader has received is what its turns gave.** -/
theorem Inv.receivedBy_step (h : Inv givenUp t) (i : Nat) (turn : Turn) :
    (t.step turn).receivedBy i = t.receivedBy i ++ t.gives i turn := by
  rcases step_cases h.unsignalled h.listening turn with hsteps | ⟨hsame, hidle⟩
  · generalize t.step turn = t' at hsteps
    cases hsteps with
    | ask r _ =>
        have hreceipts : (t.channel.retrieve r).2.receipts = t.channel.receipts ++ [[]] :=
          List.map_append
        rw [receivedBy_eq, receivedBy_eq, hreceipts, gives, List.append_nil]
        rcases Nat.lt_trichotomy i t.channel.receipts.length with hi | rfl | hi
        · rw [List.getElem?_append_left hi]
        · rw [List.getElem?_concat_length, List.getElem?_eq_none (Nat.le_refl _)]
          rfl
        · have hend : (t.channel.receipts ++ [[]]).length ≤ i := by
            rw [List.length_append]
            exact hi
          rw [List.getElem?_eq_none hend, List.getElem?_eq_none (Nat.le_of_lt hi)]
    | read hs hpolls => exact receivedBy_read hpolls hs
    | giveUp k => exact receivedBy_of_receipts (t.channel.receipts_dropStream k) i
    | leave => exact (List.append_nil _).symm
    | begin _ _ =>
        refine receivedBy_of_receipts (t := t) ?_ i
        exact RequestChannel.receipts_grant _
    | close _ hqueued _ =>
        rw [close_eq hqueued]
        exact (List.append_nil _).symm
    | send _ _ _ _ => exact receivedBy_of_receipts (t.channel.receipts_setStage _ _) i
    | finish _ _ _ => exact receivedBy_of_receipts (t.channel.receipts_setStage _ _) i
    | abandon _ _ => exact (List.append_nil _).symm
  · rw [hsame, gives_of_idle hidle i, List.append_nil]

theorem Inv.receivedBy_run (h : Inv givenUp t) (i : Nat) (turns : List Turn)
    (hturns : ∀ k, .giveUp k ∈ turns → givenUp k) :
    (t.run turns).receivedBy i = t.receivedBy i ++ t.given i turns := by
  induction turns generalizing t with
  | nil => exact (List.append_nil _).symm
  | cons turn turns ih =>
      have hrun := ih (h.step turn fun k hk => hturns k (hk ▸ List.mem_cons_self))
        fun k hk => hturns k (List.mem_cons_of_mem _ hk)
      rw [h.receivedBy_step i turn, List.append_assoc] at hrun
      exact hrun

/-! ## What a stream has given -/

theorem Inv.isPrefix_receivedBy (h : Inv givenUp t) (hs : t.channel.streams[i]? = some s) :
    t.receivedBy i <+: t.answerTo s.request := by
  rw [receivedBy, hs]
  exact (h.accounts.account i s hs).isPrefix

/-- **A stream that is over has given the whole answer**, unless it was given up. -/
theorem Inv.receivedBy_of_isOver (h : Inv givenUp t) (hs : t.channel.streams[i]? = some s)
    (hover : t.IsOver i) (hkept : ¬ givenUp i) : t.receivedBy i = t.answerTo s.request := by
  have haccount := h.accounts.account i s hs
  rw [receivedBy, hs]
  show s.received = _
  rcases RequestChannel.poll_cases hs with hpolls | ⟨-, hrests⟩
  · rcases hover with hout | hout
    · rw [hout] at hpolls
      generalize (t.channel.poll i).2 = c at hpolls
      cases hpolls with
      | last hstage =>
          rw [hstage] at haccount
          exact haccount.close.eq_of_ended hkept
      | deaf hnot hunsent =>
          exact absurd hunsent (RequestChannel.not_isUnsent (h.closed (h.listening ▸ hnot)).2 hs)
    · rw [hout] at hpolls
      nomatch hpolls
  · rcases hover with hout | hout <;> rw [hout] at hrests <;> cases hrests
    rename_i hstage
    rw [hstage] at haccount
    exact haccount.eq_of_ended hkept

/-! ## Transports over stores -/

/-- The chain of a peer; of two stores for one peer the later one counts. -/
def chainOf (stores : List (PublicKey × Store)) (peer : PublicKey) : List Block :=
  match stores.reverse.lookup peer with
  | none => []
  | some s => s.blocks

/-- A transport over stores. -/
def overStores (capacity : Nat) (stores : List (PublicKey × Store)) : Transport :=
  start capacity (stores.map fun x => (x.1, .ofStore x.2))

theorem lookup_map_snd {α β : Type} (f : α → β) (xs : List (PublicKey × α)) (k : PublicKey) :
    (xs.map fun x => (x.1, f x.2)).lookup k = (xs.lookup k).map f := by
  induction xs with
  | nil => rfl
  | cons x xs ih =>
      rw [List.map_cons, List.lookup_cons, List.lookup_cons]
      cases k == x.1 with
      | true => rfl
      | false => exact ih

theorem numbered_chainOf {stores : List (PublicKey × Store)}
    (hstores : ∀ x ∈ stores, Numbered x.2.blocks) (peer : PublicKey) :
    Numbered (chainOf stores peer) := by
  unfold chainOf
  split
  · exact nofun
  · rename_i s hlookup
    obtain ⟨front, back, hsplit, -⟩ := List.lookup_eq_some_iff.mp hlookup
    have hmem : (peer, s) ∈ stores.reverse := by
      rw [hsplit]
      exact List.mem_append_right _ List.mem_cons_self
    exact hstores (peer, s) (List.mem_reverse.mp hmem)

/-- **A request is answered with what a script that serves the chains answers.** -/
theorem answerTo_overStores (capacity : Nat) {stores : List (PublicKey × Store)}
    (hstores : ∀ x ∈ stores, Numbered x.2.blocks) (r : BlockRequest) :
    (overStores capacity stores).answerTo r = blocksAbove r.height (chainOf stores r.peer) := by
  have hlookup : (overStores capacity stores).sources.lookup r.peer
      = (stores.reverse.lookup r.peer).map .ofStore := by
    rw [← lookup_map_snd, List.map_reverse]
    rfl
  have hnumbered := numbered_chainOf hstores r.peer
  rw [answerTo, hlookup]
  unfold chainOf at hnumbered ⊢
  cases hstore : stores.reverse.lookup r.peer with
  | none => rfl
  | some s =>
      rw [hstore] at hnumbered
      exact BlockSource.answer_ofStore hnumbered r.height

theorem retrieve_serving_stores (stores : List (PublicKey × Store)) (r : BlockRequest) :
    ((Script.serving (stores.map fun x => (x.1, x.2.blocks))).retrieve r.height r.peer).1
      = blocksAbove r.height (chainOf stores r.peer) := by
  rw [Script.retrieve_serving, ← List.map_reverse, lookup_map_snd, chainOf]
  cases stores.reverse.lookup r.peer <;> rfl

/-- **Readers are given exactly what they asked for.** Whatever the order of
turns, the reader of each stream is given a front part of the blocks of the
peer's chain above the height asked for, and when the stream is over and was
not given up, all of them. These ascend, and a script that serves the chains
answers with the same. The delivery comes to rest after a bounded number of
moves, and at rest every stream is over. -/
theorem delivers_requested_suffix (capacity : Nat) (stores : List (PublicKey × Store))
    (hstores : ∀ x ∈ stores, Numbered x.2.blocks) (turns : List Turn) :
    let begun := overStores capacity stores
    let t := begun.run turns
    let script := Script.serving (stores.map fun x => (x.1, x.2.blocks))
    let wanted (r : BlockRequest) := blocksAbove r.height (chainOf stores r.peer)
    (∀ i r, (asked turns)[i]? = some r → begun.given i turns <+: wanted r
      ∧ (t.IsOver i → .giveUp i ∉ turns → begun.given i turns = wanted r))
    ∧ (∀ r, (script.retrieve r.height r.peer).1 = wanted r
      ∧ (wanted r).Pairwise fun a b => a.height < b.height)
    ∧ (∃ more, t.Moves more ∧ (t.run more).AtRest)
    ∧ (∀ more, t.Moves more → more.length ≤ 1 + load wanted (asked turns))
    ∧ (0 < capacity → t.AtRest → ∀ i < (asked turns).length, t.IsOver i) := by
  intro begun t script wanted
  have hbegun : Inv (fun i => .giveUp i ∈ turns) begun := .start _ _ _
  have hinv : Inv (fun i => .giveUp i ∈ turns) t := hbegun.run turns fun _ hi => hi
  have hrequests : t.channel.requests = asked turns := hbegun.requests_run turns fun _ hi => hi
  have hframe := hbegun.frame_run turns fun _ hi => hi
  have hanswer : begun.answerTo = wanted := funext (answerTo_overStores capacity hstores)
  have hstream : ∀ (i : Nat) (r : BlockRequest), (asked turns)[i]? = some r →
      ∃ s, t.channel.streams[i]? = some s ∧ s.request = r := by
    intro i r hr
    rw [← hrequests, RequestChannel.requests, List.getElem?_map, Option.map_eq_some_iff] at hr
    exact hr
  have hgiven (i : Nat) : t.receivedBy i = begun.given i turns :=
    hbegun.receivedBy_run i turns fun _ hi => hi
  refine ⟨fun i r hr => ?_, fun r => ⟨retrieve_serving_stores stores r, ?_⟩, hinv.exists_atRest,
    fun more hmoves => ?_, fun hroom hrest i hi => ?_⟩
  · obtain ⟨s, hs, hrequest⟩ := hstream i r hr
    have hwanted : t.answerTo s.request = wanted r := by rw [hframe.1, hanswer, hrequest]
    rw [← hgiven i, ← hwanted]
    exact ⟨hinv.isPrefix_receivedBy hs, hinv.receivedBy_of_isOver hs⟩
  · exact (numbered_chainOf hstores r.peer).pairwise_blocksAbove r.height
  · have hweight := hbegun.weight_run_le turns fun _ hi => hi
    rw [hrequests, hanswer] at hweight
    exact (hinv.length_le_weight hmoves).trans hweight
  · obtain ⟨s, hs, -⟩ := hstream i _ (List.getElem?_eq_getElem hi)
    have hended := hinv.ended_of_idle (hframe.2 ▸ hroom) (fun _ => hinv.idle_of_atRest hrest) hs
    rw [IsOver, RequestChannel.poll_of_ended (by rw [hs]; rintro _ ⟨⟩; exact hended)]
    exact .inr rfl

/-- Two readers share a channel with a single place: the one is given the
block above the first, the other, who asks an unknown peer, nothing. -/
theorem two_readers_are_served :
    let peer : PublicKey := ⟨.replicate 32 1⟩
    let first : Block := ⟨1, .zero, 0, [], .zero, []⟩
    let second : Block := ⟨2, .zero, 0, [], .zero, []⟩
    let begun := overStores 1 [(peer, .ofChain [] [first, second])]
    let turns : List Turn := [.ask ⟨peer, 1⟩, .ask ⟨⟨.replicate 32 2⟩, 0⟩, .read 0, .read 1, .serve,
      .read 1, .serve, .work 0, .work 0, .read 0, .work 0]
    Numbered [first, second] ∧ begun.given 0 turns = [second] ∧ begun.given 1 turns = [] := by
  intro peer first second begun turns
  have hnumbered : Numbered [first, second] := by
    rintro (_ | _ | i) b hb <;> cases hb <;> rfl
  obtain ⟨hgiven, -⟩ := delivers_requested_suffix 1 [(peer, .ofChain [] [first, second])]
    (by rintro x hx; rw [List.mem_singleton.mp hx]; exact hnumbered) turns
  obtain ⟨-, hfirst⟩ := hgiven 0 ⟨peer, 1⟩ (by decide +kernel +zetaReduce)
  obtain ⟨-, hsecond⟩ := hgiven 1 ⟨⟨.replicate 32 2⟩, 0⟩ (by decide +kernel +zetaReduce)
  refine ⟨hnumbered, (hfirst ?_ ?_).trans ?_, (hsecond ?_ ?_).trans ?_⟩
    <;> decide +kernel +zetaReduce

end

end Transport

end LedgerCommit
