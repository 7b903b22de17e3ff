import LedgerCommit.Transport.Requests

/-!
# The request channel step by step

Reading a stream changes the channel in one of a few ways. Whatever is done,
the streams that wait stand in line, each once, and they wait only while there
is no room.
-/

namespace LedgerCommit

/-- The elements before and after a position, and what changing it comes to. -/
theorem exists_split_of_getElem? {α : Type} {xs : List α} {i : Nat} {x : α}
    (h : xs[i]? = some x) :
    ∃ front back, xs = front ++ x :: back ∧ (∀ f, xs.modify i f = front ++ f x :: back)
      ∧ (∀ y, xs.set i y = front ++ y :: back) ∧ xs.eraseIdx i = front ++ back := by
  obtain ⟨hi, rfl⟩ := List.getElem?_eq_some_iff.mp h
  refine ⟨xs.take i, xs.drop (i + 1), ?_, ?_, ?_, ?_⟩
  · rw [← List.drop_eq_getElem_cons hi, List.take_append_drop]
  · intro f
    rw [List.modify_eq_take_cons_drop hi]
  · intro y
    rw [List.set_eq_take_append_cons_drop, if_pos hi]
  · rw [List.eraseIdx_eq_take_drop_succ]

/-- A change that an observation does not see. -/
theorem map_modify_of_eq {α β : Type} {f : α → β} {g : α → α} (hg : ∀ x, f (g x) = f x)
    (xs : List α) (i : Nat) : (xs.modify i g).map f = xs.map f := by
  apply List.ext_getElem?
  intro k
  by_cases h : i = k
  · subst h
    cases hx : xs[i]? <;> simp [hx, hg]
  · simp [h]

/-- Whether the request of a stream is still to be sent. -/
def Stage.IsUnsent : Stage → Prop
  | .unsent | .waiting | .granted => True
  | .receiving _ _ | .ended => False

/-- The blocks in what reading a stream gives. -/
def Polled.blocks : Polled → List Block
  | .block b => [b]
  | .pending | .over | .gone => []

/-! ## What the operations on the channel do -/

namespace RequestChannel

variable {c c' : RequestChannel} {i j : Nat} {s : BlockStream} {st : Stage} {b : Block}

theorem getElem?_setStage_ne (st : Stage) (h : j ≠ i) :
    (c.setStage i st).streams[j]? = c.streams[j]? := by
  simp [setStage, h.symm]

theorem getElem?_setStage_self (st : Stage) (h : c.streams[i]? = some s) :
    (c.setStage i st).streams[i]? = some { s with stage := st } := by
  simp [setStage, h]

theorem getElem?_noteReceived_ne (b : Block) (h : j ≠ i) :
    (c.noteReceived i b).streams[j]? = c.streams[j]? := by
  simp [noteReceived, h.symm]

theorem stage?_of_getElem? (h : c.streams[i]? = some s) : c.stage? i = some s.stage := by
  rw [stage?, h]
  rfl

theorem exists_of_stage? (h : c.stage? i = some st) :
    ∃ s, c.streams[i]? = some s ∧ s.stage = st := by
  simpa [stage?] using h

theorem stage?_setStage_ne (st : Stage) (h : j ≠ i) : (c.setStage i st).stage? j = c.stage? j := by
  rw [stage?, getElem?_setStage_ne st h]
  rfl

theorem stage?_setStage_self (st : Stage) (h : c.streams[i]? = some s) :
    (c.setStage i st).stage? i = some st :=
  stage?_of_getElem? (getElem?_setStage_self st h)

@[simp]
theorem stage?_noteReceived (c : RequestChannel) (i j : Nat) (b : Block) :
    (c.noteReceived i b).stage? j = c.stage? j := by
  by_cases h : i = j
  · simp [stage?, noteReceived, h]
    rfl
  · simp [stage?, noteReceived, h]

/-- The requests that were asked for, in order. -/
def requests (c : RequestChannel) : List BlockRequest := c.streams.map (·.request)

/-- What each stream has received, in the order of the streams. -/
def receipts (c : RequestChannel) : List (List Block) := c.streams.map (·.received)

@[simp]
theorem requests_setStage (c : RequestChannel) (i : Nat) (st : Stage) :
    (c.setStage i st).requests = c.requests :=
  map_modify_of_eq (f := BlockStream.request) (g := fun s => { s with stage := st })
    (fun _ => rfl) c.streams i

@[simp]
theorem requests_noteReceived (c : RequestChannel) (i : Nat) (b : Block) :
    (c.noteReceived i b).requests = c.requests :=
  map_modify_of_eq (f := BlockStream.request)
    (g := fun s => { s with received := s.received ++ [b] }) (fun _ => rfl) c.streams i

@[simp]
theorem receipts_setStage (c : RequestChannel) (i : Nat) (st : Stage) :
    (c.setStage i st).receipts = c.receipts :=
  map_modify_of_eq (f := BlockStream.received) (g := fun s => { s with stage := st })
    (fun _ => rfl) c.streams i

theorem receipts_noteReceived (c : RequestChannel) (i : Nat) (b : Block) :
    (c.noteReceived i b).receipts = c.receipts.modify i (· ++ [b]) := by
  apply List.ext_getElem?
  intro k
  rw [receipts, receipts, noteReceived, List.getElem?_map]
  by_cases hk : i = k
  · subst hk
    cases hs : c.streams[i]? <;> simp [hs]
  · simp [hk]

/-- How far each stream has come, in the order of the streams. -/
def stages (c : RequestChannel) : List Stage := c.streams.map (·.stage)

@[simp]
theorem stages_noteReceived (c : RequestChannel) (i : Nat) (b : Block) :
    (c.noteReceived i b).stages = c.stages :=
  map_modify_of_eq (f := BlockStream.stage)
    (g := fun s => { s with received := s.received ++ [b] }) (fun _ => rfl) c.streams i

/-- The places that are taken in the channel, by requests or set aside. -/
def places (c : RequestChannel) : Nat :=
  c.queued.length + c.stages.countP (· = .granted)

theorem hasRoom_iff : c.hasRoom = true ↔ c.places < c.capacity := by
  rw [hasRoom, decide_eq_true_iff, places, stages, List.countP_map]
  rfl

/-- What a change of stage does to the places. -/
theorem places_setStage (st : Stage) (h : c.streams[i]? = some s) :
    (c.setStage i st).places + (if s.stage = .granted then 1 else 0)
      = c.places + (if st = .granted then 1 else 0) := by
  obtain ⟨front, back, hstreams, hmodify, -, -⟩ := exists_split_of_getElem? h
  have hset : (c.setStage i st).streams = front ++ { s with stage := st } :: back := hmodify _
  have hqueued : (c.setStage i st).queued = c.queued := rfl
  rw [places, places, stages, stages, hset, hstreams, hqueued, List.map_append, List.map_append,
    List.map_cons, List.map_cons, List.countP_append, List.countP_append, List.countP_cons,
    List.countP_cons]
  simp only [decide_eq_true_eq]
  omega

/-- The ways in which reading a stream changes the channel, with what the
reader gets. -/
inductive Polls (c : RequestChannel) (i : Nat) (s : BlockStream) :
    Polled → RequestChannel → Prop where
  | block {rest : List Block} {complete : Bool} (b : Block) :
      s.stage = .receiving (b :: rest) complete →
      Polls c i s (.block b) ((c.setStage i (.receiving rest complete)).noteReceived i b)
  | last : s.stage = .receiving [] true → Polls c i s .over (c.setStage i .ended)
  /-- The request is sent, into free room or into room that was set aside. -/
  | send : c.listening = true →
      s.stage = .unsent ∧ c.waiting = [] ∧ c.hasRoom = true ∨ s.stage = .granted →
      Polls c i s .pending (c.send i)
  | wait : c.listening = true → s.stage = .unsent → c.waiting ≠ [] ∨ c.hasRoom = false →
      Polls c i s .pending { c.setStage i .waiting with waiting := c.waiting ++ [i] }
  /-- Nobody listens any more. -/
  | deaf : c.listening = false → s.stage.IsUnsent → Polls c i s .over (c.setStage i .ended)

/-- What reading gives is noted as received. -/
theorem Polls.receipts {out : Polled} (h : Polls c i s out c') :
    c'.receipts = c.receipts.modify i (· ++ out.blocks) := by
  have hnothing : c.receipts.modify i (· ++ []) = c.receipts := by
    have hsame := map_modify_of_eq (f := id) (g := (· ++ [])) List.append_nil c.receipts i
    rwa [List.map_id, List.map_id] at hsame
  cases h with
  | block b _ => rw [receipts_noteReceived, receipts_setStage]; rfl
  | last _ => exact (c.receipts_setStage i _).trans hnothing.symm
  | send _ _ => exact (c.receipts_setStage i _).trans hnothing.symm
  | wait _ _ _ => exact (c.receipts_setStage i _).trans hnothing.symm
  | deaf _ _ => exact (c.receipts_setStage i _).trans hnothing.symm

/-- Reading changes neither the requests nor who may ask. -/
theorem Polls.frame {out : Polled} (h : Polls c i s out c') :
    c'.requests = c.requests ∧ c'.capacity = c.capacity ∧ c'.hasLoader = c.hasLoader := by
  cases h with
  | block b _ =>
      exact ⟨(requests_noteReceived _ i b).trans (c.requests_setStage i _), rfl, rfl⟩
  | last _ => exact ⟨c.requests_setStage i _, rfl, rfl⟩
  | send _ _ => exact ⟨c.requests_setStage i _, rfl, rfl⟩
  | wait _ _ _ => exact ⟨c.requests_setStage i _, rfl, rfl⟩
  | deaf _ _ => exact ⟨c.requests_setStage i _, rfl, rfl⟩

/-- Reading a stream concerns no stream that is over. -/
theorem Polls.ended {out : Polled} (h : Polls c i s out c') (hs : c.streams[i]? = some s)
    (hended : c.stage? j = some .ended) : c'.stage? j = some .ended := by
  have hne : s.stage ≠ .ended → j ≠ i := by
    rintro hstage rfl
    rw [stage?_of_getElem? hs, Option.some_inj] at hended
    exact hstage hended
  cases h with
  | block b hstage =>
      rw [stage?_noteReceived, stage?_setStage_ne _ (hne (by rw [hstage]; exact Stage.noConfusion))]
      exact hended
  | last hstage =>
      rw [stage?_setStage_ne _ (hne (by rw [hstage]; exact Stage.noConfusion))]
      exact hended
  | send _ hplace =>
      refine (stage?_setStage_ne (.receiving [] false) (hne ?_)).trans hended
      rcases hplace with ⟨hstage, -⟩ | hstage <;> rw [hstage] <;> exact Stage.noConfusion
  | wait _ hstage _ =>
      refine (stage?_setStage_ne .waiting (hne ?_)).trans hended
      rw [hstage]
      exact Stage.noConfusion
  | deaf _ hunsent =>
      refine (stage?_setStage_ne .ended (hne ?_)).trans hended
      intro hstage
      rw [hstage] at hunsent
      exact hunsent

/-- When reading a stream changes nothing. -/
inductive Rests (c : RequestChannel) (s : BlockStream) : Polled → Prop where
  | gone : s.stage = .ended → Rests c s .gone
  /-- The stream waits for an answer or for room. -/
  | pending : s.stage = .receiving [] false ∨ s.stage = .waiting ∧ c.listening = true →
      Rests c s .pending

theorem Rests.blocks_eq_nil {out : Polled} (h : Rests c s out) : out.blocks = [] := by
  cases h with
  | gone _ => rfl
  | pending _ => rfl

/-- **Reading a stream goes one of these ways**, or changes nothing. -/
theorem poll_cases (h : c.streams[i]? = some s) :
    Polls c i s (c.poll i).1 (c.poll i).2 ∨ (c.poll i).2 = c ∧ Rests c s (c.poll i).1 := by
  have hstage := stage?_of_getElem? h
  unfold poll
  rw [hstage]
  rcases hs : s.stage with _ | _ | _ | ⟨_ | ⟨b, rest⟩, _ | _⟩ | _
  · -- the request is still to be sent
    dsimp only
    split
    · rename_i hdeaf
      exact .inl (.deaf (Bool.not_eq_true _ ▸ hdeaf) (by rw [hs]; trivial))
    · rename_i hlistens
      rw [Decidable.not_not] at hlistens
      split
      · rename_i hroom
        exact .inl (.send hlistens (.inl ⟨hs, hroom⟩))
      · rename_i hfull
        rw [Decidable.not_and_iff_not_or_not, Bool.not_eq_true] at hfull
        exact .inl (.wait hlistens hs hfull)
  · dsimp only
    split
    · rename_i hlistens
      exact .inr ⟨rfl, .pending (.inr ⟨hs, hlistens⟩)⟩
    · rename_i hdeaf
      exact .inl (.deaf (Bool.not_eq_true _ ▸ hdeaf) (by rw [hs]; trivial))
  · dsimp only
    split
    · rename_i hlistens
      exact .inl (.send hlistens (.inr hs))
    · rename_i hdeaf
      exact .inl (.deaf (Bool.not_eq_true _ ▸ hdeaf) (by rw [hs]; trivial))
  · exact .inr ⟨rfl, .pending (.inl hs)⟩
  · exact .inl (.last hs)
  · exact .inl (.block b hs)
  · exact .inl (.block b hs)
  · exact .inr ⟨rfl, .gone hs⟩

theorem poll_of_none (h : c.streams[i]? = none) : c.poll i = (.gone, c) := by
  have hstage : c.stage? i = none := by rw [stage?, h]; rfl
  rw [poll, hstage]

theorem poll_of_ended (h : ∀ s, c.streams[i]? = some s → s.stage = .ended) :
    c.poll i = (.gone, c) := by
  cases hs : c.streams[i]? with
  | none => exact poll_of_none hs
  | some s => rw [poll, stage?_of_getElem? hs, h s hs]

/-- Who is told that a stream is over finds it ended. -/
theorem ended_of_poll (h : (c.poll i).1 = .over ∨ (c.poll i).1 = .gone)
    (hs : (c.poll i).2.streams[i]? = some s) : s.stage = .ended := by
  cases hwas : c.streams[i]? with
  | none =>
      rw [poll_of_none hwas, hwas] at hs
      cases hs
  | some s' =>
      rcases poll_cases hwas with hpolls | ⟨hsame, hrests⟩
      · generalize (c.poll i).1 = out, (c.poll i).2 = c' at h hs hpolls
        cases hpolls with
        | last _ | deaf _ _ =>
            rw [getElem?_setStage_self _ hwas, Option.some_inj] at hs
            rw [← hs]
        | _ => rcases h with h | h <;> cases h
      · rw [hsame, hwas, Option.some_inj] at hs
        generalize (c.poll i).1 = out at h hrests
        cases hrests with
        | gone hended => exact hs ▸ hended
        | pending _ => rcases h with h | h <;> cases h

/-- Whether there is no room in the buffer of a stream. -/
def IsFull (c : RequestChannel) (i : Nat) : Prop :=
  ∃ buffer complete, c.stage? i = some (.receiving buffer complete)
    ∧ bufferSize ≤ buffer.length

/-- **What comes of an answer**: it goes into the buffer, there is no room, or
the stream does not receive. -/
theorem respond_cases (c : RequestChannel) (i : Nat) (b : Block) :
    (∃ buffer complete, c.stage? i = some (.receiving buffer complete)
        ∧ buffer.length < bufferSize
        ∧ c.respond i b = (.sent, c.setStage i (.receiving (buffer ++ [b]) complete)))
      ∨ c.IsFull i ∧ c.respond i b = (.full, c)
      ∨ (∀ buffer complete, c.stage? i ≠ some (.receiving buffer complete))
        ∧ c.respond i b = (.closed, c) := by
  unfold respond
  split
  · rename_i buffer complete hstage
    split
    · rename_i hroom
      exact .inl ⟨buffer, complete, hstage, hroom, rfl⟩
    · rename_i hfull
      exact .inr (.inl ⟨⟨buffer, complete, hstage, Nat.not_lt.mp hfull⟩, rfl⟩)
  · rename_i hclosed
    exact .inr (.inr ⟨hclosed, rfl⟩)

theorem finish_of_closed
    (h : ∀ buffer complete, c.stage? i ≠ some (.receiving buffer complete)) : c.finish i = c := by
  unfold finish
  split
  · rename_i hstage
    exact absurd hstage (h _ _)
  · rfl

theorem queued_finish (c : RequestChannel) (i : Nat) : (c.finish i).queued = c.queued := by
  unfold finish
  split <;> rfl

/-- A buffer without room stays so as long as nobody reads. -/
theorem IsFull.respond (h : c.IsFull i) (k : Nat) (b : Block) : (c.respond k b).2.IsFull i := by
  rcases c.respond_cases k b with ⟨buffer, complete, hstage, hroom, hsent⟩ | ⟨-, hsent⟩ | ⟨-, hsent⟩
  · obtain ⟨buffer', complete', hstage', hfull⟩ := h
    have hik : i ≠ k := by
      rintro rfl
      rw [hstage] at hstage'
      cases hstage'
      omega
    rw [hsent]
    exact ⟨buffer', complete', (stage?_setStage_ne _ hik).trans hstage', hfull⟩
  · rwa [hsent]
  · rwa [hsent]

theorem IsFull.finish (h : c.IsFull i) (k : Nat) : (c.finish k).IsFull i := by
  obtain ⟨buffer, complete, hstage, hfull⟩ := h
  by_cases hik : i = k
  · subst hik
    obtain ⟨s, hs, -⟩ := exists_of_stage? hstage
    rw [RequestChannel.finish, hstage]
    exact ⟨buffer, true, stage?_setStage_self _ hs, hfull⟩
  · unfold RequestChannel.finish
    split
    · exact ⟨buffer, complete, (stage?_setStage_ne _ hik).trans hstage, hfull⟩
    · exact ⟨buffer, complete, hstage, hfull⟩

/-- Room goes to the first stream that waits, if there is both. -/
theorem grant_cases (c : RequestChannel) :
    c.grant = c ∧ (c.waiting = [] ∨ c.hasRoom = false)
      ∨ ∃ i rest, c.waiting = i :: rest ∧ c.hasRoom = true
        ∧ c.grant = { c.setStage i .granted with waiting := rest } := by
  unfold grant
  split
  · rename_i hwaiting
    exact .inl ⟨rfl, .inl hwaiting⟩
  · rename_i i rest hwaiting
    split
    · rename_i hroom
      exact .inr ⟨i, rest, hwaiting, hroom, rfl⟩
    · rename_i hfull
      exact .inl ⟨rfl, .inr (Bool.not_eq_true _ ▸ hfull)⟩

/-! ## The waiting line -/

/-- The line holds the streams that wait, each once. -/
structure Listed (c : RequestChannel) : Prop where
  waiting : ∀ i, i ∈ c.waiting ↔ c.stage? i = some .waiting
  nodup : c.waiting.Nodup

/-- Streams wait only while there is no room. -/
structure Line (c : RequestChannel) : Prop where
  listed : c.Listed
  full : c.waiting ≠ [] → c.capacity ≤ c.places

/-- A change of stage that concerns no waiting keeps the line. -/
theorem Listed.setStage (h : c.Listed) (hs : c.streams[i]? = some s) (hwas : s.stage ≠ .waiting)
    (hwill : st ≠ .waiting) : (c.setStage i st).Listed where
  waiting := by
    intro k
    by_cases hk : k = i
    · subst hk
      have hout : k ∉ c.waiting := by
        rw [h.waiting, stage?_of_getElem? hs]
        simpa using hwas
      rw [stage?_setStage_self st hs]
      exact iff_of_false hout (by simpa using hwill)
    · rw [stage?_setStage_ne st hk]
      exact h.waiting k
  nodup := h.nodup

/-- When at most one place has become free, giving it away restores the line. -/
theorem Listed.grant (h : c.Listed) (hfull : c.waiting ≠ [] → c.capacity ≤ c.places + 1) :
    c.grant.Line := by
  rcases grant_cases c with ⟨hsame, hrest⟩ | ⟨i, rest, hwaiting, hroom, hgrant⟩
  · rw [hsame]
    refine ⟨h, ?_⟩
    intro hne
    have hno := hrest.resolve_left hne
    rw [← Bool.not_eq_true, hasRoom_iff] at hno
    omega
  · have hnodup := h.nodup
    rw [hwaiting, List.nodup_cons] at hnodup
    have hstage : c.stage? i = some .waiting := (h.waiting i).mp (by simp [hwaiting])
    obtain ⟨s, hs, hwas⟩ := exists_of_stage? hstage
    rw [hgrant]
    refine ⟨⟨?_, hnodup.2⟩, ?_⟩
    · intro k
      have hk := h.waiting k
      rw [hwaiting, List.mem_cons] at hk
      show k ∈ rest ↔ (c.setStage i .granted).stage? k = some .waiting
      by_cases hki : k = i
      · subst hki
        rw [stage?_setStage_self _ hs]
        simpa using hnodup.1
      · rw [stage?_setStage_ne _ hki, ← hk]
        simp [hki]
    · intro _
      have hplaces := places_setStage .granted hs
      have hone := hfull (by simp [hwaiting])
      rw [if_neg (by rw [hwas]; exact Stage.noConfusion), if_pos rfl] at hplaces
      show c.capacity ≤ (c.setStage i .granted).places
      omega

@[simp]
theorem requests_grant (c : RequestChannel) : c.grant.requests = c.requests := by
  rcases grant_cases c with ⟨hsame, -⟩ | ⟨i, rest, -, -, hgrant⟩
  · rw [hsame]
  · rw [hgrant]
    exact requests_setStage c i .granted

@[simp]
theorem receipts_grant (c : RequestChannel) : c.grant.receipts = c.receipts := by
  rcases grant_cases c with ⟨hsame, -⟩ | ⟨i, rest, -, -, hgrant⟩
  · rw [hsame]
  · rw [hgrant]
    exact receipts_setStage c i .granted

@[simp]
theorem queued_grant (c : RequestChannel) : c.grant.queued = c.queued := by
  rcases grant_cases c with ⟨hsame, -⟩ | ⟨i, rest, -, -, hgrant⟩
  · rw [hsame]
  · rw [hgrant]
    rfl

/-- Room that is set aside changes neither the capacity nor who is there. -/
theorem frame_grant (c : RequestChannel) : c.grant.capacity = c.capacity
    ∧ c.grant.listening = c.listening ∧ c.grant.hasLoader = c.hasLoader := by
  rcases grant_cases c with ⟨hsame, -⟩ | ⟨i, rest, -, -, hgrant⟩
  · rw [hsame]
    exact ⟨rfl, rfl, rfl⟩
  · rw [hgrant]
    exact ⟨rfl, rfl, rfl⟩

theorem hasSender_eq_false_iff :
    c.hasSender = false ↔ c.hasLoader = false ∧ ∀ st ∈ c.stages, ¬ st.IsUnsent := by
  rw [hasSender, Bool.or_eq_false_iff, List.any_eq_false, stages, List.forall_mem_map]
  refine and_congr_right fun _ => forall₂_congr fun s _ => ?_
  cases s.stage <;> simp [Stage.IsUnsent]

theorem not_isUnsent (h : c.hasSender = false) (hs : c.streams[i]? = some s) :
    ¬ s.stage.IsUnsent :=
  (hasSender_eq_false_iff.mp h).2 s.stage (List.mem_map_of_mem (List.mem_of_getElem? hs))

theorem hasSender_setStage (h : c.hasSender = false) (hs : c.streams[i]? = some s)
    (hst : ¬ st.IsUnsent) : (c.setStage i st).hasSender = false := by
  obtain ⟨front, back, hstreams, hmodify, -, -⟩ := exists_split_of_getElem? hs
  have hset : (c.setStage i st).streams = front ++ { s with stage := st } :: back := hmodify _
  rw [hasSender_eq_false_iff, stages, hstreams, List.map_append, List.map_cons,
    List.forall_mem_append, List.forall_mem_cons] at h
  rw [hasSender_eq_false_iff, stages, hset, List.map_append, List.map_cons,
    List.forall_mem_append, List.forall_mem_cons]
  exact ⟨h.1, h.2.1, hst, h.2.2.2⟩

theorem hasSender_noteReceived (h : c.hasSender = false) (i : Nat) (b : Block) :
    (c.noteReceived i b).hasSender = false := by
  rw [hasSender_eq_false_iff, stages_noteReceived]
  exact hasSender_eq_false_iff.mp h

/-- When nobody is left to send, nobody waits for room. -/
theorem hasSender_grant (h : c.hasSender = false) (hlisted : c.Listed) :
    c.grant.hasSender = false := by
  rcases grant_cases c with ⟨hsame, -⟩ | ⟨i, rest, hwaiting, -, -⟩
  · rwa [hsame]
  · have hstage : c.stage? i = some .waiting := (hlisted.waiting i).mp (by simp [hwaiting])
    obtain ⟨s, hs, hwas⟩ := exists_of_stage? hstage
    exact absurd (by rw [hwas]; trivial) (not_isUnsent h hs)

/-- What neither moves a stream into or out of the line nor frees a place
keeps the line. -/
theorem Line.congr (h : c.Line) (hwaiting : c'.waiting = c.waiting)
    (hstage : ∀ i, c'.stage? i = some .waiting ↔ c.stage? i = some .waiting)
    (hcapacity : c'.capacity = c.capacity) (hplaces : c.places ≤ c'.places) : c'.Line where
  listed := by
    refine ⟨fun i => ?_, ?_⟩
    · rw [hwaiting, hstage]
      exact h.listed.waiting i
    · rw [hwaiting]
      exact h.listed.nodup
  full := by
    rw [hwaiting, hcapacity]
    exact fun hne => Nat.le_trans (h.full hne) hplaces

theorem Line.setStage (h : c.Line) (hs : c.streams[i]? = some s) (hwas : s.stage ≠ .waiting)
    (hungranted : s.stage ≠ .granted) (hwill : st ≠ .waiting) : (c.setStage i st).Line where
  listed := h.listed.setStage hs hwas hwill
  full := by
    have hplaces := places_setStage st hs
    rw [if_neg hungranted] at hplaces
    intro hne
    have := h.full hne
    show c.capacity ≤ (c.setStage i st).places
    omega

theorem places_noteReceived (c : RequestChannel) (i : Nat) (b : Block) :
    (c.noteReceived i b).places = c.places := by
  rw [places, places, stages_noteReceived]
  rfl

theorem Line.noteReceived (h : c.Line) : (c.noteReceived i b).Line :=
  h.congr rfl (fun k => by rw [stage?_noteReceived]) rfl
    (Nat.le_of_eq (places_noteReceived c i b).symm)

theorem Line.retrieve (h : c.Line) (r : BlockRequest) : (c.retrieve r).2.Line := by
  refine h.congr rfl (fun k => ?_) rfl ?_
  · rcases Nat.lt_trichotomy k c.streams.length with hk | rfl | hk
    · rw [stage?, RequestChannel.retrieve, List.getElem?_append_left hk]
      rfl
    · simp [stage?, RequestChannel.retrieve]
    · have hnone : (c.streams ++ [⟨r, .unsent, []⟩])[k]? = none := by
        rw [List.getElem?_eq_none_iff, List.length_append]
        exact hk
      rw [stage?, stage?, RequestChannel.retrieve, hnone,
        List.getElem?_eq_none (Nat.le_of_lt hk)]
  · rw [places, places, stages, stages, RequestChannel.retrieve, List.map_append,
      List.countP_append]
    dsimp only
    omega

/-- Sending takes the place that was free or set aside. -/
theorem Line.send (h : c.Line) (hs : c.streams[i]? = some s)
    (hplace : s.stage = .unsent ∧ c.waiting = [] ∧ c.hasRoom = true ∨ s.stage = .granted) :
    (c.send i).Line where
  listed := by
    have hwas : s.stage ≠ .waiting := by
      rcases hplace with ⟨hstage, -⟩ | hstage <;> rw [hstage] <;> exact Stage.noConfusion
    have hlisted : (c.setStage i (.receiving [] false)).Listed :=
      h.listed.setStage hs hwas Stage.noConfusion
    exact ⟨hlisted.waiting, hlisted.nodup⟩
  full := by
    rcases hplace with ⟨-, hnone, -⟩ | hstage
    · exact fun hne => absurd hnone hne
    · intro hne
      have hplaces := places_setStage (.receiving [] false) hs
      rw [if_pos hstage, if_neg Stage.noConfusion] at hplaces
      have hsent : (c.send i).places = (c.setStage i (.receiving [] false)).places + 1 := by
        have hlength : (c.send i).queued.length = c.queued.length + 1 := List.length_append
        show (c.send i).queued.length + (c.setStage i (.receiving [] false)).stages.countP _
          = c.queued.length + (c.setStage i (.receiving [] false)).stages.countP _ + 1
        omega
      have hfull : c.capacity ≤ c.places := h.full hne
      show c.capacity ≤ (c.send i).places
      omega

/-- A stream joins the line at its end. -/
theorem Line.wait (h : c.Line) (hs : c.streams[i]? = some s) (hstage : s.stage = .unsent)
    (hno : c.waiting ≠ [] ∨ c.hasRoom = false) :
    Line { c.setStage i .waiting with waiting := c.waiting ++ [i] } where
  listed := by
    have hout : i ∉ c.waiting := by
      rw [h.listed.waiting, stage?_of_getElem? hs, hstage]
      simp
    refine ⟨fun k => ?_, ?_⟩
    · show k ∈ c.waiting ++ [i] ↔ (c.setStage i .waiting).stage? k = some .waiting
      by_cases hk : k = i
      · subst hk
        rw [stage?_setStage_self _ hs]
        simp
      · rw [stage?_setStage_ne _ hk, ← h.listed.waiting k]
        simp [hk]
    · show (c.waiting ++ [i]).Nodup
      rw [List.nodup_append]
      refine ⟨h.listed.nodup, by simp, ?_⟩
      rintro k hk l hl rfl
      rw [List.mem_singleton] at hl
      exact hout (hl ▸ hk)
  full := by
    intro _
    have hfull : c.capacity ≤ c.places := by
      rcases hno with hne | hno
      · exact h.full hne
      · rw [← Bool.not_eq_true, hasRoom_iff] at hno
        omega
    have hplaces := places_setStage .waiting hs
    rw [if_neg (by rw [hstage]; exact Stage.noConfusion), if_neg Stage.noConfusion] at hplaces
    show c.capacity ≤ (c.setStage i .waiting).places
    omega

/-- **Reading keeps the line**, when nobody is still to send to deaf ears. -/
theorem Line.poll {out : Polled} (h : c.Line) (hs : c.streams[i]? = some s)
    (hdeaf : c.listening = false → ¬ s.stage.IsUnsent) (hp : Polls c i s out c') : c'.Line := by
  cases hp with
  | block b hstage =>
      exact (h.setStage hs (by rw [hstage]; exact Stage.noConfusion)
        (by rw [hstage]; exact Stage.noConfusion) Stage.noConfusion).noteReceived
  | last hstage =>
      exact h.setStage hs (by rw [hstage]; exact Stage.noConfusion)
        (by rw [hstage]; exact Stage.noConfusion) Stage.noConfusion
  | send _ hplace => exact h.send hs hplace
  | wait _ hstage hno => exact h.wait hs hstage hno
  | deaf hnot hunsent => exact absurd hunsent (hdeaf hnot)

theorem setStage_of_none (st : Stage) (h : c.streams[i]? = none) : c.setStage i st = c := by
  rw [setStage, List.modify_eq_self (List.getElem?_eq_none_iff.mp h)]

/-- A stream that is given up leaves the line. -/
theorem Listed.drop (h : c.Listed) (i : Nat) :
    Listed { c.setStage i .ended with waiting := c.waiting.filter (· ≠ i) } where
  waiting := by
    intro k
    show k ∈ c.waiting.filter (· ≠ i) ↔ (c.setStage i .ended).stage? k = some .waiting
    rw [List.mem_filter, h.waiting]
    by_cases hk : k = i
    · subst hk
      cases hs : c.streams[k]? with
      | none => simp [stage?, setStage_of_none _ hs, hs]
      | some s => simp [stage?_setStage_self _ hs]
    · rw [stage?_setStage_ne _ hk]
      simp [hk]
  nodup := h.nodup.sublist List.filter_sublist

@[simp]
theorem requests_dropStream (c : RequestChannel) (i : Nat) :
    (c.dropStream i).requests = c.requests :=
  (requests_grant _).trans (c.requests_setStage i .ended)

@[simp]
theorem receipts_dropStream (c : RequestChannel) (i : Nat) :
    (c.dropStream i).receipts = c.receipts :=
  (receipts_grant _).trans (c.receipts_setStage i .ended)

@[simp]
theorem queued_dropStream (c : RequestChannel) (i : Nat) :
    (c.dropStream i).queued = c.queued :=
  queued_grant _

theorem hasSender_dropStream (h : c.hasSender = false) (hlisted : c.Listed) (i : Nat) :
    (c.dropStream i).hasSender = false := by
  refine hasSender_grant ?_ (hlisted.drop i)
  show (c.setStage i .ended).hasSender = false
  cases hs : c.streams[i]? with
  | none => rwa [setStage_of_none _ hs]
  | some s => exact hasSender_setStage h hs not_false

/-- The place of a stream that is given up is passed on. -/
theorem Line.dropStream (h : c.Line) (i : Nat) : (c.dropStream i).Line := by
  refine (h.listed.drop i).grant fun hne => ?_
  have hfull : c.capacity ≤ c.places := by
    refine h.full fun hnone => hne ?_
    show c.waiting.filter (· ≠ i) = []
    rw [hnone, List.filter_nil]
  show c.capacity ≤ (c.setStage i .ended).places + 1
  cases hs : c.streams[i]? with
  | none =>
      rw [setStage_of_none _ hs]
      omega
  | some s =>
      have hplaces := places_setStage .ended hs
      rw [if_neg (Stage.noConfusion : Stage.ended ≠ .granted)] at hplaces
      split at hplaces <;> omega

/-- The place of a request that was taken is passed on. -/
theorem Line.pop {rest : List Nat} (h : c.Line) (hqueued : c.queued = i :: rest) :
    (RequestChannel.grant { c with queued := rest, taken := c.taken ++ [i] }).Line := by
  refine Listed.grant ⟨h.listed.waiting, h.listed.nodup⟩ fun hne => ?_
  have hplaces : c.places = rest.length + 1 + c.stages.countP (· = .granted) := by
    rw [places, hqueued, List.length_cons]
  have hfull := h.full hne
  show c.capacity ≤ rest.length + c.stages.countP (· = .granted) + 1
  omega

end RequestChannel

end LedgerCommit
